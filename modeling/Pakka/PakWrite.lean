/-
The mutators on PAK-class archives: adding from a file and from memory, deleting,
renaming and copying. They are computations on the archive file that deliver the changed
handle; one that fails leaves the handle as it was.

In plain mode an add writes its payload at `payload_end` before it touches the handle.
In atomic mode it stages the payload in the entry and writes nothing.

An add first decides what it stores, then where, and touches the handle at the end. Payloads that do
not shrink under the codec are stored as they are. Sizes are machine words of 32 bits, and the
conversions are the places where an add can fail for size.
-/
import Pakka.Environment
import Pakka.DkCodec
import Pakka.Names
import Pakka.Crc32

set_option autoImplicit false

namespace Pakka

open ByteImage Logged

/-! ## Preflight

The checks of the name, in the order of the source: each has its own status.
-/

/-- `pak_entry_name_cap`. -/
def pak_entry_name_cap (format : Format) : ℕ :=
  if pakka_format_is_zip format then PAKKA_ENTRY_NAME_SIZE
  else
    match pakka_pak_geometry format with
    | some g => g.name_field_len
    | none => PAKFILE_PATH_MAX

/-- A name the format has no room for. A WAD name may fill its field. -/
def entry_name_too_long (format : Format) (name : CStr) : Bool :=
  if pakka_format_is_wad format then name.strlen > pak_entry_name_cap format
  else name.strlen ≥ pak_entry_name_cap format

/-- `pak_add_preflight`. -/
def pak_add_preflight (pak : Archive) (entry_name : CStr) : Except Status Unit :=
  if entry_name_too_long pak.format entry_name then .error .limit
  else if pakka_unsafe_entry_name entry_name then .error .unsafe_name
  else if ¬ pakka_format_is_wad pak.format ∧ (find_entry pak.entries entry_name).isSome then
    .error .duplicate
  else .ok ()

/-! ## Daikatana compression

Only for certain extensions, and only where it saves something.
-/

/-- `dk_compressible_extension`. -/
def dk_compressible_extension (name : CStr) : Bool :=
  let n := name.strlen
  let ext := (name.bytes.drop (n - 3)).map ascii_lower
  n ≥ 4 && name.bytes.getD (n - 4) 0 = 0x2E &&
    [ascii "tga", ascii "bmp", ascii "wal", ascii "pcx", ascii "bsp"].contains ext

/-- Whether an add tries the encoder. -/
def dk_try_compress (format : Format) (entry_name : CStr) (len : ℕ) : Bool :=
  format = .daikatana && len > 0 && dk_compressible_extension entry_name

/-- The encoder's output, kept if it is smaller than its input. -/
def dk_encode (env : Env) (src : Bytes) : Option Bytes :=
  if env.faults.fails .encode then none
  else
    match pakka_dk_deflate src (dk_worst src.length) with
    | .ok enc => if enc.length < src.length then some enc else none
    | .error _ => none

/-- What an add has in memory of its payload: `enc_buf`, `src_buf`, or neither. -/
inductive Captured where
  | encoded (enc : Bytes)
  | raw (src : Bytes)
  | none

/-- The eager read and encode of `pakka_add_file`. -/
def dk_capture_source (env : Env) (stream : Bytes) (src_size : ℕ) : Except Status Captured :=
  if dk_worst src_size > UINT32_MAX then .ok .none
  else if env.faults.fails .capture then .ok .none
  else do
    let src ← orError (readExact stream 0 src_size) .io
    match dk_encode env src with
    | some enc => pure (.encoded enc)
    | none => pure (.raw src)

/-- The encode of `pakka_add_memory`. -/
def dk_capture_memory (env : Env) (data : Bytes) : Captured :=
  if dk_worst data.length > UINT32_MAX then .none
  else
    match dk_encode env data with
    | some enc => .encoded enc
    | none => .none

/-- `enc_buf`, which decides `use_encoded`. -/
def Captured.enc_buf : Captured → Option Bytes
  | .encoded enc => some enc
  | _ => Option.none

/-- The bytes an add of `len` bytes will put on disk. -/
def add_physical_size (len : ℕ) (enc_buf : Option Bytes) : UInt32 :=
  match enc_buf with
  | some enc => UInt32.ofNat enc.length
  | none => UInt32.ofNat len

/-- The entry node of an add. -/
def pak_new_entry (entry_name : CStr) (offset len : ℕ) (enc_buf : Option Bytes) : Entry :=
  { filename := entry_name
    offset := UInt32.ofNat offset
    length := UInt32.ofNat len
    dk_is_compressed := enc_buf.isSome
    dk_compressed_size := match enc_buf with
      | some enc => UInt32.ofNat enc.length
      | none => 0 }

/-! ## Linking

The assignments of an add, behind everything that can fail.
-/

/-- Link an entry at the tail and count it. -/
def link_entry (pak : Archive) (e : Entry) : Archive :=
  { pak with
    entries := link_at_tail pak.entries pak.tail e
    tail := tail_after_link pak.tail
    num_entries := pak.num_entries + 1
    dirty := true }

/-- `pak_link_copy_entry`. -/
def pak_link_copy_entry (pak : Archive) (e : Entry) (needs_rebuild : Bool) : Archive :=
  let pak := link_entry pak e
  if needs_rebuild then { pak with needs_rebuild := true } else pak

/-- `pak_link_staged_entry`. -/
def pak_link_staged_entry (pak : Archive) (e : Entry) : Archive :=
  { link_entry pak e with needs_rebuild := true }

/-- Linking an entry whose payload was written at `append_offset`. -/
def pak_link_appended_entry (pak : Archive) (e : Entry) (append_offset : ℕ)
    (physical_size : UInt32) : Archive :=
  { link_entry pak e with payload_end := append_offset + physical_size.toNat }

/-! ## Adding

Plain and atomic, from a file and from memory.
-/

/-- The staged add of `pakka_add_file`. -/
def pak_stage_file (env : Env) (pak : Archive) (source_path entry_name : CStr) (stream : Bytes)
    (src_size : ℕ) (cap : Captured) : Op Archive := do
  call env.faults .entry .nomem
  let e := pak_new_entry entry_name 0 src_size cap.enc_buf
  match cap with
  | .encoded enc => pure (pak_link_staged_entry pak { e with pending_data := some enc })
  | .raw src => pure (pak_link_staged_entry pak { e with pending_data := some src })
  | .none =>
    if (env.view 0 source_path).read_error then fail .io
    else do
      call env.faults .stash .nomem
      pure (pak_link_staged_entry pak
        { e with crc32 := crc32_of stream, pending_source := some source_path })

/-- The payload write of `pakka_add_file` in plain mode. -/
def pak_write_file_payload (env : Env) (stream : Bytes) (src_size append_offset : ℕ)
    (cap : Captured) : Op Unit :=
  match cap with
  | .encoded enc => writeAt env.faults (.write 0 0) .live append_offset enc .io
  | .raw src => writeAt env.faults (.write 0 0) .live append_offset src .io
  | .none =>
    if src_size = 0 then pure ()
    else do
      call env.faults (.buffer 0) .nomem
      let _ ← copyChunks env.faults (.read 0) (.write 0) PAKFILE_COPY_CHUNK stream .live .io
        src_size 0 append_offset 0
      pure ()

/-- The plain add of `pakka_add_file`. -/
def pak_append_file (env : Env) (pak : Archive) (entry_name : CStr) (stream : Bytes)
    (src_size : ℕ) (cap : Captured) : Op Archive :=
  let append_offset := pak.payload_end
  let physical_size := add_physical_size src_size cap.enc_buf
  if append_offset > UINT32_MAX - physical_size.toNat then fail .limit
  else do
    call env.faults .entry .nomem
    call env.faults .seek_append .io
    pak_write_file_payload env stream src_size append_offset cap
    pure (pak_link_appended_entry pak
      (pak_new_entry entry_name append_offset src_size cap.enc_buf) append_offset physical_size)

/-- `pakka_add_file` on a PAK-class archive, after the preflights. -/
def pak_add_file (env : Env) (pak : Archive) (source_path entry_name : CStr) : Op Archive := do
  let stream ← ofOption (env.view 0 source_path).stream .io
  let src_size ← ofOption (env.view 0 source_path).filesize .io
  if src_size > UINT32_MAX then fail .limit
  else do
    let cap ← ofExcept (if dk_try_compress pak.format entry_name src_size
      then dk_capture_source env stream src_size else .ok .none)
    if pak.atomic_commit then pak_stage_file env pak source_path entry_name stream src_size cap
    else pak_append_file env pak entry_name stream src_size cap

/-- The staged add of `pakka_add_memory`. -/
def pak_stage_memory (env : Env) (pak : Archive) (entry_name : CStr) (data : Bytes)
    (cap : Captured) : Op Archive := do
  call env.faults .entry .nomem
  let e := pak_new_entry entry_name 0 data.length cap.enc_buf
  match cap with
  | .encoded enc => pure (pak_link_staged_entry pak { e with pending_data := some enc })
  | _ => do
    call env.faults .stash .nomem
    pure (pak_link_staged_entry pak { e with pending_data := some data })

/-- The payload write of `pakka_add_memory` in plain mode. -/
def pak_write_memory_payload (env : Env) (data : Bytes) (append_offset : ℕ) (cap : Captured) :
    Op Unit :=
  match cap with
  | .encoded enc => writeAt env.faults (.write 0 0) .live append_offset enc .io
  | _ =>
    if data.length > 0 then writeAt env.faults (.write 0 0) .live append_offset data .io
    else pure ()

/-- The plain add of `pakka_add_memory`. -/
def pak_append_memory (env : Env) (pak : Archive) (entry_name : CStr) (data : Bytes)
    (cap : Captured) : Op Archive :=
  let append_offset := pak.payload_end
  let physical_size := add_physical_size data.length cap.enc_buf
  if append_offset > UINT32_MAX - physical_size.toNat then fail .limit
  else do
    call env.faults .entry .nomem
    call env.faults .seek_append .io
    pak_write_memory_payload env data append_offset cap
    pure (pak_link_appended_entry pak
      (pak_new_entry entry_name append_offset data.length cap.enc_buf) append_offset physical_size)

/-- `pakka_add_memory` on a PAK-class archive, after the preflight. -/
def pak_add_memory (env : Env) (pak : Archive) (entry_name : CStr) (data : Bytes) : Op Archive :=
  if data.length > UINT32_MAX then fail .limit
  else
    let cap := if dk_try_compress pak.format entry_name data.length
      then dk_capture_memory env data else .none
    if pak.atomic_commit then pak_stage_memory env pak entry_name data cap
    else pak_append_memory env pak entry_name data cap

/-! ## Deleting, renaming, copying

By the first entry of a name.
-/

/-- The position of the first entry of a name. -/
def find_entry_index (es : List Entry) (name : CStr) : Option ℕ :=
  es.findIdx? fun e => e.filename = name

/-- Where `tail` points once the node at `i` is unlinked. -/
def tail_after_unlink (tail : Option ℕ) (i : ℕ) : Option ℕ :=
  match tail with
  | none => none
  | some t =>
    if t = i then (if i = 0 then none else some (i - 1))
    else if t > i then some (t - 1) else some t

/-- `pakka_delete`. -/
def pakka_delete (pak : Archive) (entry_name : CStr) : Op Archive :=
  if ¬ pak.writable ∨ ¬ pak.fp then fail .invalid_argument
  else do
    let i ← ofOption (find_entry_index pak.entries entry_name) .not_found
    pure { pak with
      entries := pak.entries.eraseIdx i
      tail := tail_after_unlink pak.tail i
      num_entries := pak.num_entries - 1
      dirty := true
      needs_rebuild := true }

/-- `pakka_rename`. -/
def pakka_rename (pak : Archive) (old_name new_name : CStr) : Op Archive :=
  if ¬ pak.writable ∨ ¬ pak.fp then fail .invalid_argument
  else if old_name = new_name then do
    let _ ← ofOption (find_entry pak.entries old_name) .not_found
    pure pak
  else do
    let i ← ofOption (find_entry_index pak.entries old_name) .not_found
    ofExcept (pak_add_preflight pak new_name)
    pure { pak with
      entries := pak.entries.modify i fun e => { e with filename := new_name }
      dirty := true
      needs_rebuild := pak.needs_rebuild || pakka_format_is_zip pak.format }

/-- `pakka_copy`. -/
def pakka_copy (env : Env) (pak : Archive) (src_name dst_name : CStr) : Op Archive :=
  if ¬ pak.writable ∨ ¬ pak.fp then fail .invalid_argument
  else do
    let src ← ofOption (find_entry pak.entries src_name) .not_found
    ofExcept (pak_add_preflight pak dst_name)
    call env.faults .entry .nomem
    let dup := { src with filename := dst_name, pending_source := none, pending_data := none }
    match src.pending_data, src.pending_source with
    | some data, _ => do
      call env.faults .stash .nomem
      pure (pak_link_copy_entry pak { dup with pending_data := some data, offset := 0 } true)
    | none, some path => do
      call env.faults .stash .nomem
      pure (pak_link_copy_entry pak { dup with pending_source := some path, offset := 0 } true)
    | none, none => pure (pak_link_copy_entry pak dup (pakka_format_is_zip pak.format))

/-- `pakka_compression_t` values the setter knows. -/
abbrev PAKKA_COMPRESSION_STORE : UInt16 := 0
abbrev PAKKA_COMPRESSION_DEFLATE : UInt16 := 8

/-- `pakka_set_compression`. -/
def pakka_set_compression (pak : Archive) (method : UInt16) : Op Archive :=
  if method ≠ PAKKA_COMPRESSION_STORE ∧ method ≠ PAKKA_COMPRESSION_DEFLATE then
    fail .invalid_argument
  else if ¬ pak.writable then fail .invalid_argument
  else if method = PAKKA_COMPRESSION_DEFLATE ∧ ¬ pakka_format_is_zip pak.format then
    fail .invalid_argument
  else pure { pak with pk3_compression := method }

end Pakka
