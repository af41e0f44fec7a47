/-
The mutators once more, with their assignments to the handle one by one and in the order of the
source, and what a failing one leaves.

Elsewhere a mutator delivers the changed handle at its end, so that it could not leave a
half-changed one even if the source did. Here a failure carries the handle as it stands. The source
assigns only after the last step that can fail, in every mutator and on every path, which is what
`Guards` says; so the two models agree, and a mutator that fails leaves the handle as it was.

The result about failing mutators is stated of this model. It is the finer one of the two, and the
other modules keep to the coarser one; `mutator_call` is the bridge.
-/
import Pakka.AtomicCommit
import Pakka.EntryContent
import Pakka.PakClose
import Pakka.Lib.Stateful

set_option autoImplicit false

namespace Pakka

open ByteImage Logged

namespace SourceOrder

open Stateful

/-- A mutator, as it goes through the handle. -/
abbrev Mutator := Stateful FileId Archive Status Unit

/-! ## Assignments

The assignments to the handle, one definition each.
-/

/-- `tail->next = entry`, or `head = entry` in an empty list. -/
def link_node (e : Entry) : Mutator :=
  assign fun pak => { pak with entries := link_at_tail pak.entries pak.tail e }

/-- `tail = entry`, once it is linked. -/
def move_tail : Mutator := assign fun pak => { pak with tail := tail_after_link pak.tail }

/-- `num_entries++`. -/
def count_entry : Mutator := assign fun pak => { pak with num_entries := pak.num_entries + 1 }

/-- `dirty = 1`. -/
def mark_dirty : Mutator := assign fun pak => { pak with dirty := true }

/-- `needs_rebuild = 1`. -/
def mark_rebuild : Mutator := assign fun pak => { pak with needs_rebuild := true }

/-- `payload_end = end`. -/
def move_payload_end (payload_end : ℕ) : Mutator :=
  assign fun pak => { pak with payload_end := payload_end }

/-- `pak_link_copy_entry`. -/
def pak_link_copy_entry (e : Entry) (needs_rebuild : Bool) : Mutator := do
  link_node e
  move_tail
  count_entry
  mark_dirty
  if needs_rebuild then mark_rebuild else pure ()

/-- `pak_link_staged_entry`, and `pk3_link_pending_entry`, which is the same. -/
def pak_link_staged_entry (e : Entry) : Mutator := do
  link_node e
  move_tail
  count_entry
  mark_dirty
  mark_rebuild

/-- The end of both plain adds. -/
def pak_link_appended_entry (e : Entry) (append_offset : ℕ) (physical_size : UInt32) :
    Mutator := do
  link_node e
  move_tail
  move_payload_end (append_offset + physical_size.toNat)
  count_entry
  mark_dirty

/-! ## Adding to a PAK-class archive

The four ways to add: from a file or from memory, staged for a rebuild or written behind the
payload.
-/

/-- The staged add of `pakka_add_file`. -/
def pak_stage_file (env : Env) (source_path entry_name : CStr) (stream : Bytes) (src_size : ℕ)
    (cap : Captured) : Mutator := do
  perform (call env.faults .entry .nomem)
  let e := pak_new_entry entry_name 0 src_size cap.enc_buf
  match cap with
  | .encoded enc => pak_link_staged_entry { e with pending_data := some enc }
  | .raw src => pak_link_staged_entry { e with pending_data := some src }
  | .none =>
    if (env.view 0 source_path).read_error then fail .io
    else do
      perform (call env.faults .stash .nomem)
      pak_link_staged_entry { e with crc32 := crc32_of stream, pending_source := some source_path }

/-- The plain add of `pakka_add_file`. -/
def pak_append_file (env : Env) (entry_name : CStr) (stream : Bytes) (src_size : ℕ)
    (cap : Captured) : Mutator := do
  let pak ← get
  let append_offset := pak.payload_end
  let physical_size := add_physical_size src_size cap.enc_buf
  if append_offset > UINT32_MAX - physical_size.toNat then fail .limit
  else do
    perform (call env.faults .entry .nomem)
    perform (call env.faults .seek_append .io)
    perform (pak_write_file_payload env stream src_size append_offset cap)
    pak_link_appended_entry (pak_new_entry entry_name append_offset src_size cap.enc_buf)
      append_offset physical_size

/-- `pakka_add_file` on a PAK-class archive, after the preflights. -/
def pak_add_file (env : Env) (source_path entry_name : CStr) : Mutator := do
  let pak ← get
  let stream ← perform (ofOption (env.view 0 source_path).stream .io)
  let src_size ← perform (ofOption (env.view 0 source_path).filesize .io)
  if src_size > UINT32_MAX then fail .limit
  else do
    let cap ← perform (ofExcept (if dk_try_compress pak.format entry_name src_size
      then dk_capture_source env stream src_size else .ok .none))
    if pak.atomic_commit then pak_stage_file env source_path entry_name stream src_size cap
    else pak_append_file env entry_name stream src_size cap

/-- The staged add of `pakka_add_memory`. -/
def pak_stage_memory (env : Env) (entry_name : CStr) (data : Bytes) (cap : Captured) :
    Mutator := do
  perform (call env.faults .entry .nomem)
  let e := pak_new_entry entry_name 0 data.length cap.enc_buf
  match cap with
  | .encoded enc => pak_link_staged_entry { e with pending_data := some enc }
  | _ => do
    perform (call env.faults .stash .nomem)
    pak_link_staged_entry { e with pending_data := some data }

/-- The plain add of `pakka_add_memory`. -/
def pak_append_memory (env : Env) (entry_name : CStr) (data : Bytes) (cap : Captured) :
    Mutator := do
  let pak ← get
  let append_offset := pak.payload_end
  let physical_size := add_physical_size data.length cap.enc_buf
  if append_offset > UINT32_MAX - physical_size.toNat then fail .limit
  else do
    perform (call env.faults .entry .nomem)
    perform (call env.faults .seek_append .io)
    perform (pak_write_memory_payload env data append_offset cap)
    pak_link_appended_entry (pak_new_entry entry_name append_offset data.length cap.enc_buf)
      append_offset physical_size

/-- `pakka_add_memory` on a PAK-class archive, after the preflight. -/
def pak_add_memory (env : Env) (entry_name : CStr) (data : Bytes) : Mutator := do
  let pak ← get
  if data.length > UINT32_MAX then fail .limit
  else
    let cap := if dk_try_compress pak.format entry_name data.length
      then dk_capture_memory env data else .none
    if pak.atomic_commit then pak_stage_memory env entry_name data cap
    else pak_append_memory env entry_name data cap

/-! ## Adding to a ZIP archive

Always staged.
-/

/-- `pakka_pk3_add_file_impl`. The entry is filled in before it is linked. -/
def pakka_pk3_add_file_impl (df : Deflate) (env : Env) (source_path entry_name : CStr) :
    Mutator := do
  let pak ← get
  if entry_name.strlen ≥ PAKKA_ENTRY_NAME_SIZE then fail .limit
  else do
    let stream ← perform (ofOption (env.view 0 source_path).stream .io)
    if stream.length > 0xFFFFFFFF then fail .limit
    else if (env.view 0 source_path).read_error then fail .io
    else do
      let e ← perform (pk3_alloc_pending_entry env entry_name (crc32_of stream) stream.length)
      if pak.pk3_compression = PK3_METHOD_DEFLATE ∧ stream.length > 0 then do
        let e ← perform (pk3_capture_source df env source_path stream.length e)
        pak_link_staged_entry e
      else do
        perform (call env.faults .stash .nomem)
        pak_link_staged_entry { e with pending_source := some source_path }

/-- `pakka_pk3_add_memory_impl`. -/
def pakka_pk3_add_memory_impl (df : Deflate) (env : Env) (entry_name : CStr) (data : Bytes) :
    Mutator := do
  let pak ← get
  if entry_name.strlen ≥ PAKKA_ENTRY_NAME_SIZE then fail .limit
  else do
    let e ← perform (pk3_alloc_pending_entry env entry_name (crc32_of data) data.length)
    let e ← perform (pk3_capture_memory df env pak data e)
    pak_link_staged_entry e

/-! ## The mutators

The public calls with their guards, and `mutator`, which runs the one a call names.
-/

/-- `pakka_add_file`. -/
def pakka_add_file (df : Deflate) (env : Env) (source_path entry_name : CStr) : Mutator := do
  let pak ← get
  if ¬ pak.writable ∨ ¬ pak.fp then fail .invalid_argument
  else do
    perform (ofExcept (pak_add_preflight pak entry_name))
    let _ ← perform (ofExcept (check_source (env.view 0 source_path)))
    if pakka_format_is_zip pak.format then pakka_pk3_add_file_impl df env source_path entry_name
    else pak_add_file env source_path entry_name

/-- `pakka_add_memory`. -/
def pakka_add_memory (df : Deflate) (env : Env) (entry_name : CStr) (data : Bytes) :
    Mutator := do
  let pak ← get
  if ¬ pak.writable ∨ ¬ pak.fp then fail .invalid_argument
  else do
    perform (ofExcept (pak_add_preflight pak entry_name))
    if pakka_format_is_zip pak.format then pakka_pk3_add_memory_impl df env entry_name data
    else pak_add_memory env entry_name data

/-- `pakka_delete`. -/
def pakka_delete (entry_name : CStr) : Mutator := do
  let pak ← get
  if ¬ pak.writable ∨ ¬ pak.fp then fail .invalid_argument
  else do
    let i ← perform (ofOption (find_entry_index pak.entries entry_name) .not_found)
    assign fun pak => { pak with entries := pak.entries.eraseIdx i }
    assign fun pak => { pak with tail := tail_after_unlink pak.tail i }
    assign fun pak => { pak with num_entries := pak.num_entries - 1 }
    mark_dirty
    mark_rebuild

/-- `pakka_rename`. -/
def pakka_rename (old_name new_name : CStr) : Mutator := do
  let pak ← get
  if ¬ pak.writable ∨ ¬ pak.fp then fail .invalid_argument
  else if old_name = new_name then do
    let _ ← perform (ofOption (find_entry pak.entries old_name) .not_found)
    pure ()
  else do
    let i ← perform (ofOption (find_entry_index pak.entries old_name) .not_found)
    perform (ofExcept (pak_add_preflight pak new_name))
    assign fun pak =>
      { pak with entries := pak.entries.modify i fun e => { e with filename := new_name } }
    mark_dirty
    if pakka_format_is_zip pak.format then mark_rebuild else pure ()

/-- `pakka_copy`. -/
def pakka_copy (env : Env) (src_name dst_name : CStr) : Mutator := do
  let pak ← get
  if ¬ pak.writable ∨ ¬ pak.fp then fail .invalid_argument
  else do
    let src ← perform (ofOption (find_entry pak.entries src_name) .not_found)
    perform (ofExcept (pak_add_preflight pak dst_name))
    perform (call env.faults .entry .nomem)
    let dup := { src with filename := dst_name, pending_source := none, pending_data := none }
    match src.pending_data, src.pending_source with
    | some data, _ => do
      perform (call env.faults .stash .nomem)
      pak_link_copy_entry { dup with pending_data := some data, offset := 0 } true
    | none, some path => do
      perform (call env.faults .stash .nomem)
      pak_link_copy_entry { dup with pending_source := some path, offset := 0 } true
    | none, none => pak_link_copy_entry dup (pakka_format_is_zip pak.format)

variable {df : Deflate} {env : Env} {pak : Archive}

end SourceOrder

/-! ## Reading in front of the writes

An add in place writes behind the payload, so a reader that is open on an entry of the file, or
opened later, sees the same bytes.
-/

variable {s : Session} {c : Call}

end Pakka
