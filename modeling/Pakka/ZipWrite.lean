/-
The write side of a ZIP archive: staging an add, the header builders, and the commit, which
rebuilds the whole file from the staged payloads and those on disk.

The rebuild writes the new offsets into the entries while it streams, so every failure
before the rename runs `pk3_rebuild_rollback_offsets`.
-/
import Pakka.PakCommit
import Pakka.ZipLoad

set_option autoImplicit false

namespace Pakka

open ByteImage LittleEndian Logged

/-! ## Headers

Field by field, in the order of the format.
-/

/-- `pk3_build_eocd`. -/
def pk3_build_eocd (cdr_offset cdr_size : UInt32) (entry_count : UInt16) : Bytes :=
  PK3_EOCD_SIGNATURE ++ put16 0 ++ put16 0 ++ put16 entry_count ++ put16 entry_count ++
    put32 cdr_size ++ put32 cdr_offset ++ put16 0

/-- `pk3_gp_flags_for_name`. -/
def pk3_gp_flags_for_name (name : Bytes) : UInt16 :=
  if ¬ name.any (fun b => b > 0x7F) then 0
  else if ¬ pakka_is_valid_utf8 name then 0
  else 0x0800

/-- `pk3_build_lfh`. -/
def pk3_build_lfh (method : UInt16) (crc csize usize : UInt32) (name : Bytes)
    (name_len : UInt16) : Bytes :=
  PK3_LFH_SIGNATURE ++ put16 20 ++ put16 (pk3_gp_flags_for_name name) ++ put16 method ++
    put16 0 ++ put16 0x0021 ++ put32 crc ++ put32 csize ++ put32 usize ++ put16 name_len ++
    put16 0

/-- `pk3_build_cdr`. -/
def pk3_build_cdr (method : UInt16) (crc csize usize : UInt32) (name : Bytes)
    (name_len : UInt16) (lfh_offset : UInt32) : Bytes :=
  PK3_CDR_SIGNATURE ++ put16 20 ++ put16 20 ++ put16 (pk3_gp_flags_for_name name) ++
    put16 method ++ put16 0 ++ put16 0x0021 ++ put32 crc ++ put32 csize ++ put32 usize ++
    put16 name_len ++ put16 0 ++ put16 0 ++ put16 0 ++ put16 0 ++ put32 0 ++ put32 lfh_offset

/-- The name length a header records. -/
def pk3_name_len (e : Entry) : UInt16 := UInt16.ofNat e.filename.strlen

/-- The name bytes a header is followed by. -/
def pk3_name (e : Entry) : Bytes := e.filename.bytes.take (pk3_name_len e).toNat

/-- The local header of an entry and its name. -/
def pk3_lfh_bytes (e : Entry) : Bytes :=
  pk3_build_lfh e.pk3_method e.crc32 e.pk3_compressed_size e.length (pk3_name e)
    (pk3_name_len e) ++ pk3_name e

/-- The central directory record of an entry and its name. -/
def pk3_cdr_bytes (e : Entry) : Bytes :=
  pk3_build_cdr e.pk3_method e.crc32 e.pk3_compressed_size e.length (pk3_name e)
    (pk3_name_len e) e.pk3_lfh_offset ++ pk3_name e

/-! ## Adding

A source is read when it is added if it is to be deflated, else when it is committed.
-/

/-- `pk3_alloc_pending_entry`. -/
def pk3_alloc_pending_entry (env : Env) (entry_name : CStr) (crc : UInt32) (payload_len : ℕ) :
    Op Entry :=
  if payload_len > 0xFFFFFFFF then fail .limit
  else do
    call env.faults .entry .nomem
    pure {
      filename := entry_name
      pk3_method := PK3_METHOD_STORED
      crc32 := crc
      pk3_compressed_size := UInt32.ofNat payload_len
      length := UInt32.ofNat payload_len }

/-- `pk3_link_pending_entry`. -/
def pk3_link_pending_entry (pak : Archive) (e : Entry) : Archive :=
  { link_entry pak e with needs_rebuild := true }

/-- An entry with its payload encoded, or as it is where encoding did not win. -/
def pk3_stash (e : Entry) (src : Bytes) (enc : Option Bytes) : Entry :=
  match enc with
  | some enc =>
    { e with
      pk3_method := PK3_METHOD_DEFLATE
      pk3_compressed_size := UInt32.ofNat enc.length
      pending_data := some enc }
  | none => { e with pending_data := some src }

/-- The DEFLATE branch of `pakka_pk3_add_file_impl`: a second pass over the source captures the
bytes, and the checksum is taken of these. -/
def pk3_capture_source (df : Deflate) (env : Env) (source_path : CStr) (total : ℕ) (e : Entry) :
    Op Entry := do
  call env.faults .capture .nomem
  let stream ← ofOption (env.view 1 source_path).stream .io
  let src_buf ← ofOption (readExact stream 0 total) .io
  let enc ← ofExcept (df.compress src_buf)
  pure (pk3_stash { e with crc32 := crc32_of src_buf } src_buf enc)

/-- `pakka_pk3_add_file_impl`. -/
def pakka_pk3_add_file_impl (df : Deflate) (env : Env) (pak : Archive)
    (source_path entry_name : CStr) : Op Archive :=
  if entry_name.strlen ≥ PAKKA_ENTRY_NAME_SIZE then fail .limit
  else do
    let stream ← ofOption (env.view 0 source_path).stream .io
    if stream.length > 0xFFFFFFFF then fail .limit
    else if (env.view 0 source_path).read_error then fail .io
    else do
      let e ← pk3_alloc_pending_entry env entry_name (crc32_of stream) stream.length
      if pak.pk3_compression = PK3_METHOD_DEFLATE ∧ stream.length > 0 then do
        let e ← pk3_capture_source df env source_path stream.length e
        pure (pk3_link_pending_entry pak e)
      else do
        call env.faults .stash .nomem
        pure (pk3_link_pending_entry pak { e with pending_source := some source_path })

/-- The payload an in-memory add stages. -/
def pk3_capture_memory (df : Deflate) (env : Env) (pak : Archive) (data : Bytes) (e : Entry) :
    Op Entry := do
  let enc ← ofExcept (if pak.pk3_compression = PK3_METHOD_DEFLATE ∧ data.length > 0
    then df.compress data else .ok none)
  match enc with
  | some enc => pure (pk3_stash e data (some enc))
  | none => do
    call env.faults .stash .nomem
    pure (pk3_stash e data none)

/-- `pakka_pk3_add_memory_impl`. -/
def pakka_pk3_add_memory_impl (df : Deflate) (env : Env) (pak : Archive) (entry_name : CStr)
    (data : Bytes) : Op Archive :=
  if entry_name.strlen ≥ PAKKA_ENTRY_NAME_SIZE then fail .limit
  else do
    let e ← pk3_alloc_pending_entry env entry_name (crc32_of data) data.length
    let e ← pk3_capture_memory df env pak data e
    pure (pk3_link_pending_entry pak e)

/-! ## Copying payloads

And the loop that places them.
-/

/-- The payload of an entry on disk. -/
def pk3_copy_extent (env : Env) (disk : Bytes) (i pos : ℕ) (e : Entry) : Op Bytes := do
  call env.faults (.seek_source i) .io
  copyChunks env.faults (.read i) (.write i) PAKFILE_COPY_CHUNK disk .scratch .io
    e.pk3_compressed_size.toNat e.pk3_payload_offset.toNat pos 0

/-- The payload part of the rebuild loop. -/
def pk3_copy_payload (env : Env) (disk : Bytes) (i pos : ℕ) (e : Entry) : Op Bytes :=
  match e.pending_source, e.pending_data with
  | some path, _ => copy_pending_source env i pos path e.pk3_compressed_size e.crc32
  | none, some data => copy_pending_data env i pos data
  | none, none => pk3_copy_extent env disk i pos e

/-- An entry once its header went out at `cur_offset`. -/
def pk3_place_entry (e : Entry) (cur_offset : UInt32) : Entry :=
  let payload := cur_offset + UInt32.ofNat PK3_LFH_SIZE + (pk3_name_len e).toUInt32
  { e with pk3_lfh_offset := cur_offset, pk3_payload_offset := payload, offset := payload }

/-- The rebuild loop from entry `i` on: `done` are the entries already placed, `pos` is the
position in the scratch file. A failure carries the list as it stands. -/
def pk3_rebuild_loop (env : Env) (disk : Bytes) : ℕ → ℕ → UInt32 → List Entry → List Entry →
    Logged FileId (Status × List Entry) (List Entry × UInt32 × ℕ)
  | _, pos, cur_offset, done, [] => pure (done, cur_offset, pos)
  | i, pos, cur_offset, done, e :: es =>
    if cur_offset.toNat + (PK3_LFH_SIZE + (pk3_name_len e).toNat + e.pk3_compressed_size.toNat) >
        0xFFFFFFFF then fail (.limit, done ++ e :: es)
    else do
      let lfh := pk3_lfh_bytes e
      writeAt env.faults (.local_header i) .scratch pos lfh (.io, done ++ e :: es)
      let bs ← (pk3_copy_payload env disk i (pos + lfh.length) e).mapError
        fun s => (s, done ++ e :: es)
      let e := pk3_place_entry e cur_offset
      pk3_rebuild_loop env disk (i + 1) (pos + lfh.length + bs.length)
        (e.pk3_payload_offset + e.pk3_compressed_size) (done ++ [e]) es

/-! ## Directory

With the limits of a format without extensions.
-/

/-- The running total of the directory check. -/
def pk3_cdr_fits : ℕ → List Entry → Bool
  | _, [] => true
  | total, e :: es =>
    if total + (PK3_CDR_SIZE + e.filename.strlen) > UINT32_MAX then false
    else pk3_cdr_fits (total + (PK3_CDR_SIZE + e.filename.strlen)) es

/-- The central directory loop from entry `i` on: the directory's size and its record count. -/
def pk3_write_cdr (env : Env) (f : FileId) (pak : Archive) :
    ℕ → ℕ → UInt32 → UInt32 → List Entry → HandleOp (UInt32 × UInt32 × ℕ)
  | _, pos, cdr_size, entry_count, [] => pure (cdr_size, entry_count, pos)
  | i, pos, cdr_size, entry_count, e :: es => do
    writeAt env.faults (.record i) f pos (pk3_cdr_bytes e) (.io, pak)
    pk3_write_cdr env f pak (i + 1) (pos + (pk3_cdr_bytes e).length)
      (cdr_size + (UInt32.ofNat PK3_CDR_SIZE + (pk3_name_len e).toUInt32)) (entry_count + 1) es

/-- The end of both commit branches: the size check, the central directory from `pos` on, the
end record, the flush. The result is the directory's size. -/
def pk3_write_directory (env : Env) (f : FileId) (pak : Archive) (pos : ℕ) : HandleOp UInt32 :=
  if ¬ pk3_cdr_fits (pak.pk3_cdr_offset.toNat + PK3_EOCD_SIZE) pak.entries then
    fail (.limit, pak)
  else do
    let r ← pk3_write_cdr env f pak 0 pos 0 0 pak.entries
    writeAt env.faults .eocd f r.2.2
      (pk3_build_eocd pak.pk3_cdr_offset r.1 (UInt16.ofNat r.2.1.toNat)) (.io, pak)
    call env.faults .flush (.io, pak)
    pure r.1

/-! ## Commit

The steps in the order of the source. In place and rebuild are one for this family.
-/

/-- `pk3_rebuild_rollback_offsets`: `old` is the handle before the rebuild. -/
def pk3_rebuild_rollback_offsets (old pak : Archive) : Archive :=
  { pak with
    entries := List.zipWith (fun e o =>
      { e with
        pk3_lfh_offset := o.pk3_lfh_offset
        pk3_payload_offset := o.pk3_payload_offset
        offset := o.offset }) pak.entries old.entries
    pk3_cdr_offset := old.pk3_cdr_offset }

/-- The close of the old file. On failure the scratch goes and the old file is reopened. -/
def close_live_checked (env : Env) (restored : Archive) : HandleOp Unit :=
  if env.faults.fails .close_live then
    ⟨[.remove .scratch], .error (.io, { restored with fp := !env.faults.fails .reopen })⟩
  else pure ()

/-- The work on the open scratch file: payloads, directory, end record. -/
def pk3_rebuild_scratch (env : Env) (disk : Bytes) (pak : Archive) :
    HandleOp (Archive × UInt32) := do
  let r ← (pk3_rebuild_loop env disk 0 0 0 [] pak.entries).mapError fun err =>
    (err.1, { pak with entries := err.2 })
  let placed := { pak with entries := r.1, pk3_cdr_offset := r.2.1 }
  let cdr_size ← pk3_write_directory env .scratch placed r.2.2
  call env.faults .close_scratch (.io, placed)
  pure (placed, cdr_size)

/-- The rebuild up to the close of the old file: the new handle and the size of its
directory. -/
def pk3_rebuild_work (env : Env) (disk : Bytes) (pak : Archive) :
    HandleOp (Archive × UInt32) := do
  (alloc_for_entries env .bookkeeping pak.entries).mapError fun s => (s, pak)
  call env.faults .mkstemp (.io, pak)
  emit (.create .scratch)
  let r ← ((pk3_rebuild_scratch env disk pak).mapError fun err =>
    (err.1, pk3_rebuild_rollback_offsets pak err.2)).onError [.remove .scratch]
  close_live_checked env (pk3_rebuild_rollback_offsets pak r.1)
  pure r

/-- The rebuild up to the rename. -/
def pk3_rebuild_publish (env : Env) (disk : Bytes) (pak : Archive) :
    HandleOp (Archive × UInt32) := do
  let r ← pk3_rebuild_work env disk pak
  publish_scratch env (pk3_rebuild_rollback_offsets pak r.1)
  pure r

/-- The rebuild branch of `pakka_pk3_commit_impl`. -/
def pk3_commit_rebuild (env : Env) (disk : Bytes) (pak : Archive) : HandleOp Archive := do
  let r ← pk3_rebuild_publish env disk pak
  let published := { r.1 with
    entries := drop_pending r.1.entries
    dirty := false
    needs_rebuild := false }
  call env.faults .reopen (.io, { published with fp := false })
  pure { published with
    fp := true
    file_size := r.1.pk3_cdr_offset.toNat + r.2.toNat + PK3_EOCD_SIZE }

/-- The in-place branch of `pakka_pk3_commit_impl`. -/
def pk3_commit_in_place (env : Env) (pak : Archive) : HandleOp Archive := do
  call env.faults .seek_cdr (.io, pak)
  let cdr_size ← pk3_write_directory env .live pak pak.pk3_cdr_offset.toNat
  let new_eof := pak.pk3_cdr_offset.toNat + cdr_size.toNat + PK3_EOCD_SIZE
  call env.faults .truncate (.io, pak)
  emit (.truncate .live new_eof)
  pure { pak with file_size := new_eof, dirty := false }

/-- `pakka_pk3_commit_impl`. -/
def pakka_pk3_commit_impl (env : Env) (disk : Bytes) (pak : Archive) : HandleOp Archive :=
  if ¬ pak.dirty then pure pak
  else if pak.num_entries.toNat > 0xFFFF then fail (.limit, pak)
  else if pak.needs_rebuild then pk3_commit_rebuild env disk pak
  else pk3_commit_in_place env pak

/-- `pakka_pk3_create_impl` on the fresh temporary file. -/
def pakka_pk3_create_impl (env : Env) (pak : Archive) : Op Archive := do
  writeAt env.faults .eocd .live 0 (pk3_build_eocd 0 0 0) .io
  call env.faults .flush .io
  pure { pak with
    max_decompressed := PK3_DEFAULT_MAX_DECOMPRESSED
    pk3_cdr_offset := 0
    num_entries := 0
    entries := []
    tail := none }

end Pakka
