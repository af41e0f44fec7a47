/-
Committing a PAK-class archive: the directory writer, the in-place commit that runs it on
the live file, and the rebuild that runs it on a scratch file and renames.

A commit that fails may leave the handle changed, so a failure carries the handle with its
status. The rebuild puts back by hand what it and the directory writer changed; the
restoring assignments of the code are `pak_rebuild_rollback`.

The two commits share the directory writer. What they do with its failure differs: a commit in place
has nothing to go back to, a rebuild throws the scratch file away.
-/
import Pakka.PakWrite
import Mathlib.Data.List.Sort

set_option autoImplicit false

namespace Pakka

open ByteImage LittleEndian Logged

/-- A step that may leave the handle changed when it fails. -/
abbrev HandleOp (α : Type) := Logged FileId (Status × Archive) α

/-- The outcome of a call, from a computation that carries the handle through failures. -/
def Step.of (x : HandleOp Archive) : Step :=
  match x.res with
  | .ok pak => ⟨.ok, pak, x.log⟩
  | .error (s, pak) => ⟨s, pak, x.log⟩

/-- The outcome of a call that leaves the handle alone when it fails. -/
def Step.ofOp (pak : Archive) (x : Op Archive) : Step := Step.of (x.mapError fun s => (s, pak))

/-! ## The directory writer

Rows at `payload_end`, then the header, then the assignments to the handle.
-/

/-- `init_pak_header`. -/
def init_pak_header (pak : Archive) : Archive :=
  { pak with
    signature := match pakka_pak_geometry pak.format with
      | some geom => geom.signature
      | none => ascii "PACK"
    diroffset := UInt32.ofNat PAKFILE_HEADER_SIZE
    dirlength := 0
    payload_end := PAKFILE_HEADER_SIZE }

/-- The twelve bytes `write_pak_header` writes. -/
def pak_header (pak : Archive) : Bytes :=
  if pakka_format_is_wad pak.format then
    let numlumps := match pakka_pak_geometry pak.format with
      | some geom => pak.dirlength / UInt32.ofNat geom.dir_entry_size
      | none => 0
    pak.signature ++ put32 numlumps ++ put32 pak.diroffset
  else pak.signature ++ put32 pak.diroffset ++ put32 pak.dirlength

/-- `write_pak_header`. -/
def write_pak_header (env : Env) (f : FileId) (pak : Archive) : HandleOp Unit :=
  writeAt env.faults .header f 0 (pak_header pak) (.io, pak)

/-- The row `write_pak_entry` writes. -/
def pak_entry_row (format : Format) (geom : Geometry) (e : Entry) : Bytes :=
  let name_field := e.filename.bytes.take geom.name_field_len ++
    List.replicate (geom.name_field_len - e.filename.strlen) 0
  let row := if pakka_format_is_wad format then put32 e.offset ++ put32 e.length ++ name_field
    else name_field ++ put32 e.offset ++ put32 e.length
  if geom.has_compression then
    row ++ put32 e.dk_compressed_size ++ put32 (if e.dk_is_compressed then 1 else 0)
  else row

/-- The row loop of `write_pak_directory`, from row `i` on, the file position at `pos`. -/
def write_pak_rows (env : Env) (f : FileId) (geom : Geometry) :
    Archive → ℕ → ℕ → List Entry → HandleOp Archive
  | pak, _, _, [] => pure pak
  | pak, i, pos, e :: es => do
    writeAt env.faults (.row i) f pos (pak_entry_row pak.format geom e) (.io, pak)
    write_pak_rows env f geom
      { pak with dirlength := pak.dirlength + UInt32.ofNat geom.dir_entry_size }
      (i + 1) (pos + geom.dir_entry_size) es

/-- `write_pak_directory`: the handle with the new directory's offset and length. -/
def write_pak_directory (env : Env) (f : FileId) (pak : Archive) : HandleOp Archive := do
  let geom ← ofOption (pakka_pak_geometry pak.format) (.format, pak)
  if pak.entries.length = 0 then do
    let pak := { pak with diroffset := UInt32.ofNat PAKFILE_HEADER_SIZE, dirlength := 0 }
    call env.faults .seek_header (.io, pak)
    write_pak_header env f pak
    pure pak
  else if pak.payload_end + pak.num_entries.toNat * geom.dir_entry_size > UINT32_MAX then
    fail (.limit, pak)
  else do
    let pak := { pak with diroffset := UInt32.ofNat pak.payload_end, dirlength := 0 }
    call env.faults .seek_directory (.io, pak)
    let pak ← write_pak_rows env f geom pak 0 pak.diroffset.toNat pak.entries
    call env.faults .seek_header (.io, pak)
    write_pak_header env f pak
    pure pak

/-! ## In place

The writer, on the live file.
-/

/-- The in-place branch of `pakka_commit`. -/
def pakka_commit_in_place (env : Env) (pak : Archive) : HandleOp Archive := do
  let pak ← write_pak_directory env .live pak
  call env.faults .flush (.io, pak)
  pure { pak with
    file_size := pak.diroffset.toNat + pak.dirlength.toNat
    dirty := false }

/-! ## Sharing

Entries with one range in the old file are to have one in the new one. The keys are sorted by range
and then by index, and a scan over neighbours gives each entry its owner.
-/

/-- `pak_dedup_key_t`. -/
structure DedupKey where
  offset : UInt32
  extent : UInt32
  idx : ℕ
  deriving DecidableEq

/-- `pak_dedup_key_cmp(a, b) <= 0`. -/
def pak_dedup_key_le (a b : DedupKey) : Bool :=
  if a.offset ≠ b.offset then a.offset < b.offset
  else if a.extent ≠ b.extent then a.extent < b.extent
  else a.idx ≤ b.idx

/-- The keys of the entries on disk. -/
def pak_dedup_keys (es : List Entry) : List DedupKey :=
  es.zipIdx.filterMap fun p =>
    if p.1.staged then none else some ⟨p.1.offset, pak_entry_on_disk_extent p.1, p.2⟩

/-- The scan over the sorted keys: an entry takes the owner of the neighbour before it when
they share their bytes. -/
def pak_dedup_scan : List DedupKey → List ℕ → List ℕ
  | a :: b :: rest, owner =>
    pak_dedup_scan (b :: rest)
      (if b.offset = a.offset ∧ b.extent = a.extent then
        owner.set b.idx (owner.getD a.idx a.idx)
      else owner)
  | _, owner => owner

/-- For each entry the entry whose copied bytes it uses, itself if none. -/
def pak_dedup_owner (es : List Entry) : List ℕ :=
  pak_dedup_scan ((pak_dedup_keys es).insertionSort fun a b => pak_dedup_key_le a b = true)
    (List.range es.length)

/-- `owner != NULL && owner[i] != i`, and the owner then. -/
def pak_shared (owner : Option (List ℕ)) (i : ℕ) : Option ℕ :=
  match owner with
  | none => none
  | some l => if l.getD i i ≠ i then some (l.getD i i) else none

/-! ## Copying payloads

From a source, from a buffer or from the old file, in blocks, to the end of the scratch file.
-/

/-- A staged source goes out if it still is what the add saw: no symbolic link, regular, of the
same size, and in the end of the same checksum. Entry `i`, the scratch position at `pos`. -/
def copy_pending_source (env : Env) (i pos : ℕ) (pending_source : CStr) (size crc : UInt32) :
    Op Bytes := do
  let st_size ← ofExcept (check_source (env.view i pending_source))
  if st_size ≠ size.toNat then fail .format
  else do
    let stream ← ofOption (env.view i pending_source).stream .io
    let bs ← copyChunks env.faults (.read i) (.write i) PAKFILE_COPY_CHUNK stream .scratch .io
      size.toNat 0 pos 0
    if crc32_of bs ≠ crc then fail .format else pure bs

/-- A staged buffer goes out as it is. -/
def copy_pending_data (env : Env) (i pos : ℕ) (data : Bytes) : Op Bytes :=
  if data.length > 0 then do
    writeAt env.faults (.write i 0) .scratch pos data .io
    pure data
  else pure []

/-- `pak_copy_pending_source`. -/
def pak_copy_pending_source (env : Env) (i pos : ℕ) (e : Entry) (pending_source : CStr) :
    Op Bytes :=
  copy_pending_source env i pos pending_source e.length e.crc32

/-- The payload of an entry on disk. -/
def pak_copy_extent (env : Env) (disk : Bytes) (i pos : ℕ) (e : Entry) : Op Bytes := do
  call env.faults (.seek_source i) .io
  if pak_entry_on_disk_extent e = 0 then pure []
  else do
    call env.faults (.buffer i) .nomem
    copyChunks env.faults (.read i) (.write i) PAKFILE_COPY_CHUNK disk .scratch .io
      (pak_entry_on_disk_extent e).toNat e.offset.toNat pos 0

/-- `copy_between_paks`, the scratch position at `pos`. The result is what was copied. -/
def copy_between_paks (env : Env) (disk : Bytes) (i pos : ℕ) (e : Entry) : Op Bytes := do
  call env.faults (.tell i) .io
  if pos > UINT32_MAX then fail .limit
  else
    match e.pending_source, e.pending_data with
    | some path, _ => pak_copy_pending_source env i pos e path
    | none, some data => copy_pending_data env i pos data
    | none, none => pak_copy_extent env disk i pos e

/-- The copy loop of the rebuild from entry `i` on: the new offsets, and where the scratch
position ends up. -/
def pak_rebuild_copy (env : Env) (disk : Bytes) (owner : Option (List ℕ)) :
    ℕ → ℕ → List UInt32 → List Entry → Op (List UInt32 × ℕ)
  | _, pos, offsets, [] => pure (offsets, pos)
  | i, pos, offsets, e :: es =>
    match pak_shared owner i with
    | some o => pak_rebuild_copy env disk owner (i + 1) pos (offsets ++ [offsets.getD o 0]) es
    | none => do
      let bs ← copy_between_paks env disk i pos e
      pak_rebuild_copy env disk owner (i + 1) (pos + bs.length)
        (offsets ++ [UInt32.ofNat pos]) es

/-! ## Rebuild

The steps in the order of the source: allocations, scratch file, copies, directory, close, rename,
reopen. Each can fail, and what is put back then is a definition of its own.
-/

/-- An allocation that is made only when there are entries. -/
def alloc_for_entries (env : Env) (site : Site) (es : List Entry) : Op Unit :=
  if es.length > 0 then call env.faults site .nomem else pure ()

/-- The work on the open scratch file up to the directory. -/
def pak_rebuild_payloads (env : Env) (disk : Bytes) (pak : Archive) : Op (List UInt32 × ℕ) := do
  call env.faults .seek_scratch .io
  let owner := if env.faults.fails .dedup then none else some (pak_dedup_owner pak.entries)
  let r ← pak_rebuild_copy env disk owner 0 PAKFILE_HEADER_SIZE [] pak.entries
  call env.faults .tell_end .io
  alloc_for_entries env .rollback pak.entries
  pure r

/-- The rebuild up to the directory: the bookkeeping, the scratch file, the payloads. -/
def pak_rebuild_scratch (env : Env) (disk : Bytes) (pak : Archive) : Op (List UInt32 × ℕ) := do
  alloc_for_entries env .bookkeeping pak.entries
  call env.faults .mkstemp .io
  emit (.create .scratch)
  (pak_rebuild_payloads env disk pak).onError [.remove .scratch]

/-- The handle with the new offsets installed. -/
def pak_rebuild_install (pak : Archive) (offsets : List UInt32) (rebuilt_payload_end : ℕ) :
    Archive :=
  { pak with
    entries := List.zipWith (fun e o => { e with offset := o }) pak.entries offsets
    tail := lastIndex pak.entries
    payload_end := rebuilt_payload_end }

/-- The restoring assignments of a failed rebuild: `old` is the handle before it, `pak` the one
at the failure. -/
def pak_rebuild_rollback (old pak : Archive) : Archive :=
  { pak with
    entries := List.zipWith (fun e o => { e with offset := o.offset }) pak.entries old.entries
    tail := old.tail
    payload_end := old.payload_end
    diroffset := old.diroffset
    dirlength := old.dirlength }

/-- The rename of the finished scratch file. On failure the scratch goes and the old file is
reopened. -/
def publish_scratch (env : Env) (restored : Archive) : HandleOp Unit :=
  if env.faults.fails .rename then
    ⟨[.remove .scratch], .error (.io, { restored with fp := !env.faults.fails .reopen })⟩
  else emit (.rename .scratch .live)

/-- Staged payloads are in the file now. -/
def drop_pending (es : List Entry) : List Entry :=
  es.map fun e => { e with pending_source := none, pending_data := none }

/-- The rebuild up to the close of the finished scratch file. -/
def pak_rebuild_work (env : Env) (disk : Bytes) (pak : Archive) : HandleOp Archive := do
  let r ← (pak_rebuild_scratch env disk pak).mapError fun s => (s, pak)
  let installed := pak_rebuild_install pak r.1 r.2
  let done ← ((write_pak_directory env .scratch installed).mapError fun err =>
    (err.1, pak_rebuild_rollback pak err.2)).onError [.remove .scratch]
  (call env.faults .close_scratch (.io, pak_rebuild_rollback pak done)).onError [.remove .scratch]
  pure done

/-- The rebuild up to the rename. -/
def pak_rebuild_publish (env : Env) (disk : Bytes) (pak : Archive) : HandleOp Archive := do
  let done ← pak_rebuild_work env disk pak
  publish_scratch env (pak_rebuild_rollback pak done)
  pure done

/-- `pakka_commit_rebuild`. -/
def pakka_commit_rebuild (env : Env) (disk : Bytes) (pak : Archive) : HandleOp Archive := do
  let done ← pak_rebuild_publish env disk pak
  call env.faults .reopen (.io, { done with fp := false })
  pure { done with
    entries := drop_pending done.entries
    fp := true
    dirty := false
    needs_rebuild := false }

end Pakka
