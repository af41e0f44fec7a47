/-
Opening an archive: the signature and header checks of `load_pakfile`, the probe that
tells Quake from Daikatana under an `auto` hint, the directory walk of
`load_directory`, the duplicate check, and `pakka_open_ex` that puts them together.

Opening reads one file and changes none, so it is a function of the file's bytes.

The functions are those of the source, in its order of checks and with its statuses. What they
accept is gathered in `PakLoadSpec.lean`, and what the probe makes of an ambiguous file in
`AutoProbe.lean`.
-/
import Pakka.ZipLoad
import Mathlib.Data.List.Sort

set_option autoImplicit false

namespace Pakka

open ByteImage LittleEndian

/-! ## Signature and header

The first four bytes decide the format, and for `PACK` they leave two.
-/

/-- The ZIP magics `load_pakfile` dispatches on. -/
def is_zip_magic (sig : Bytes) : Bool := sig = PK3_LFH_SIGNATURE || sig = PK3_EOCD_SIGNATURE

/-- `pakka_zip_format_from_path`: `.pk4` in either case, anything else is PK3. -/
def pakka_zip_format_from_path (path : CStr) : Format :=
  if ((path.bytes.drop (path.strlen - 4)).map ascii_lower = ascii ".pk4" && 4 ≤ path.strlen) then
    .pk4
  else .pk3

/-- The format a PAK-class signature stands for under a hint. -/
def pak_format_of_signature (hint : Format) (sig : Bytes) : Except Status Format :=
  if sig = [0x50, 0x4B, 7, 8] then .error .unsupported
  else if sig = ascii "SPAK" then
    if hint ≠ .auto ∧ hint ≠ .sin then .error .invalid_argument else .ok .sin
  else if sig = ascii "PACK" then
    if hint ≠ .auto ∧ hint ≠ .pak ∧ hint ≠ .daikatana then .error .invalid_argument
    else .ok (if hint = .daikatana then .daikatana else .pak)
  else if sig = ascii "IWAD" then
    if hint ≠ .auto ∧ hint ≠ .iwad then .error .invalid_argument else .ok .iwad
  else if sig = ascii "PWAD" then
    if hint ≠ .auto ∧ hint ≠ .pwad then .error .invalid_argument else .ok .pwad
  else .error .format

/-- The two header words as directory offset and length in bytes, whatever their order and
unit on disk. -/
def read_pak_header (disk : Bytes) (format : Format) : Except Status (UInt32 × UInt32) := do
  let w1 ← orError (readExact disk 4 4) .io
  let w2 ← orError (readExact disk 8 4) .io
  match pakka_format_is_wad format, pakka_pak_geometry format with
  | true, some wad_geom =>
    let numlumps := get32 w1
    let infotableofs := get32 w2
    if numlumps.toNat > PAKFILE_MAX_ENTRIES then .error .limit
    else pure (infotableofs, numlumps * UInt32.ofNat wad_geom.dir_entry_size)
  | _, _ => pure (get32 w1, get32 w2)

/-! ## Quake or Daikatana

The probe, which walks the rows in either layout.
-/

/-- The rows of `probe_pak_layout` from `entry_pos` on, `n` of them left. -/
def probe_rows (disk : Bytes) (geom : Geometry) : ℕ → ℕ → Bool
  | 0, _ => true
  | n + 1, entry_pos =>
    match readExact disk (entry_pos + geom.name_field_len)
        (geom.dir_entry_size - geom.name_field_len) with
    | none => false
    | some row =>
      let off := get32 row
      let len := get32 (row.drop 4)
      let dk_clen := get32 (row.drop 8)
      let dk_flag := if geom.has_compression then get32 (row.drop 12) else 0
      let extent := if geom.has_compression && dk_flag ≠ 0 then dk_clen.toNat else len.toNat
      if off.toNat < PAKFILE_HEADER_SIZE ∨ extent > disk.length ∨
          off.toNat > disk.length - extent then false
      else probe_rows disk geom n (entry_pos + geom.dir_entry_size)

/-- `probe_pak_layout`. -/
def probe_pak_layout (disk : Bytes) (diroffset dirlength : UInt32) (geom : Geometry) : Bool :=
  if dirlength.toNat % geom.dir_entry_size ≠ 0 then false
  else if dirlength.toNat / geom.dir_entry_size > PAKFILE_MAX_ENTRIES then false
  else probe_rows disk geom (dirlength.toNat / geom.dir_entry_size) diroffset.toNat

/-- The layout probe of a `PACK` file: which geometry its rows fit. -/
def probe_pack_format (disk : Bytes) (diroffset dirlength : UInt32) : Except Status Format :=
  if dirlength = 0 then .ok .pak
  else
    match pakka_pak_geometry .pak, pakka_pak_geometry .daikatana with
    | some pak_geom, some dk_geom =>
      match probe_pak_layout disk diroffset dirlength pak_geom,
          probe_pak_layout disk diroffset dirlength dk_geom with
      | true, true => .error .format
      | true, false => .ok .pak
      | false, true => .ok .daikatana
      | false, false => .error .format
    | _, _ => .error .format

/-- The format the loader settles on: a `PACK` file under an `auto` hint is probed. -/
def settle_pak_format (disk : Bytes) (format_hint format : Format)
    (diroffset dirlength : UInt32) : Except Status Format :=
  if (format = .pak ∨ format = .daikatana) ∧ format_hint = .auto then
    probe_pack_format disk diroffset dirlength
  else .ok format

/-! ## Header checks

The sizes of the directory and where it may lie.
-/

/-- The geometry checks at the end of `load_pakfile`. -/
def load_pak_geometry (pak : Archive) : Except Status Archive := do
  let geom ← orError (pakka_pak_geometry pak.format) .format
  let num_entries := pak.dirlength / UInt32.ofNat geom.dir_entry_size
  if pak.dirlength.toNat % geom.dir_entry_size ≠ 0 then .error .format
  else if num_entries.toNat > PAKFILE_MAX_ENTRIES then .error .limit
  else pure { pak with num_entries := num_entries }

/-- The PAK-class part of `load_pakfile`, after the signature. -/
def load_pak_class (disk : Bytes) (pak : Archive) : Except Status Archive := do
  let format ← pak_format_of_signature pak.format_hint pak.signature
  let hdr ← read_pak_header disk format
  let diroffset := hdr.1
  let dirlength := hdr.2
  if diroffset.toNat < PAKFILE_HEADER_SIZE then .error .format
  else if dirlength.toNat > pak.file_size ∨
      diroffset.toNat > pak.file_size - dirlength.toNat then .error .format
  else do
    let format ← settle_pak_format disk pak.format_hint format diroffset dirlength
    load_pak_geometry
      { pak with format := format, diroffset := diroffset, dirlength := dirlength }

/-- `load_pakfile`. -/
def load_pakfile (path : CStr) (disk : Bytes) (pak : Archive) : Except Status Archive := do
  let signature ← orError (readExact disk 0 PAKFILE_SIGNATURE_LEN) .io
  let pak := { pak with file_size := disk.length, signature := signature }
  if is_zip_magic signature then
    if pak.format_hint ≠ .auto ∧ pak.format_hint ≠ .pk3 ∧ pak.format_hint ≠ .pk4 then
      .error .invalid_argument
    else
      let format := if pak.format_hint = .pk3 ∨ pak.format_hint = .pk4 then pak.format_hint
        else pakka_zip_format_from_path path
      pakka_pk3_open_impl disk { pak with format := format }
  else load_pak_class disk pak

/-! ## Directory

Row by row, with the range check of each row and the limit on the number of entries.
-/

/-- The fields of one directory row. -/
def read_pak_row (format : Format) (geom : Geometry) (row : Bytes) : Entry :=
  let n := geom.name_field_len
  if pakka_format_is_wad format then
    { filename := CStr.ofField (slice row 8 n)
      offset := get32 row
      length := get32 (row.drop 4) }
  else
    { filename := CStr.ofField (slice row 0 n)
      offset := get32 (row.drop n)
      length := get32 (row.drop (n + 4))
      dk_compressed_size := if geom.has_compression then get32 (row.drop (n + 8)) else 0
      dk_is_compressed := geom.has_compression && get32 (row.drop (n + 12)) ≠ 0 }

/-- The bounds a row has to meet. A zero-length WAD lump may point into the header. -/
def pak_row_in_range (format : Format) (file_size : ℕ) (e : Entry) : Bool :=
  let allow_below_header := pakka_format_is_wad format && e.length = 0
  let extent := (pak_entry_on_disk_extent e).toNat
  !((!allow_below_header && e.offset.toNat < PAKFILE_HEADER_SIZE) || extent > file_size ||
    e.offset.toNat > file_size - extent)

/-- What the directory walk carries. -/
structure DirWalk where
  entries : List Entry := []
  tail : Option ℕ := none
  payload_end : ℕ := PAKFILE_HEADER_SIZE

/-- The walk over the rows from `entry_pos` on, `n` of them left. -/
def load_directory_loop (disk : Bytes) (format : Format) (geom : Geometry) :
    ℕ → ℕ → DirWalk → Except Status DirWalk
  | 0, _, w => .ok w
  | n + 1, entry_pos, w => do
    let row ← orError (readExact disk entry_pos geom.dir_entry_size) .io
    let e := read_pak_row format geom row
    if ¬ pak_row_in_range format disk.length e then .error .format
    else
      load_directory_loop disk format geom n (entry_pos + geom.dir_entry_size)
        { entries := link_at_tail w.entries w.tail e
          tail := tail_after_link w.tail
          payload_end := if e.payloadEnd > w.payload_end then e.payloadEnd else w.payload_end }

/-- `load_directory`. -/
def load_directory (disk : Bytes) (pak : Archive) : Except Status Archive := do
  let pak := { pak with payload_end := PAKFILE_HEADER_SIZE }
  if pak.num_entries = 0 then pure pak
  else do
    let geom ← orError (pakka_pak_geometry pak.format) .format
    let w ← load_directory_loop disk pak.format geom pak.num_entries.toNat pak.diroffset.toNat {}
    pure { pak with entries := w.entries, tail := w.tail, payload_end := w.payload_end }

/-! ## Duplicates

A sort and a comparison of neighbours.
-/

/-- `strcmp(a, b) <= 0`. -/
def strcmp_le : Bytes → Bytes → Bool
  | [], _ => true
  | _ :: _, [] => false
  | a :: as, b :: bs => a < b || (a = b && strcmp_le as bs)

/-- Two equal neighbours. -/
def adjacent_equal : List Bytes → Bool
  | a :: b :: rest => a = b || adjacent_equal (b :: rest)
  | _ => false

/-- The sorted scan: whether some name occurs twice. -/
def has_duplicate_name (names : List Bytes) : Bool :=
  adjacent_equal (names.insertionSort fun a b => strcmp_le a b = true)

/-- `validate_no_duplicates`. -/
def validate_no_duplicates (pak : Archive) : Except Status Unit :=
  if pakka_format_is_wad pak.format then .ok ()
  else if pak.num_entries.toNat ≤ 1 then .ok ()
  else if has_duplicate_name
      ((pak.entries.take pak.num_entries.toNat).map fun e => e.filename.bytes) then
    .error .duplicate
  else .ok ()

/-! ## Opening

`pakka_open_ex`, with the ZIP branch taken as given by its own module.
-/

/-- The handle before anything is read. -/
def open_initial (mode : OpenMode) (format_hint : Format) : Archive :=
  { format_hint := format_hint
    max_decompressed := PK3_DEFAULT_MAX_DECOMPRESSED
    fp := true
    writable := mode = .read_write || mode = .read_write_atomic
    atomic_commit := mode = .read_write_atomic }

/-- The directory of a PAK-class archive; a ZIP archive has its list already. -/
def load_entries (disk : Bytes) (pak : Archive) : Except Status Archive :=
  if pakka_format_is_zip pak.format then .ok pak else load_directory disk pak

/-- `pakka_open_ex` on the contents of the file at `path`, `none` where there is none. -/
def pakka_open_ex (path : CStr) (mode : OpenMode) (format_hint : Format) (file : Option Bytes) :
    Except Status Archive := do
  if path.strlen ≥ OS_PATH_MAX then .error .limit
  else do
    let disk ← orError file .io
    let pak ← load_pakfile path disk (open_initial mode format_hint)
    let pak ← load_entries disk pak
    let _ ← validate_no_duplicates pak
    pure pak

end Pakka
