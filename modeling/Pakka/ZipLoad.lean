/-
Opening a ZIP container: the backward scan for the end record, its validation, the
walk over the central directory, and the second pass over the local headers.

The numbers of a record are used only after they were compared with the file, and the entries that
are directory markers are skipped. What the loader accepts is said by `ZipLoadSpec.lean`.
-/
import Pakka.Names
import Pakka.Crc32

set_option autoImplicit false

namespace Pakka

open ByteImage LittleEndian

/-! ## Constants

Sizes, signatures and limits of the format.
-/

abbrev PK3_LFH_SIZE : ℕ := 30
abbrev PK3_CDR_SIZE : ℕ := 46
abbrev PK3_EOCD_SIZE : ℕ := 22
abbrev PK3_EOCD_SCAN_MAX : ℕ := 65557
abbrev PK3_MAX_CDR_SIZE : ℕ := 64 * 1024 * 1024

/-- `"PK\003\004"`. -/
def PK3_LFH_SIGNATURE : Bytes := [0x50, 0x4B, 3, 4]

/-- `"PK\001\002"`. -/
def PK3_CDR_SIGNATURE : Bytes := [0x50, 0x4B, 1, 2]

/-- `"PK\005\006"`. -/
def PK3_EOCD_SIGNATURE : Bytes := [0x50, 0x4B, 5, 6]

abbrev PK3_METHOD_STORED : UInt16 := 0
abbrev PK3_METHOD_DEFLATE : UInt16 := 8
abbrev PK3_UNIX_IFMT : UInt32 := 0xF000
abbrev PK3_UNIX_IFLNK : UInt32 := 0xA000

/-! ## End of central directory

The record that is found first from the end, and its checks.
-/

/-- Whether an end record with a comment that reaches the end of `buf` starts at `i`. -/
def pk3_eocd_at (buf : Bytes) (i : ℕ) : Bool :=
  slice buf i 4 = PK3_EOCD_SIGNATURE &&
    i + PK3_EOCD_SIZE + (get16 (buf.drop (i + 20))).toNat = buf.length

/-- The scan from position `n - 1` down to `0`. -/
def pk3_find_eocd_loop (buf : Bytes) : ℕ → Option ℕ
  | 0 => none
  | i + 1 => if pk3_eocd_at buf i then some i else pk3_find_eocd_loop buf i

/-- `pk3_find_eocd`. -/
def pk3_find_eocd (disk : Bytes) : Option ℕ :=
  let file_size := disk.length
  if file_size < PK3_EOCD_SIZE then none
  else
    let scan_len := if file_size > PK3_EOCD_SCAN_MAX then PK3_EOCD_SCAN_MAX else file_size
    let scan_start := file_size - scan_len
    (pk3_find_eocd_loop (slice disk scan_start scan_len) (scan_len - PK3_EOCD_SIZE + 1)).map
      (scan_start + ·)

/-- What the end record says of the central directory. -/
structure Eocd where
  cdr_offset : UInt32
  cdr_size : UInt32
  entry_count : UInt16

/-- `pk3_validate_eocd`. -/
def pk3_validate_eocd (disk : Bytes) (eocd_offset : ℕ) : Except Status Eocd := do
  let eocd ← orError (readExact disk eocd_offset PK3_EOCD_SIZE) .io
  let disk_num := get16 (eocd.drop 4)
  let disk_with_cdr := get16 (eocd.drop 6)
  let entries_on_disk := get16 (eocd.drop 8)
  let total_entries := get16 (eocd.drop 10)
  let cdr_size := get32 (eocd.drop 12)
  let cdr_offset := get32 (eocd.drop 16)
  if disk_num ≠ 0 ∨ disk_with_cdr ≠ 0 then .error .unsupported
  else if entries_on_disk ≠ total_entries then .error .format
  else if total_entries = 0xFFFF ∨ cdr_size = 0xFFFFFFFF ∨ cdr_offset = 0xFFFFFFFF then
    .error .unsupported
  else if cdr_offset.toNat + cdr_size.toNat > eocd_offset then .error .format
  else if total_entries.toNat > PAKFILE_MAX_ENTRIES then .error .limit
  else pure ⟨cdr_offset, cdr_size, total_entries⟩

/-! ## Central directory

Record after record, then the local header of each.
-/

/-- `pk3_cdr_record_t`. -/
structure CdrRecord where
  flags : UInt16
  method : UInt16
  crc : UInt32
  csize : UInt32
  usize : UInt32
  name_len : UInt16
  extra_len : UInt16
  comment_len : UInt16
  ext_attrs : UInt32
  lfh_offset : UInt32
  is_dir_entry : Bool

/-- The record that starts at a position, read field by field. -/
def pk3_read_cdr_record (r : Bytes) : CdrRecord :=
  { flags := get16 (r.drop 8)
    method := get16 (r.drop 10)
    crc := get32 (r.drop 16)
    csize := get32 (r.drop 20)
    usize := get32 (r.drop 24)
    name_len := get16 (r.drop 28)
    extra_len := get16 (r.drop 30)
    comment_len := get16 (r.drop 32)
    ext_attrs := get32 (r.drop 38)
    lfh_offset := get32 (r.drop 42)
    is_dir_entry := false }

/-- The whole extent of a record. -/
def CdrRecord.size (r : CdrRecord) : ℕ :=
  PK3_CDR_SIZE + r.name_len.toNat + r.extra_len.toNat + r.comment_len.toNat

/-- A byte below `0x20`, or DEL. -/
def is_control_byte (b : UInt8) : Bool := b < 0x20 || b = 0x7F

/-- `pk3_validate_cdr_record` at position `pos` of the directory. -/
def pk3_validate_cdr_record (cdr : Bytes) (pos : ℕ) : Except Status CdrRecord :=
  let r := pk3_read_cdr_record (cdr.drop pos)
  let name := slice cdr (pos + PK3_CDR_SIZE) r.name_len.toNat
  if pos + PK3_CDR_SIZE > cdr.length then .error .format
  else if slice cdr pos 4 ≠ PK3_CDR_SIGNATURE then .error .format
  else if pos + r.size > cdr.length then .error .format
  else if r.flags &&& 0x1 ≠ 0 then .error .unsupported
  else if r.flags &&& 0x8 ≠ 0 then .error .unsupported
  else if r.csize = 0xFFFFFFFF ∨ r.usize = 0xFFFFFFFF ∨ r.lfh_offset = 0xFFFFFFFF then
    .error .unsupported
  else if r.method ≠ PK3_METHOD_STORED ∧ r.method ≠ PK3_METHOD_DEFLATE then
    .error .unsupported
  else if r.name_len = 0 then .error .format
  else if r.name_len.toNat ≥ PAKKA_ENTRY_NAME_SIZE then .error .limit
  else if (r.ext_attrs >>> 16) &&& PK3_UNIX_IFMT = PK3_UNIX_IFLNK then .error .unsafe_name
  else if name.getLast? = some 0x2F ∧ r.usize = 0 ∧ r.csize = 0 then
    .ok { r with is_dir_entry := true }
  else if name.any is_control_byte then .error .format
  else .ok r

/-- The entry a record describes, its local header not yet looked at. -/
def pk3_entry_of_record (r : CdrRecord) (filename : CStr) : Entry :=
  { filename := filename
    pk3_method := r.method
    crc32 := r.crc
    pk3_compressed_size := r.csize
    length := r.usize
    offset := r.lfh_offset
    pk3_lfh_offset := r.lfh_offset }

/-- What the walk over the directory carries: the list so far, its tail, the position,
and the directory markers skipped. -/
structure CdrWalk where
  entries : List Entry := []
  tail : Option ℕ := none
  pos : ℕ := 0
  skipped_dirs : ℕ := 0

/-- One round of the walk. -/
def pk3_load_cdr_step (cdr : Bytes) (w : CdrWalk) : Except Status CdrWalk := do
  let r ← pk3_validate_cdr_record cdr w.pos
  if r.is_dir_entry then
    pure { w with pos := w.pos + r.size, skipped_dirs := w.skipped_dirs + 1 }
  else
    match pk3_decode_entry_name (slice cdr (w.pos + PK3_CDR_SIZE) r.name_len.toNat) r.flags
        PAKKA_ENTRY_NAME_SIZE with
    | .toolong => .error .limit
    | .bit11_invalid => .error .format
    | .name bs =>
      let entry := pk3_entry_of_record r (CStr.ofField bs)
      pure { w with
        entries := link_at_tail w.entries w.tail entry
        tail := tail_after_link w.tail
        pos := w.pos + r.size }

/-- The walk, `n` records left. -/
def pk3_load_cdr_loop (cdr : Bytes) : ℕ → CdrWalk → Except Status CdrWalk
  | 0, w => .ok w
  | n + 1, w => do
    let w ← pk3_load_cdr_step cdr w
    pk3_load_cdr_loop cdr n w

/-- `pk3_validate_lfh`: the entry with its payload offset. -/
def pk3_validate_lfh (disk : Bytes) (pk3_cdr_offset : UInt32) (e : Entry) :
    Except Status Entry := do
  let lfh ← orError (readExact disk e.pk3_lfh_offset.toNat PK3_LFH_SIZE) .io
  let lfh_flags := get16 (lfh.drop 6)
  let lfh_method := get16 (lfh.drop 8)
  let lfh_crc := get32 (lfh.drop 14)
  let lfh_csize := get32 (lfh.drop 18)
  let lfh_usize := get32 (lfh.drop 22)
  let lfh_name_len := get16 (lfh.drop 26)
  let lfh_extra_len := get16 (lfh.drop 28)
  let payload64 := e.pk3_lfh_offset.toNat + PK3_LFH_SIZE + lfh_name_len.toNat +
    lfh_extra_len.toNat
  if slice lfh 0 4 ≠ PK3_LFH_SIGNATURE then .error .format
  else if lfh_flags &&& 0x1 ≠ 0 then .error .unsupported
  else if lfh_flags &&& 0x8 ≠ 0 then .error .unsupported
  else if lfh_method ≠ e.pk3_method ∨ lfh_crc ≠ e.crc32 ∨ lfh_csize ≠ e.pk3_compressed_size ∨
      lfh_usize ≠ e.length then .error .format
  else if e.pk3_method = PK3_METHOD_STORED ∧ e.pk3_compressed_size ≠ e.length then
    .error .format
  else if payload64 > 0xFFFFFFFF then .error .format
  else if (UInt32.ofNat payload64).toNat + e.pk3_compressed_size.toNat > pk3_cdr_offset.toNat then
    .error .format
  else pure { e with pk3_payload_offset := UInt32.ofNat payload64 }

/-- One round of the second pass: validate, then publish the payload offset. -/
def pk3_validate_entry (disk : Bytes) (pk3_cdr_offset : UInt32) (e : Entry) :
    Except Status Entry := do
  let e ← pk3_validate_lfh disk pk3_cdr_offset e
  pure { e with offset := e.pk3_payload_offset }

/-- The second pass over the list. -/
def pk3_validate_entries (disk : Bytes) (pk3_cdr_offset : UInt32) :
    List Entry → Except Status (List Entry)
  | [] => .ok []
  | e :: es => do
    let e ← pk3_validate_entry disk pk3_cdr_offset e
    let es ← pk3_validate_entries disk pk3_cdr_offset es
    pure (e :: es)

/-- `pk3_load_cdr`. -/
def pk3_load_cdr (disk : Bytes) (pak : Archive) (h : Eocd) : Except Status Archive :=
  if h.entry_count = 0 ∧ h.cdr_size = 0 then .ok pak
  else if decide (h.entry_count = 0) ≠ decide (h.cdr_size = 0) then .error .format
  else if h.cdr_size.toNat > PK3_MAX_CDR_SIZE then .error .limit
  else do
    let cdr ← orError (readExact disk h.cdr_offset.toNat h.cdr_size.toNat) .io
    let w ← pk3_load_cdr_loop cdr h.entry_count.toNat {}
    if w.pos ≠ cdr.length then .error .format
    else do
      let entries ← pk3_validate_entries disk pak.pk3_cdr_offset w.entries
      pure { pak with
        entries := entries
        tail := w.tail
        num_entries := UInt32.ofNat (h.entry_count.toNat - w.skipped_dirs) }

/-- `pakka_pk3_open_impl`. -/
def pakka_pk3_open_impl (disk : Bytes) (pak : Archive) : Except Status Archive := do
  let pak := { pak with max_decompressed := PK3_DEFAULT_MAX_DECOMPRESSED }
  let eocd_offset ← orError (pk3_find_eocd disk) .format
  let h ← pk3_validate_eocd disk eocd_offset
  pk3_load_cdr disk { pak with pk3_cdr_offset := h.cdr_offset } h

end Pakka
