/-
The data model of the library: status codes, formats, the geometry table of the PAK-class formats, C
strings, the entry node and the archive handle.

A NUL-terminated buffer is a `CStr`, a byte list without a zero byte, so a string cannot hold what
the C type could not. The entry list is a list, with the cached `tail` pointer kept beside it as the
position of the node it points to, so that the code's use of a stale or wrong tail would show.
Counters and on-disk fields have the widths of the C structs, so that a counter that wraps does so
here too; `uint64_t` and `size_t` quantities, which are only ever sums of a few 32-bit values, are
natural numbers.

A handle has no file descriptor: `fp` says whether it is live, and the contents of the files a
handle works on are passed beside it. What a routine does to them is a log of operations, which
survives a failure (see the module on logged computations). The texts of the error structure are
left out, the status is kept.

Everything below is the source's own, under its own words, with the small lemmas that later proofs
use in place of the definitions.
-/
import Pakka.Lib.Logged
import Pakka.Lib.LittleEndian
import Mathlib.Data.List.TakeWhile

set_option autoImplicit false

namespace Pakka

open ByteImage LittleEndian

/-! ## Constants and enumerations

The constants are those of the headers. They are abbreviations, so that arithmetic sees through
them; the enumerations are types of their own.
-/

abbrev PAKFILE_SIGNATURE_LEN : ℕ := 4
abbrev PAKFILE_PATH_MAX : ℕ := 56
abbrev PAKFILE_HEADER_SIZE : ℕ := 12
abbrev PAKFILE_MAX_ENTRIES : ℕ := 1048576
abbrev PAKFILE_COPY_CHUNK : ℕ := 65536
abbrev PAKKA_ENTRY_NAME_SIZE : ℕ := 256
abbrev OS_PATH_MAX : ℕ := 4096
abbrev UINT32_MAX : ℕ := 4294967295
abbrev PK3_DEFAULT_MAX_DECOMPRESSED : ℕ := 64 * 1024 * 1024

/-- `pakka_status_t`. -/
inductive Status where
  | ok
  | io
  | format
  | unsupported
  | unsafe_name
  | duplicate
  | not_found
  | «exists»
  | nomem
  | limit
  | invalid_argument
  deriving DecidableEq, Repr

/-- `pakka_format_t`. -/
inductive Format where
  | auto
  | pak
  | pk3
  | pk4
  | sin
  | daikatana
  | iwad
  | pwad
  deriving DecidableEq, Repr

/-- `pakka_open_mode_t`. -/
inductive OpenMode where
  | read
  | read_write
  | read_write_atomic
  deriving DecidableEq, Repr

/-! ## Checks

A routine of the library is a sequence of checks and assignments that leaves at the first check that
fails. In the `Except` monad such a routine succeeds exactly when its parts do, and these lemmas
take one apart from the front.
-/

section

variable {α β : Type}

/-- A value, or the status that reports its absence. -/
def orError (o : Option α) (s : Status) : Except Status α :=
  match o with
  | some a => .ok a
  | none => .error s

@[simp] theorem orError_eq_ok {o : Option α} {s : Status} {a : α} :
    orError o s = .ok a ↔ o = some a := by
  cases o <;> simp [orError]

/-- Passing a check. -/
@[simp] theorem ite_error_eq_ok {c : Prop} [Decidable c] {s : Status} {x : Except Status α}
    {a : α} : (if c then .error s else x) = .ok a ↔ ¬ c ∧ x = .ok a := by
  split_ifs with h <;> simp [h]

/-- A sequence of checks passes when both parts do. -/
@[simp] theorem except_bind_eq_ok {x : Except Status α} {k : α → Except Status β} {b : β} :
    (x >>= k) = .ok b ↔ ∃ a, x = .ok a ∧ k a = .ok b := by
  cases x with
  | error e => simp [bind, Except.bind]
  | ok a => simp [bind, Except.bind]

@[simp] theorem except_pure_eq_ok {a b : α} : (pure a : Except Status α) = .ok b ↔ a = b := by
  simp [pure, Except.pure]

end

/-! ## Formats

Two predicates of the source on formats. ZIP-class formats go through code of their own; WAD formats
are PAK-class formats without names that must differ.
-/

def pakka_format_is_zip (f : Format) : Bool := f = .pk3 || f = .pk4

def pakka_format_is_wad (f : Format) : Bool := f = .iwad || f = .pwad

/-! ## Geometry

The five PAK-class formats differ by a row of a table: the magic, the width of the name field, the
width of a directory row, and whether a row has two words more for compression. All that is proved
of these formats is proved of the row.
-/

/-- `pakka_pak_geometry_t`. -/
structure Geometry where
  signature : Bytes
  name_field_len : ℕ
  dir_entry_size : ℕ
  has_compression : Bool
  deriving DecidableEq, Repr

/-- The bytes of an ASCII literal. -/
def ascii (s : String) : Bytes := s.toList.map fun c => UInt8.ofNat c.toNat

/-- The table row of a format, `none` for ZIP-class formats and `auto`. -/
def pakka_pak_geometry : Format → Option Geometry
  | .pak => some ⟨[0x50, 0x41, 0x43, 0x4B], 56, 64, false⟩
  | .sin => some ⟨[0x53, 0x50, 0x41, 0x4B], 120, 128, false⟩
  | .daikatana => some ⟨[0x50, 0x41, 0x43, 0x4B], 56, 72, true⟩
  | .iwad => some ⟨[0x49, 0x57, 0x41, 0x44], 8, 16, false⟩
  | .pwad => some ⟨[0x50, 0x57, 0x41, 0x44], 8, 16, false⟩
  | _ => none

/-- A PAK-class format: one with a geometry row. -/
def IsPakClass (f : Format) : Prop := (pakka_pak_geometry f).isSome = true

instance (f : Format) : Decidable (IsPakClass f) :=
  inferInstanceAs (Decidable ((pakka_pak_geometry f).isSome = true))

example : (pakka_pak_geometry .pak).map Geometry.signature = some (ascii "PACK") := by decide

/-- The signature field is four bytes in every row. -/
theorem geometry_signature_length {f : Format} {g : Geometry}
    (h : pakka_pak_geometry f = some g) : g.signature.length = PAKFILE_SIGNATURE_LEN := by
  cases f <;> simp only [pakka_pak_geometry, reduceCtorEq, Option.some.injEq] at h <;>
    subst h <;> rfl

/-- A directory row is the name field, two words, and two more where the format
stores compression. -/
theorem geometry_row_size {f : Format} {g : Geometry} (h : pakka_pak_geometry f = some g) :
    g.dir_entry_size = g.name_field_len + 8 + (if g.has_compression then 8 else 0) := by
  cases f <;> simp only [pakka_pak_geometry, reduceCtorEq, Option.some.injEq] at h <;>
    subst h <;> rfl

theorem geometry_bounds {f : Format} {g : Geometry} (h : pakka_pak_geometry f = some g) :
    8 ≤ g.name_field_len ∧ g.name_field_len ≤ 120 ∧ 16 ≤ g.dir_entry_size ∧
      g.dir_entry_size ≤ 128 := by
  cases f <;> simp only [pakka_pak_geometry, reduceCtorEq, Option.some.injEq] at h <;>
    subst h <;> decide

/-- Only Daikatana rows carry compression words. -/
theorem geometry_has_compression {f : Format} {g : Geometry}
    (h : pakka_pak_geometry f = some g) : g.has_compression = true ↔ f = .daikatana := by
  cases f <;> simp only [pakka_pak_geometry, reduceCtorEq, Option.some.injEq] at h <;>
    subst h <;> decide

/-- WAD rows carry none. -/
theorem wad_plain {f : Format} {g : Geometry} (h : pakka_pak_geometry f = some g)
    (hw : pakka_format_is_wad f = true) : g.has_compression = false := by
  cases f <;> simp only [pakka_pak_geometry, reduceCtorEq, Option.some.injEq] at h <;>
    subst h <;> first | rfl | simp [pakka_format_is_wad] at hw

theorem not_zip_of_geometry {f : Format} {g : Geometry} (h : pakka_pak_geometry f = some g) :
    pakka_format_is_zip f = false := by
  cases f <;> simp only [pakka_pak_geometry, reduceCtorEq] at h <;> rfl

/-! ## C strings

A string is what stands before the terminator. A field of a directory row is a buffer of fixed width
that is read up to its first zero byte, and padded with zeros when it is written.
-/

/-- A NUL-terminated string: the bytes before the terminator. -/
structure CStr where
  bytes : Bytes
  no_nul : (0 : UInt8) ∉ bytes
  deriving DecidableEq

namespace CStr

/-- `strlen`. -/
def strlen (s : CStr) : ℕ := s.bytes.length

/-- The empty string. -/
def empty : CStr := ⟨[], by simp⟩

/-- The string in a buffer that holds `b` followed by a zero byte. -/
def ofField (b : Bytes) : CStr :=
  ⟨b.takeWhile (· ≠ 0), by
    intro h
    have := List.mem_takeWhile_imp h
    simp at this⟩

@[ext] theorem ext {s t : CStr} (h : s.bytes = t.bytes) : s = t := by
  cases s
  cases t
  subst h
  rfl

theorem strlen_ofField_le (b : Bytes) : (ofField b).strlen ≤ b.length :=
  (List.takeWhile_sublist _).length_le

/-- A string padded with zeros reads back. -/
theorem ofField_padded (s : CStr) (n : ℕ) :
    ofField (s.bytes ++ List.replicate n 0) = s := by
  apply CStr.ext
  change (s.bytes ++ List.replicate n 0).takeWhile (· ≠ 0) = s.bytes
  rw [List.takeWhile_append_of_pos]
  · cases n with
    | zero => simp
    | succ n => simp [List.replicate_succ]
  · intro b hb
    simp only [ne_eq, decide_not, Bool.not_eq_eq_eq_not, Bool.not_true, decide_eq_false_iff_not]
    rintro rfl
    exact s.no_nul hb

end CStr

/-! ## Entries

An entry is on disk, with an offset and a size, or staged, with a source path or a buffer that waits
for the commit.
-/

/-- `struct pakka_entry`, less its `next` link. `pending_data` is `some []` for a
staged payload of no bytes, the one-byte sentinel of the code. -/
structure Entry where
  filename : CStr
  offset : UInt32 := 0
  length : UInt32 := 0
  pk3_compressed_size : UInt32 := 0
  pk3_payload_offset : UInt32 := 0
  pk3_lfh_offset : UInt32 := 0
  pk3_method : UInt16 := 0
  crc32 : UInt32 := 0
  dk_compressed_size : UInt32 := 0
  dk_is_compressed : Bool := false
  pending_source : Option CStr := none
  pending_data : Option Bytes := none
  deriving DecidableEq

/-- The bytes an entry occupies in the archive. -/
def pak_entry_on_disk_extent (e : Entry) : UInt32 :=
  if e.dk_is_compressed then e.dk_compressed_size else e.length

/-- Whether the payload still waits for a commit. -/
def Entry.staged (e : Entry) : Bool := e.pending_source.isSome || e.pending_data.isSome

/-- One past the last payload byte. -/
def Entry.payloadEnd (e : Entry) : ℕ := e.offset.toNat + (pak_entry_on_disk_extent e).toNat

/-- The payload bytes of an entry that is on disk. -/
def Entry.payload (disk : Bytes) (e : Entry) : Bytes :=
  slice disk e.offset.toNat (pak_entry_on_disk_extent e).toNat

/-! ## Archives

The handle and its list. New nodes are linked through the cached tail, which is right when it is the
last position; a lookup walks the list and takes the first node of the name.
-/

/-- `struct pakka_archive`, less the path buffers the model does not read. `fp` says whether the
file handle is live; `tail` is the position in `entries` of the node the cached tail
pointer points to. -/
structure Archive where
  format : Format := .auto
  signature : Bytes := []
  diroffset : UInt32 := 0
  dirlength : UInt32 := 0
  num_entries : UInt32 := 0
  file_size : ℕ := 0
  entries : List Entry := []
  tail : Option ℕ := none
  payload_end : ℕ := 0
  fp : Bool := false
  is_new : Bool := false
  writable : Bool := false
  dirty : Bool := false
  needs_rebuild : Bool := false
  atomic_commit : Bool := false
  format_hint : Format := .auto
  pk3_cdr_offset : UInt32 := 0
  pk3_compression : UInt16 := 0
  max_decompressed : ℕ := 0
  deriving DecidableEq

/-- Link a node after the one `tail` points to, or as the head when there is none. -/
def link_at_tail (es : List Entry) (tail : Option ℕ) (e : Entry) : List Entry :=
  match tail with
  | none => [e]
  | some t => es.take (t + 1) ++ [e]

/-- Where `tail` points after linking. -/
def tail_after_link (tail : Option ℕ) : Option ℕ :=
  match tail with
  | none => some 0
  | some t => some (t + 1)

/-- The tail a well-formed list has. -/
def lastIndex (es : List Entry) : Option ℕ :=
  if es.length = 0 then none else some (es.length - 1)

/-- With the right tail, linking appends. -/
theorem link_at_tail_last (es : List Entry) (e : Entry) :
    link_at_tail es (lastIndex es) e = es ++ [e] := by
  unfold lastIndex link_at_tail
  split_ifs with h
  · rw [List.length_eq_zero_iff.mp h]
    rfl
  · change es.take (es.length - 1 + 1) ++ [e] = es ++ [e]
    rw [List.take_of_length_le (by omega)]

/-- Linking keeps the tail right. -/
theorem tail_after_link_last (es : List Entry) (e : Entry) :
    tail_after_link (lastIndex es) = lastIndex (es ++ [e]) := by
  unfold lastIndex tail_after_link
  rw [List.length_append, List.length_singleton, if_neg (by omega : ¬ es.length + 1 = 0)]
  split_ifs with h
  · simp [h]
  · simp only [Option.some.injEq]
    omega

/-- First entry of a name. -/
def find_entry (es : List Entry) (name : CStr) : Option Entry :=
  es.find? fun e => e.filename = name

theorem find_entry_eq_none {es : List Entry} {name : CStr} :
    find_entry es name = none ↔ name ∉ es.map Entry.filename := by
  simp [find_entry, List.find?_eq_none]

/-! ## Files of a handle

The live archive, the scratch file of a rebuild and the path a created archive is published at are
different files, so that a write to one of them leaves the others alone by construction.
-/

/-- The files a handle works on: the archive itself (`tmp_pakpath` of a created
archive), the scratch of a rebuild, and where a created archive is published. -/
inductive FileId where
  | live
  | scratch
  | dest
  deriving DecidableEq, Repr

/-- A library routine that changes files: what it did to them and its result or status. -/
abbrev Op (α : Type) := Logged FileId Status α

/-- What a call on a handle leaves: its status, the handle, and what it did to the files. -/
structure Step where
  status : Status
  pak : Archive
  log : List (FileOp FileId)

end Pakka
