/-
The two headers of a ZIP entry.

A ZIP file says everything about an entry twice, in the local header in front of the
payload and in the central directory. A tool that streams trusts the first, a tool
that seeks the second, so a file on which the two differ is a different archive to
each. `header_pairs` is the list of the two headers of each entry of a handle, read
from the file; what follows is which of their fields opening makes equal.

Opening compares the numbers and not the names. So the theorem is an equivalence: the two headers
agree in full exactly when the file names its entries alike in both places. An archive for which it
fails is given at the end.
-/
import Pakka.ZipLoadSpec

set_option autoImplicit false

namespace Pakka

open ByteImage LittleEndian

/-! ## Headers

The fields of either header, read from the file at the places the format gives them.
-/

/-- The fields a local header and a central directory record both carry. -/
structure HeaderFields where
  method : UInt16
  crc : UInt32
  csize : UInt32
  usize : UInt32
  name_len : UInt16
  name : Bytes
  deriving DecidableEq

/-- The local header at an offset of the file. -/
def local_header (disk : Bytes) (lfh_offset : ℕ) : HeaderFields :=
  let name_len := get16 (disk.drop (lfh_offset + 26))
  { method := get16 (disk.drop (lfh_offset + 8))
    crc := get32 (disk.drop (lfh_offset + 14))
    csize := get32 (disk.drop (lfh_offset + 18))
    usize := get32 (disk.drop (lfh_offset + 22))
    name_len := name_len
    name := slice disk (lfh_offset + PK3_LFH_SIZE) name_len.toNat }

/-- The header a listed record of the central directory gives. -/
def central_header (cdr : Bytes) (x : Listed) : HeaderFields :=
  { method := x.record.method
    crc := x.record.crc
    csize := x.record.csize
    usize := x.record.usize
    name_len := x.record.name_len
    name := slice cdr (x.pos + PK3_CDR_SIZE) x.record.name_len.toNat }

/-- The central directory the end record of a file points to, and its record count. -/
def central_directory (disk : Bytes) : Option (Bytes × ℕ) := do
  let eocd_offset ← pk3_find_eocd disk
  let h ← (pk3_validate_eocd disk eocd_offset).toOption
  let cdr ← readExact disk h.cdr_offset.toNat h.cdr_size.toNat
  pure (cdr, h.entry_count.toNat)

/-- The records of a directory that are no directory markers, `n` records from `pos` on. -/
def listed_records (cdr : Bytes) : ℕ → ℕ → List Listed
  | 0, _ => []
  | n + 1, pos =>
    match pk3_validate_cdr_record cdr pos with
    | .error _ => []
    | .ok r =>
      if r.is_dir_entry then listed_records cdr n (pos + r.size)
      else
        match pk3_decode_entry_name (slice cdr (pos + PK3_CDR_SIZE) r.name_len.toNat) r.flags
            PAKKA_ENTRY_NAME_SIZE with
        | .name bs => ⟨pos, r, CStr.ofField bs⟩ :: listed_records cdr n (pos + r.size)
        | _ => []

/-- The local and the central header of each entry of a handle, in the order of the list. -/
def header_pairs (disk : Bytes) (es : List Entry) : List (HeaderFields × HeaderFields) :=
  match central_directory disk with
  | none => []
  | some (cdr, n) =>
    List.zipWith (fun e x => (local_header disk e.pk3_lfh_offset.toNat, central_header cdr x))
      es (listed_records cdr n 0)

/-! ## The records of an opened archive

The entries of the handle are the records of the central directory, in their order, and each gives
the place of its local header.
-/

/-- The walk lists what `listed_records` lists. -/
theorem CdrWalks.listed_records_eq {cdr : Bytes} {n pos last skipped : ℕ} {l : List Listed}
    (h : CdrWalks cdr n pos l last skipped) : listed_records cdr n pos = l := by
  induction h with
  | done => rfl
  | dir hr hd _ ih => simp only [listed_records, hr, hd, if_true, ih]
  | entry hr hd hn _ ih =>
    simp only [listed_records, hr, hd, hn, ih]
    simp

/-- The directory that opening walked over is the one the end record points to. -/
theorem ZipDirectory.central_directory_eq {disk : Bytes} {h : Eocd} {cdr : Bytes}
    {l : List Listed} {es : List Entry} (hd : ZipDirectory disk h cdr l es) :
    central_directory disk = some (cdr, h.entry_count.toNat) := by
  obtain ⟨off, hoff, hh⟩ := hd.eocd
  simp only [central_directory, hoff, hh, Except.toOption, hd.read, Option.bind_eq_bind,
    Option.bind_some, Option.pure_def]

/-- The headers of an opened archive: one pair an entry, the entry being the one its record
describes. -/
theorem ZipDirectory.header_pairs_eq {disk : Bytes} {h : Eocd} {cdr : Bytes}
    {l : List Listed} {es : List Entry} (hd : ZipDirectory disk h cdr l es) :
    header_pairs disk es = List.zipWith (fun e x =>
      (local_header disk e.pk3_lfh_offset.toNat, central_header cdr x)) es l := by
  obtain ⟨skipped, hw⟩ := hd.walk
  simp only [header_pairs, hd.central_directory_eq, hw.listed_records_eq]

/-- A name the directory holds in full has the length its record gives. -/
theorem CdrWalks.name_length {cdr : Bytes} {n pos last skipped : ℕ} {l : List Listed}
    (h : CdrWalks cdr n pos l last skipped) :
    ∀ x ∈ l, (central_header cdr x).name.length = x.record.name_len.toNat := by
  intro x hx
  obtain ⟨hr, -, -⟩ := h.mem x hx
  simp only [pk3_validate_cdr_record, ite_error_eq_ok, not_lt] at hr
  obtain ⟨-, -, hsize, -, -, -, -, -, -, -, hr⟩ := hr
  have hrec : x.record.name_len = (pk3_read_cdr_record (cdr.drop x.pos)).name_len := by
    split at hr
    · rw [← Except.ok.inj hr]
    · rw [ite_error_eq_ok] at hr
      rw [← Except.ok.inj hr.2]
  refine length_slice_of_le ?_
  rw [hrec]
  simp only [CdrRecord.size] at hsize
  omega

/-- What the two headers of one entry have in common once the entry has passed. -/
theorem headers_of_checked {disk cdr : Bytes} {cdr_offset : UInt32} {x : Listed} {e : Entry}
    (h : pk3_validate_entry disk cdr_offset x.entry = .ok e)
    (hread : cdr_offset.toNat ≤ disk.length)
    (hname : (central_header cdr x).name.length = x.record.name_len.toNat) :
    let p := (local_header disk e.pk3_lfh_offset.toNat, central_header cdr x)
    p.1.method = p.2.method ∧ p.1.crc = p.2.crc ∧ p.1.csize = p.2.csize ∧
      p.1.usize = p.2.usize ∧ (p.1.name = p.2.name → p.1 = p.2) := by
  obtain ⟨payload64, hc, rfl⟩ := pk3_validate_entry_ok.mp h
  have hm : (local_header disk x.entry.pk3_lfh_offset.toNat).method = x.record.method := hc.method
  have hcrc : (local_header disk x.entry.pk3_lfh_offset.toNat).crc = x.record.crc := hc.crc
  have hcs : (local_header disk x.entry.pk3_lfh_offset.toNat).csize = x.record.csize := hc.csize
  have hus : (local_header disk x.entry.pk3_lfh_offset.toNat).usize = x.record.usize := hc.usize
  refine ⟨hm, hcrc, hcs, hus, ?_⟩
  intro heq
  -- the local name lies before the directory, so its length is the length field
  have hlen : (local_header disk x.entry.pk3_lfh_offset.toNat).name.length =
      (local_header disk x.entry.pk3_lfh_offset.toNat).name_len.toNat := by
    refine length_slice_of_le ?_
    have hb := hc.before_cdr
    rw [hc.payload] at hb
    change _ + (get16 (disk.drop (x.entry.pk3_lfh_offset.toNat + 26))).toNat ≤ disk.length
    omega
  have hnl : (local_header disk x.entry.pk3_lfh_offset.toNat).name_len = x.record.name_len := by
    apply UInt16.toNat_inj.mp
    rw [← hlen, ← hname]
    exact congrArg List.length heq
  change local_header disk x.entry.pk3_lfh_offset.toNat = central_header cdr x
  generalize local_header disk x.entry.pk3_lfh_offset.toNat = p at *
  obtain ⟨m, c, cs, us, nl, nm⟩ := p
  simp only at hm hcrc hcs hus hnl
  subst hm hcrc hcs hus hnl
  simp only at heq
  subst heq
  rfl

/-- What the two headers of every entry have in common. -/
theorem ZipDirectory.pair_agrees {disk : Bytes} {h : Eocd} {cdr : Bytes} {l : List Listed}
    {es : List Entry} (hd : ZipDirectory disk h cdr l es) :
    ∀ p ∈ header_pairs disk es,
      p.1.method = p.2.method ∧ p.1.crc = p.2.crc ∧ p.1.csize = p.2.csize ∧
        p.1.usize = p.2.usize ∧ (p.1.name = p.2.name → p.1 = p.2) := by
  obtain ⟨skipped, hw⟩ := hd.walk
  have hname := hw.name_length
  have hfit : h.cdr_offset.toNat ≤ disk.length := Nat.le_trans (Nat.le_add_right _ _) hd.cdr_in_file
  rw [hd.header_pairs_eq]
  have hes := hd.entries
  clear hd hw
  induction l generalizing es with
  | nil =>
    cases hes
    simp
  | cons x l ih =>
    rw [List.map_cons] at hes
    cases hes with
    | cons he hes =>
      rw [List.zipWith_cons_cons]
      intro p hp
      rcases List.mem_cons.mp hp with rfl | hp
      · exact headers_of_checked he hfit (hname x List.mem_cons_self)
      · exact ih (fun y hy => hname y (List.mem_cons_of_mem _ hy)) hes p hp

/-! ## Agreement

Method, checksum and both sizes agree in every file that opens. The name of the local header is not
compared: there is a file that opens although the two names differ.
-/

/-- **Where the two headers agree.** In an archive that opens, the local header of every
entry agrees with its central directory record on method, checksum and both sizes; it agrees
on every field for every entry exactly when the file names the entries alike in both
places, which opening does not look at. -/
theorem local_headers_agree_iff (path : CStr) (mode : OpenMode) (hint : Format) (disk : Bytes)
    (pak : Archive) (hopen : pakka_open_ex path mode hint (some disk) = .ok pak)
    (hzip : pakka_format_is_zip pak.format = true) :
    (header_pairs disk pak.entries).length = pak.entries.length ∧
      (∀ p ∈ header_pairs disk pak.entries,
        p.1.method = p.2.method ∧ p.1.crc = p.2.crc ∧ p.1.csize = p.2.csize ∧
          p.1.usize = p.2.usize) ∧
      ((∀ p ∈ header_pairs disk pak.entries, p.1 = p.2) ↔
        ∀ p ∈ header_pairs disk pak.entries, p.1.name = p.2.name) := by
  obtain ⟨h, cdr, l, es, hd, rfl⟩ := open_zip_directory hopen hzip
  change (header_pairs disk es).length = es.length ∧ (∀ p ∈ header_pairs disk es, _) ∧
    ((∀ p ∈ header_pairs disk es, _) ↔ ∀ p ∈ header_pairs disk es, _)
  have hag := hd.pair_agrees
  refine ⟨?_, fun p hp => ?_, fun hall p hp => ?_, fun hall p hp => ?_⟩
  · have hlen := hd.entries.length_eq
    rw [List.length_map] at hlen
    rw [hd.header_pairs_eq, List.length_zipWith, hlen, Nat.min_self]
  · obtain ⟨h1, h2, h3, h4, -⟩ := hag p hp
    exact ⟨h1, h2, h3, h4⟩
  · rw [hall p hp]
  · exact (hag p hp).2.2.2.2 (hall p hp)

/-- A ZIP file of one entry: `lname` in its local header, `cname` in its central directory. -/
def one_entry_zip (method : UInt16) (crc : UInt32) (lname cname payload : Bytes) : Bytes :=
  let size := UInt32.ofNat payload.length
  let fields := put16 0 ++ put16 method ++ put32 0 ++ put32 crc ++ put32 size ++ put32 size
  let lfh := PK3_LFH_SIGNATURE ++ put16 20 ++ fields ++ put16 (UInt16.ofNat lname.length) ++
    put16 0 ++ lname
  let cdr := PK3_CDR_SIGNATURE ++ put16 20 ++ put16 20 ++ fields ++
    put16 (UInt16.ofNat cname.length) ++ List.replicate 16 0 ++ cname
  lfh ++ payload ++ cdr ++
    (PK3_EOCD_SIGNATURE ++ put32 0 ++ put16 1 ++ put16 1 ++ put32 (UInt32.ofNat cdr.length) ++
      put32 (UInt32.ofNat (lfh.length + payload.length)) ++ put16 0)

/-- The payload is the byte `x`. -/
def tiny_zip (lname cname : Bytes) : Bytes := one_entry_zip 0 0x8CDC1683 lname cname [0x78]

/-- The handle `tiny_zip` opens as, for names of one byte. -/
def tiny_zip_pak (cname : Bytes) : Archive :=
  { open_initial .read .auto with
    format := .pk3
    signature := PK3_LFH_SIGNATURE
    num_entries := 1
    file_size := 101
    tail := some 0
    pk3_cdr_offset := 32
    entries := [
      { filename := CStr.ofField cname
        offset := 31
        length := 1
        pk3_compressed_size := 1
        pk3_payload_offset := 31
        crc32 := 0x8CDC1683 }] }

/-- The agreement at a file whose two names are the same. -/
theorem local_headers_agree_tiny_zip :
    let disk := tiny_zip (ascii "a") (ascii "a")
    let pak := tiny_zip_pak (ascii "a")
    (header_pairs disk pak.entries).length = pak.entries.length ∧
      (∀ p ∈ header_pairs disk pak.entries,
        p.1.method = p.2.method ∧ p.1.crc = p.2.crc ∧ p.1.csize = p.2.csize ∧
          p.1.usize = p.2.usize) ∧
      ((∀ p ∈ header_pairs disk pak.entries, p.1 = p.2) ↔
        ∀ p ∈ header_pairs disk pak.entries, p.1.name = p.2.name) :=
  local_headers_agree_iff CStr.empty .read .auto _ (tiny_zip_pak (ascii "a"))
    (by decide +kernel) (by decide)

/-- A file that opens although its local header and its directory name the one entry
differently. -/
theorem local_name_unchecked :
    pakka_open_ex CStr.empty .read .auto (some (tiny_zip (ascii "b") (ascii "a"))) =
        .ok (tiny_zip_pak (ascii "a")) ∧
      (header_pairs (tiny_zip (ascii "b") (ascii "a")) (tiny_zip_pak (ascii "a")).entries).map
        (fun p => (p.1.name, p.2.name)) = [(ascii "b", ascii "a")] ∧
      ¬ ∀ p ∈ header_pairs (tiny_zip (ascii "b") (ascii "a")) (tiny_zip_pak (ascii "a")).entries,
        p.1 = p.2 := by
  refine ⟨by decide +kernel, by decide +kernel, by decide +kernel⟩

end Pakka
