/-
What holds of every ZIP archive right after opening it.

The central directory is read as the end record announces it: `cdr_records` lists that many
records one behind the other, whatever they say. Opening means that each of them ends inside the
directory, that together they are the directory, and that the handle lists those that are no
directory markers, in their order.

The statement quantifies over all files, so it is also what can be said of an archive that another
tool has written, or that was made to mislead.
-/
import Pakka.ZipNames
import Pakka.HeaderAgreement

set_option autoImplicit false

namespace Pakka

open ByteImage LittleEndian

/-! ## One record

What its checks leave.
-/

/-- The raw name of the record at a position. -/
def cdr_name (cdr : Bytes) (pos : ℕ) (r : CdrRecord) : Bytes :=
  slice cdr (pos + PK3_CDR_SIZE) r.name_len.toNat

/-- A directory marker: a name that ends in a slash, and no bytes. -/
def is_dir_marker (cdr : Bytes) (pos : ℕ) (r : CdrRecord) : Bool :=
  (cdr_name cdr pos r).getLast? = some 0x2F && r.usize = 0 && r.csize = 0

/-- What the record check lets through. -/
structure CdrChecked (cdr : Bytes) (pos : ℕ) (r : CdrRecord) : Prop where
  fits : pos + r.size ≤ cdr.length
  signature : slice cdr pos 4 = PK3_CDR_SIGNATURE
  not_encrypted : r.flags &&& 0x1 = 0
  no_descriptor : r.flags &&& 0x8 = 0
  no_zip64 : r.csize ≠ 0xFFFFFFFF ∧ r.usize ≠ 0xFFFFFFFF ∧ r.lfh_offset ≠ 0xFFFFFFFF
  method : r.method = PK3_METHOD_STORED ∨ r.method = PK3_METHOD_DEFLATE
  name_nonempty : r.name_len ≠ 0
  name_fits : r.name_len.toNat < PAKKA_ENTRY_NAME_SIZE
  no_symlink : (r.ext_attrs >>> 16) &&& PK3_UNIX_IFMT ≠ PK3_UNIX_IFLNK
  no_control : is_dir_marker cdr pos r = false → (cdr_name cdr pos r).any is_control_byte = false

/-- **The record check, inverted.** -/
theorem pk3_validate_cdr_record_ok {cdr : Bytes} {pos : ℕ} {r : CdrRecord} :
    pk3_validate_cdr_record cdr pos = .ok r ↔
      CdrChecked cdr pos (pk3_read_cdr_record (cdr.drop pos)) ∧
        r = { pk3_read_cdr_record (cdr.drop pos) with
          is_dir_entry := is_dir_marker cdr pos (pk3_read_cdr_record (cdr.drop pos)) } := by
  have hdir : (pk3_read_cdr_record (cdr.drop pos)).is_dir_entry = false := rfl
  unfold pk3_validate_cdr_record
  generalize pk3_read_cdr_record (cdr.drop pos) = r₀ at hdir ⊢
  have hmark : (slice cdr (pos + PK3_CDR_SIZE) r₀.name_len.toNat).getLast? = some 0x2F ∧
      r₀.usize = 0 ∧ r₀.csize = 0 ↔ is_dir_marker cdr pos r₀ = true := by
    simp only [is_dir_marker, cdr_name, Bool.and_eq_true, and_assoc]
    exact and_congr (decide_eq_true_iff).symm
      (and_congr (decide_eq_true_iff).symm (decide_eq_true_iff).symm)
  have hsize : r₀.size = PK3_CDR_SIZE + r₀.name_len.toNat + r₀.extra_len.toNat +
      r₀.comment_len.toNat := rfl
  simp only [ite_error_eq_ok, not_lt, not_or, not_not, ne_eq, not_and, not_le, ge_iff_le]
  constructor
  · rintro ⟨h1, h2, h3, h4, h5, ⟨h6, h7, h8⟩, h9, h10, h11, h12, h⟩
    have hm : r₀.method = PK3_METHOD_STORED ∨ r₀.method = PK3_METHOD_DEFLATE := by
      by_cases h0 : r₀.method = PK3_METHOD_STORED
      · exact Or.inl h0
      · exact Or.inr (h9 h0)
    by_cases hc : is_dir_marker cdr pos r₀ = true
    · rw [if_pos (hmark.mpr hc)] at h
      refine ⟨⟨h3, h2, h4, h5, ⟨h6, h7, h8⟩, hm, h10, h11, h12, ?_⟩, ?_⟩
      · intro hx
        rw [hc] at hx
        cases hx
      · rw [hc]
        exact (Except.ok.inj h).symm
    · rw [if_neg (fun hx => hc (hmark.mp hx)), ite_error_eq_ok] at h
      refine ⟨⟨h3, h2, h4, h5, ⟨h6, h7, h8⟩, hm, h10, h11, h12, ?_⟩, ?_⟩
      · intro _
        simpa [cdr_name] using h.1
      · rw [Bool.not_eq_true] at hc
        rw [hc, ← hdir]
        exact (Except.ok.inj h.2).symm
  · rintro ⟨h, rfl⟩
    refine ⟨?_, h.signature, h.fits, h.not_encrypted, h.no_descriptor, h.no_zip64, ?_,
      h.name_nonempty, h.name_fits, h.no_symlink, ?_⟩
    · have := h.fits
      omega
    · intro h0
      exact h.method.resolve_left h0
    · by_cases hc : is_dir_marker cdr pos r₀ = true
      · rw [if_pos (hmark.mpr hc), hc]
      · have hplain := h.no_control (by simpa using hc)
        rw [cdr_name] at hplain
        rw [if_neg (fun hx => hc (hmark.mp hx)), ite_error_eq_ok]
        refine ⟨by rw [hplain]; simp, ?_⟩
        rw [Bool.not_eq_true] at hc
        rw [hc, ← hdir]

/-! ## All records

They follow each other and end where the directory ends.
-/

/-- `n` records from `pos` on, each behind the one before it, with their positions. -/
def cdr_records (cdr : Bytes) : ℕ → ℕ → List (ℕ × CdrRecord)
  | 0, _ => []
  | n + 1, pos =>
    let r := pk3_read_cdr_record (cdr.drop pos)
    (pos, r) :: cdr_records cdr n (pos + r.size)

/-- An entry has what a record says. -/
structure DescribedBy (cdr : Bytes) (p : ℕ × CdrRecord) (e : Entry) : Prop where
  name : pk3_decode_entry_name (cdr_name cdr p.1 p.2) p.2.flags PAKKA_ENTRY_NAME_SIZE =
    .name e.filename.bytes
  method : e.pk3_method = p.2.method
  crc : e.crc32 = p.2.crc
  csize : e.pk3_compressed_size = p.2.csize
  usize : e.length = p.2.usize
  lfh_offset : e.pk3_lfh_offset = p.2.lfh_offset

/-- A name without control bytes fills its buffer up to the terminator. -/
theorem ofField_of_no_control {bs : Bytes} (h : ∀ b ∈ bs, is_control_byte b = false) :
    (CStr.ofField bs).bytes = bs := by
  refine List.takeWhile_eq_self_iff.mpr ?_
  intro b hb
  have := h b hb
  simp only [is_control_byte, Bool.or_eq_false_iff, decide_eq_false_iff_not] at this
  simp only [ne_eq, decide_not, Bool.not_eq_eq_eq_not, Bool.not_true, decide_eq_false_iff_not]
  rintro rfl
  exact this.1 (by decide)

/-- What holds of the name of a listed entry, given the raw name it was decoded from. -/
structure DecodedName (raw bs : Bytes) : Prop where
  name : ZipName bs
  slash : bs.getLast? = some 0x2F → raw.getLast? = some 0x2F

/-- A record of the walk that is no marker: the name its entry has. -/
theorem CdrChecked.decoded {cdr : Bytes} {pos : ℕ} {r : CdrRecord} {bs : Bytes}
    (h : CdrChecked cdr pos r) (hplain : is_dir_marker cdr pos r = false)
    (hn : pk3_decode_entry_name (cdr_name cdr pos r) r.flags PAKKA_ENTRY_NAME_SIZE = .name bs) :
    DecodedName (cdr_name cdr pos r) bs ∧ (CStr.ofField bs).bytes = bs := by
  have hfits := h.fits
  have hsize : r.size = PK3_CDR_SIZE + r.name_len.toNat + r.extra_len.toNat +
      r.comment_len.toNat := rfl
  have hne : cdr_name cdr pos r ≠ [] := by
    intro hx
    have hl := congrArg List.length hx
    rw [cdr_name, length_slice_of_le (by omega)] at hl
    exact h.name_nonempty (UInt16.toNat_inj.mp hl)
  have hctl : ∀ b ∈ cdr_name cdr pos r, is_control_byte b = false := by
    intro b hb
    by_contra hc
    rw [Bool.not_eq_false] at hc
    have := List.any_eq_true.mpr ⟨b, hb, hc⟩
    rw [h.no_control hplain] at this
    cases this
  obtain ⟨hname, hslash⟩ := pk3_decode_entry_name_ok hn hne hctl
  exact ⟨⟨hname, hslash⟩, ofField_of_no_control hname.no_control⟩

/-- **The walk, seen from the records**: each ends in the directory, together they end where the
walk does, and those that are no markers are what it lists. -/
theorem CdrWalks.records {cdr : Bytes} {n pos last skipped : ℕ} {l : List Listed}
    (h : CdrWalks cdr n pos l last skipped) :
    (∀ p ∈ cdr_records cdr n pos, CdrChecked cdr p.1 p.2) ∧
      pos + ((cdr_records cdr n pos).map fun p => p.2.size).sum = last ∧
      List.Forall₂ (DescribedBy cdr)
        ((cdr_records cdr n pos).filter fun p => !is_dir_marker cdr p.1 p.2)
        (l.map Listed.entry) ∧
      ∀ x ∈ l, ∃ raw, DecodedName raw x.filename.bytes ∧
        (raw.getLast? = some 0x2F → ¬ (x.record.usize = 0 ∧ x.record.csize = 0)) := by
  induction h with
  | done pos => exact ⟨by simp [cdr_records], rfl, List.Forall₂.nil, by simp⟩
  | @dir n pos r l last skipped hr hd hw ih =>
    obtain ⟨hck, rfl⟩ := pk3_validate_cdr_record_ok.mp hr
    obtain ⟨h1, h2, h3, h4⟩ := ih
    have hmark : is_dir_marker cdr pos (pk3_read_cdr_record (cdr.drop pos)) = true := hd
    rw [cdr_records]
    refine ⟨?_, ?_, ?_, h4⟩
    · intro p hp
      rcases List.mem_cons.mp hp with rfl | hp
      · exact hck
      · exact h1 p hp
    · rw [List.map_cons, List.sum_cons, ← Nat.add_assoc]
      exact h2
    · rw [List.filter_cons_of_neg (by simp [hmark])]
      exact h3
  | @entry n pos r bs l last skipped hr hd hn hw ih =>
    obtain ⟨hck, rfl⟩ := pk3_validate_cdr_record_ok.mp hr
    obtain ⟨h1, h2, h3, h4⟩ := ih
    have hmark : is_dir_marker cdr pos (pk3_read_cdr_record (cdr.drop pos)) = false := hd
    obtain ⟨hdec, hbytes⟩ := hck.decoded hmark hn
    rw [cdr_records]
    refine ⟨?_, ?_, ?_, ?_⟩
    · intro p hp
      rcases List.mem_cons.mp hp with rfl | hp
      · exact hck
      · exact h1 p hp
    · rw [List.map_cons, List.sum_cons, ← Nat.add_assoc]
      exact h2
    · rw [List.filter_cons_of_pos (by simp [hmark]), List.map_cons]
      refine List.Forall₂.cons ⟨?_, rfl, rfl, rfl, rfl, rfl⟩ h3
      exact hn.trans (congrArg Decoded.name hbytes.symm)
    · intro x hx
      rcases List.mem_cons.mp hx with rfl | hx
      · refine ⟨_, hbytes.symm ▸ hdec, ?_⟩
        rintro hlast ⟨hu, hc⟩
        -- a slash at the end and no bytes would make it a marker
        have : is_dir_marker cdr pos (pk3_read_cdr_record (cdr.drop pos)) = true := by
          simp only [is_dir_marker, Bool.and_eq_true, decide_eq_true_eq]
          exact ⟨⟨hlast, hu⟩, hc⟩
        rw [hmark] at this
        cases this
      · exact h4 x hx

/-! ## Opened archives

The entries of the handle, with the records they came from.
-/

/-- An entry of an opened ZIP archive: its name, and its place before the central directory. -/
structure OpenedZipEntry (pk3_cdr_offset : UInt32) (e : Entry) : Prop where
  name : ZipName e.filename.bytes
  no_marker : ¬ (e.filename.bytes.getLast? = some 0x2F ∧ e.length = 0 ∧ e.pk3_compressed_size = 0)
  method : e.pk3_method = PK3_METHOD_STORED ∨ e.pk3_method = PK3_METHOD_DEFLATE
  stored : e.pk3_method = PK3_METHOD_STORED → e.pk3_compressed_size = e.length
  header : e.pk3_lfh_offset.toNat + PK3_LFH_SIZE ≤ e.pk3_payload_offset.toNat
  payload : e.pk3_payload_offset.toNat + e.pk3_compressed_size.toNat ≤ pk3_cdr_offset.toNat
  offset : e.offset = e.pk3_payload_offset
  not_staged : e.staged = false

/-- **Every entry of an opened ZIP archive.** -/
theorem ZipDirectory.opened_entry {disk : Bytes} {h : Eocd} {cdr : Bytes} {l : List Listed}
    {es : List Entry} (hd : ZipDirectory disk h cdr l es) :
    ∀ e ∈ es, OpenedZipEntry h.cdr_offset e := by
  obtain ⟨skipped, hw⟩ := hd.walk
  obtain ⟨-, -, -, hnames⟩ := hw.records
  intro e he
  have hloaded := hd.loaded e he
  obtain ⟨i, hi, rfl⟩ := List.mem_iff_getElem.mp he
  have hil : i < (l.map Listed.entry).length := by
    rw [hd.entries.length_eq]
    exact hi
  have hv := hd.entries.get hil hi
  obtain ⟨x, hx, heq⟩ := List.mem_map.mp (List.getElem_mem hil)
  simp only [List.get_eq_getElem, ← heq] at hv
  obtain ⟨payload64, hc, hval⟩ := pk3_validate_entry_ok.mp hv
  obtain ⟨raw, hdec, hmark⟩ := hnames x hx
  have hoff : (UInt32.ofNat payload64).toNat = payload64 := by
    have := UInt32.toNat_lt h.cdr_offset
    have := hc.before_cdr
    rw [UInt32.toNat_ofNat', Nat.mod_eq_of_lt (by omega)]
  refine ⟨?_, ?_, hloaded.method, hloaded.stored, ?_, ?_, ?_, hloaded.not_staged⟩
  · rw [hval]
    exact hdec.name
  · rw [hval]
    rintro ⟨hlast, hu, hcs⟩
    exact hmark (hdec.slash hlast) ⟨hu, hcs⟩
  · rw [hval]
    change _ ≤ (UInt32.ofNat payload64).toNat
    have hp := hc.payload
    change x.entry.pk3_lfh_offset.toNat + _ ≤ _
    omega
  · rw [hval]
    change (UInt32.ofNat payload64).toNat + x.entry.pk3_compressed_size.toNat ≤ _
    rw [hoff]
    exact hc.before_cdr
  · rw [hval]

/-- The count of a handle holds as many entries as a directory announces. -/
theorem ZipDirectory.count {disk : Bytes} {h : Eocd} {cdr : Bytes} {l : List Listed}
    {es : List Entry} (hd : ZipDirectory disk h cdr l es) :
    (UInt32.ofNat es.length).toNat = es.length := by
  obtain ⟨skipped, hw⟩ := hd.walk
  have h1 := hd.entries.length_eq
  have h2 := hw.count
  have h3 := UInt16.toNat_lt h.entry_count
  rw [List.length_map] at h1
  rw [UInt32.toNat_ofNat', Nat.mod_eq_of_lt (by omega)]

/-- The second pass leaves alone what a record says. -/
theorem described_validated {disk cdr : Bytes} {pk3_cdr_offset : UInt32}
    {ps : List (ℕ × CdrRecord)} {es es' : List Entry}
    (h : List.Forall₂ (DescribedBy cdr) ps es)
    (hv : List.Forall₂ (fun e e' => pk3_validate_entry disk pk3_cdr_offset e = .ok e') es es') :
    List.Forall₂ (DescribedBy cdr) ps es' := by
  induction h generalizing es' with
  | nil =>
    cases hv
    exact List.Forall₂.nil
  | cons hp _ ih =>
    cases hv with
    | cons he hes =>
      obtain ⟨payload64, -, rfl⟩ := pk3_validate_entry_ok.mp he
      exact List.Forall₂.cons ⟨hp.name, hp.method, hp.crc, hp.csize, hp.usize, hp.lfh_offset⟩
        (ih hes)

/-- What holds of a ZIP archive right after opening `disk`. -/
structure LoadedZip (disk : Bytes) (pak : Archive) (eocd_offset : ℕ) (h : Eocd) : Prop where
  eocd : pk3_find_eocd disk = some eocd_offset ∧ pk3_validate_eocd disk eocd_offset = .ok h
  cdr_offset : pak.pk3_cdr_offset = h.cdr_offset
  cdr_before_eocd : h.cdr_offset.toNat + h.cdr_size.toNat ≤ eocd_offset
  eocd_in_file : eocd_offset ≤ disk.length
  records_inside : ∀ p ∈ cdr_records (slice disk h.cdr_offset.toNat h.cdr_size.toNat)
    h.entry_count.toNat 0, p.1 + p.2.size ≤ h.cdr_size.toNat
  records_fill : ((cdr_records (slice disk h.cdr_offset.toNat h.cdr_size.toNat)
    h.entry_count.toNat 0).map fun p => p.2.size).sum = h.cdr_size.toNat
  listed : List.Forall₂ (DescribedBy (slice disk h.cdr_offset.toNat h.cdr_size.toNat))
    ((cdr_records (slice disk h.cdr_offset.toNat h.cdr_size.toNat) h.entry_count.toNat 0).filter
      fun p => !is_dir_marker (slice disk h.cdr_offset.toNat h.cdr_size.toNat) p.1 p.2)
    pak.entries
  count : pak.num_entries.toNat = pak.entries.length
  tail : pak.tail = lastIndex pak.entries
  entries : ∀ e ∈ pak.entries, OpenedZipEntry pak.pk3_cdr_offset e
  nodup : (pak.entries.map Entry.filename).Nodup

/-- **The ZIP loader's invariant.** For every byte file, hint and mode: if it opens as a ZIP
archive, then its end record announces a directory before itself, the announced number of
records ends inside the directory each and fills it together, and the handle lists the ones that
are no directory markers, in record order and under `tail` and count, every entry well named,
with one of the two methods and its header and payload before the directory, no two under one
name. -/
theorem zip_loader_invariant (path : CStr) (mode : OpenMode) (hint : Format) (disk : Bytes)
    (pak : Archive) (hopen : pakka_open_ex path mode hint (some disk) = .ok pak)
    (hzip : pakka_format_is_zip pak.format = true) :
    ∃ eocd_offset h, LoadedZip disk pak eocd_offset h := by
  obtain ⟨h, cdr, l, es, hd, rfl⟩ := open_zip_directory hopen hzip
  obtain ⟨off, hoff, hh⟩ := hd.eocd
  obtain ⟨skipped, hw⟩ := hd.walk
  obtain ⟨hck, hsum, hlist, -⟩ := hw.records
  obtain ⟨rfl, hlen⟩ := readExact_eq_some.mp hd.read
  have hbounds : h.cdr_offset.toNat + h.cdr_size.toNat ≤ off ∧ off ≤ disk.length := by
    simp only [pk3_validate_eocd, except_bind_eq_ok, orError_eq_ok, ite_error_eq_ok, not_lt,
      except_pure_eq_ok] at hh
    obtain ⟨eocd, heocd, -, -, -, hle, -, rfl⟩ := hh
    have := le_of_readExact (by decide) heocd
    exact ⟨hle, by omega⟩
  rw [Nat.zero_add, hlen] at hsum
  refine ⟨off, h, ⟨hoff, hh⟩, rfl, hbounds.1, hbounds.2, ?_, hsum, ?_, hd.count, rfl,
    hd.opened_entry, hd.nodup⟩
  · intro p hp
    rw [← hlen]
    exact (hck p hp).fits
  · exact described_validated hlist hd.entries

/-- The invariant at a file of one entry. -/
theorem zip_loader_invariant_tiny_zip :
    ∃ eocd_offset h, LoadedZip (tiny_zip (ascii "a") (ascii "a")) (tiny_zip_pak (ascii "a"))
      eocd_offset h :=
  zip_loader_invariant CStr.empty .read .auto _ (tiny_zip_pak (ascii "a")) (by decide +kernel)
    (by decide)

end Pakka
