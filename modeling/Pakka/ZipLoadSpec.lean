/-
What opening a ZIP archive accepts and what it delivers.

`CdrWalks` is the walk over the central directory as a relation: which records are
listed, at which positions and under which names, and which are skipped as directory
markers. `open_zip_iff` is the inversion lemma of the loader, in both directions:
what an opened archive satisfies, and what a writer has to produce for its file to open.

The loop of the loader carries a list, a tail, a position and a count of what it skipped. The
relation has a constructor for each kind of record instead, so that an induction over it has two
cases.
-/
import Pakka.PakLoadSpec

set_option autoImplicit false

namespace Pakka

open ByteImage LittleEndian

/-! ## The walk over the central directory

As a relation between positions, so that it can be read in both directions.
-/

/-- A listed record: its position in the directory, its fields, and the entry name decoded
from it. -/
structure Listed where
  pos : ℕ
  record : CdrRecord
  filename : CStr

/-- The entry a listed record becomes. -/
def Listed.entry (x : Listed) : Entry := pk3_entry_of_record x.record x.filename

/-- `CdrWalks cdr n pos l last skipped`: the `n` records from `pos` on end at `last`, list `l`
and skip `skipped` directory markers. -/
inductive CdrWalks (cdr : Bytes) : ℕ → ℕ → List Listed → ℕ → ℕ → Prop where
  | done (pos : ℕ) : CdrWalks cdr 0 pos [] pos 0
  | dir {n pos : ℕ} {r : CdrRecord} {l : List Listed} {last skipped : ℕ}
      (hr : pk3_validate_cdr_record cdr pos = .ok r) (hd : r.is_dir_entry = true)
      (hw : CdrWalks cdr n (pos + r.size) l last skipped) :
      CdrWalks cdr (n + 1) pos l last (skipped + 1)
  | entry {n pos : ℕ} {r : CdrRecord} {bs : Bytes} {l : List Listed} {last skipped : ℕ}
      (hr : pk3_validate_cdr_record cdr pos = .ok r) (hd : r.is_dir_entry = false)
      (hn : pk3_decode_entry_name (slice cdr (pos + PK3_CDR_SIZE) r.name_len.toNat) r.flags
        PAKKA_ENTRY_NAME_SIZE = .name bs)
      (hw : CdrWalks cdr n (pos + r.size) l last skipped) :
      CdrWalks cdr (n + 1) pos (⟨pos, r, CStr.ofField bs⟩ :: l) last skipped

/-- Every record is listed or skipped. -/
theorem CdrWalks.count {cdr : Bytes} {n pos last skipped : ℕ} {l : List Listed}
    (h : CdrWalks cdr n pos l last skipped) : l.length + skipped = n := by
  induction h with
  | done => rfl
  | dir _ _ _ ih => omega
  | entry _ _ _ _ ih =>
    rw [List.length_cons]
    omega

/-- A listed record passed the record check at its position and is no directory marker. -/
theorem CdrWalks.mem {cdr : Bytes} {n pos last skipped : ℕ} {l : List Listed}
    (h : CdrWalks cdr n pos l last skipped) :
    ∀ x ∈ l, pk3_validate_cdr_record cdr x.pos = .ok x.record ∧ x.record.is_dir_entry = false ∧
      ∃ bs, x.filename = CStr.ofField bs ∧
        pk3_decode_entry_name (slice cdr (x.pos + PK3_CDR_SIZE) x.record.name_len.toNat)
          x.record.flags PAKKA_ENTRY_NAME_SIZE = .name bs := by
  induction h with
  | done => simp
  | dir _ _ _ ih => exact ih
  | entry hr hd hn _ ih =>
    intro x hx
    rcases List.mem_cons.mp hx with rfl | hx
    · exact ⟨hr, hd, _, rfl, hn⟩
    · exact ih x hx

/-- **The walk, inverted.** -/
theorem pk3_load_cdr_loop_ok {cdr : Bytes} (n : ℕ) (w w' : CdrWalk)
    (htail : w.tail = lastIndex w.entries) :
    pk3_load_cdr_loop cdr n w = .ok w' ↔
      ∃ l skipped, CdrWalks cdr n w.pos l w'.pos skipped ∧
        w' = { entries := w.entries ++ l.map Listed.entry
               tail := lastIndex (w.entries ++ l.map Listed.entry)
               pos := w'.pos
               skipped_dirs := w.skipped_dirs + skipped } := by
  induction n generalizing w with
  | zero =>
    simp only [pk3_load_cdr_loop, Except.ok.injEq]
    constructor
    · rintro rfl
      refine ⟨[], 0, CdrWalks.done _, ?_⟩
      simp only [List.map_nil, List.append_nil, Nat.add_zero, ← htail]
    · rintro ⟨l, skipped, hw, heq⟩
      generalize hp : w'.pos = p at hw heq
      cases hw
      rw [heq]
      simp only [List.map_nil, List.append_nil, Nat.add_zero, ← htail]
  | succ n ih =>
    simp only [pk3_load_cdr_loop, except_bind_eq_ok]
    constructor
    -- a step reads a record; it is listed or skipped, and the rest is the walk from behind it
    · rintro ⟨w1, hstep, hloop⟩
      simp only [pk3_load_cdr_step, except_bind_eq_ok] at hstep
      obtain ⟨r, hr, hstep⟩ := hstep
      by_cases hd : r.is_dir_entry = true
      · rw [if_pos hd] at hstep
        obtain rfl := except_pure_eq_ok.mp hstep
        obtain ⟨l, skipped, hw, heq⟩ := (ih _ (by exact htail)).mp hloop
        refine ⟨l, skipped + 1, CdrWalks.dir hr hd hw, ?_⟩
        rw [heq]
        simp only [Nat.add_assoc, Nat.add_comm 1]
      · rw [if_neg hd] at hstep
        split at hstep
        · cases hstep
        · cases hstep
        · rename_i bs hn
          obtain rfl := except_pure_eq_ok.mp hstep
          obtain ⟨l, skipped, hw, heq⟩ := (ih _ (by
            simp only [htail, link_at_tail_last]
            exact tail_after_link_last _ _)).mp hloop
          refine ⟨⟨w.pos, r, CStr.ofField bs⟩ :: l, skipped,
            CdrWalks.entry hr (by simpa using hd) hn hw, ?_⟩
          rw [heq]
          simp only [htail, link_at_tail_last, List.append_assoc, List.singleton_append,
            List.map_cons, Listed.entry]
    · rintro ⟨l, skipped, hw, heq⟩
      generalize hp : w'.pos = p at hw heq
      cases hw with
      | dir hr hd hw =>
        rename_i r skipped
        refine ⟨{ w with pos := w.pos + r.size, skipped_dirs := w.skipped_dirs + 1 }, ?_, ?_⟩
        · simp only [pk3_load_cdr_step, except_bind_eq_ok]
          exact ⟨r, hr, by rw [if_pos hd]; rfl⟩
        · refine (ih _ (by exact htail)).mpr ⟨l, skipped, by rw [hp]; exact hw, ?_⟩
          rw [heq]
          simp only [Nat.add_assoc, Nat.add_comm 1]
      | entry hr hd hn hw =>
        rename_i r bs l
        refine ⟨{ w with
          entries := link_at_tail w.entries w.tail (pk3_entry_of_record r (CStr.ofField bs))
          tail := tail_after_link w.tail
          pos := w.pos + r.size }, ?_, ?_⟩
        · simp only [pk3_load_cdr_step, except_bind_eq_ok]
          refine ⟨r, hr, ?_⟩
          rw [if_neg (by simp [hd]), hn]
          rfl
        · refine (ih _ (by
            simp only [htail, link_at_tail_last]
            exact tail_after_link_last _ _)).mpr ⟨l, skipped, by rw [hp]; exact hw, ?_⟩
          rw [heq]
          simp only [htail, link_at_tail_last, List.append_assoc, List.singleton_append,
            List.map_cons, Listed.entry]

/-! ## Local headers

What the second pass compares.
-/

/-- What the cross-check of a local header lets through, field by field. -/
structure LfhChecked (disk : Bytes) (pk3_cdr_offset : UInt32) (e : Entry)
    (payload64 : ℕ) : Prop where
  fits : e.pk3_lfh_offset.toNat + PK3_LFH_SIZE ≤ disk.length
  signature : slice disk e.pk3_lfh_offset.toNat 4 = PK3_LFH_SIGNATURE
  not_encrypted : get16 (disk.drop (e.pk3_lfh_offset.toNat + 6)) &&& 0x1 = 0
  no_descriptor : get16 (disk.drop (e.pk3_lfh_offset.toNat + 6)) &&& 0x8 = 0
  method : get16 (disk.drop (e.pk3_lfh_offset.toNat + 8)) = e.pk3_method
  crc : get32 (disk.drop (e.pk3_lfh_offset.toNat + 14)) = e.crc32
  csize : get32 (disk.drop (e.pk3_lfh_offset.toNat + 18)) = e.pk3_compressed_size
  usize : get32 (disk.drop (e.pk3_lfh_offset.toNat + 22)) = e.length
  stored : e.pk3_method = PK3_METHOD_STORED → e.pk3_compressed_size = e.length
  payload : payload64 = e.pk3_lfh_offset.toNat + PK3_LFH_SIZE +
    (get16 (disk.drop (e.pk3_lfh_offset.toNat + 26))).toNat +
    (get16 (disk.drop (e.pk3_lfh_offset.toNat + 28))).toNat
  before_cdr : payload64 + e.pk3_compressed_size.toNat ≤ pk3_cdr_offset.toNat

/-- **The cross-check, inverted.** -/
theorem pk3_validate_entry_ok {disk : Bytes} {pk3_cdr_offset : UInt32} {e e' : Entry} :
    pk3_validate_entry disk pk3_cdr_offset e = .ok e' ↔
      ∃ payload64, LfhChecked disk pk3_cdr_offset e payload64 ∧
        e' = { e with
          pk3_payload_offset := UInt32.ofNat payload64
          offset := UInt32.ofNat payload64 } := by
  -- the fields of the header that was read are those of the file at its place
  have hslice : ∀ i, i + 2 ≤ PK3_LFH_SIZE →
      get16 ((slice disk e.pk3_lfh_offset.toNat PK3_LFH_SIZE).drop i) =
        get16 (disk.drop (e.pk3_lfh_offset.toNat + i)) := fun i hi => get16_drop_slice hi
  have hslice' : ∀ i, i + 4 ≤ PK3_LFH_SIZE →
      get32 ((slice disk e.pk3_lfh_offset.toNat PK3_LFH_SIZE).drop i) =
        get32 (disk.drop (e.pk3_lfh_offset.toNat + i)) := fun i hi => get32_drop_slice hi
  have hsig : slice (slice disk e.pk3_lfh_offset.toNat PK3_LFH_SIZE) 0 4 =
      slice disk e.pk3_lfh_offset.toNat 4 := by
    rw [slice_slice (by decide), Nat.add_zero]
  have hoff : ∀ n : ℕ, n ≤ 0xFFFFFFFF → (UInt32.ofNat n).toNat = n := by
    intro n hn
    rw [UInt32.toNat_ofNat', Nat.mod_eq_of_lt (by omega)]
  simp only [pk3_validate_entry, pk3_validate_lfh, except_bind_eq_ok, orError_eq_ok,
    ite_error_eq_ok, except_pure_eq_ok]
  constructor
  · rintro ⟨e1, ⟨lfh, hlfh, h1, h2, h3, h4, h5, h6, h7, rfl⟩, rfl⟩
    have hfits := le_of_readExact (by decide) hlfh
    obtain ⟨rfl, -⟩ := readExact_eq_some.mp hlfh
    rw [hsig, not_not] at h1
    rw [hslice 6 (by decide), not_not] at h2 h3
    rw [hslice 8 (by decide), hslice' 14 (by decide), hslice' 18 (by decide),
      hslice' 22 (by decide)] at h4
    rw [hslice 26 (by decide), hslice 28 (by decide)] at h6 h7
    rw [hoff _ (by omega)] at h7
    simp only [ne_eq, not_or, not_not] at h4
    simp only [ne_eq, not_and, not_not] at h5
    refine ⟨_, ⟨hfits, h1, h2, h3, h4.1, h4.2.1, h4.2.2.1, h4.2.2.2, h5, rfl, by omega⟩, ?_⟩
    rw [hslice 26 (by decide), hslice 28 (by decide)]
  · rintro ⟨payload64, h, rfl⟩
    have hb := h.before_cdr
    have hcdr := UInt32.toNat_lt pk3_cdr_offset
    have hp := h.payload
    refine ⟨_, ⟨_, readExact_of_le h.fits, ?_, ?_, ?_, ?_, ?_, ?_, ?_, rfl⟩, ?_⟩
    · rw [hsig, not_not]
      exact h.signature
    · rw [hslice 6 (by decide), not_not]
      exact h.not_encrypted
    · rw [hslice 6 (by decide), not_not]
      exact h.no_descriptor
    · rw [hslice 8 (by decide), hslice' 14 (by decide), hslice' 18 (by decide),
        hslice' 22 (by decide)]
      simp only [ne_eq, not_or, not_not]
      exact ⟨h.method, h.crc, h.csize, h.usize⟩
    · simp only [ne_eq, not_and, not_not]
      exact h.stored
    · rw [hslice 26 (by decide), hslice 28 (by decide), ← hp]
      omega
    · rw [hslice 26 (by decide), hslice 28 (by decide), ← hp, hoff _ (by omega)]
      omega
    · rw [hslice 26 (by decide), hslice 28 (by decide), ← hp]

/-- The second pass, inverted. -/
theorem pk3_validate_entries_ok {disk : Bytes} {pk3_cdr_offset : UInt32} {es es' : List Entry} :
    pk3_validate_entries disk pk3_cdr_offset es = .ok es' ↔
      List.Forall₂ (fun e e' => pk3_validate_entry disk pk3_cdr_offset e = .ok e') es es' := by
  induction es generalizing es' with
  | nil =>
    simp only [pk3_validate_entries, Except.ok.injEq]
    constructor
    · rintro rfl
      exact List.Forall₂.nil
    · intro h
      cases h
      rfl
  | cons e es ih =>
    simp only [pk3_validate_entries, except_bind_eq_ok, except_pure_eq_ok]
    constructor
    · rintro ⟨e', he, es1, hes, rfl⟩
      exact List.Forall₂.cons he (ih.mp hes)
    · intro h
      cases h with
      | cons he hes => exact ⟨_, he, _, ih.mpr hes, rfl⟩

/-! ## Opening

The equivalence, and what is read off it for opened archives.
-/

/-- What makes a file open as a ZIP archive: an end record, a central directory that the walk
consumes exactly, and local headers that pass the cross-check. -/
structure ZipDirectory (disk : Bytes) (h : Eocd) (cdr : Bytes) (l : List Listed)
    (es : List Entry) : Prop where
  magic : is_zip_magic (slice disk 0 4) = true
  eocd : ∃ off, pk3_find_eocd disk = some off ∧ pk3_validate_eocd disk off = .ok h
  count_iff : h.entry_count = 0 ↔ h.cdr_size = 0
  size_le : h.cdr_size.toNat ≤ PK3_MAX_CDR_SIZE
  read : readExact disk h.cdr_offset.toNat h.cdr_size.toNat = some cdr
  walk : ∃ skipped, CdrWalks cdr h.entry_count.toNat 0 l cdr.length skipped
  entries : List.Forall₂ (fun e e' => pk3_validate_entry disk h.cdr_offset e = .ok e')
    (l.map Listed.entry) es
  nodup : (es.map Entry.filename).Nodup

/-- The handle that opening a ZIP archive delivers. -/
def opened_zip (mode : OpenMode) (format_hint format : Format) (disk : Bytes) (h : Eocd)
    (es : List Entry) : Archive :=
  { open_initial mode format_hint with
    format := format
    signature := slice disk 0 4
    num_entries := UInt32.ofNat es.length
    file_size := disk.length
    entries := es
    tail := lastIndex es
    pk3_cdr_offset := h.cdr_offset }

/-- `pk3_load_cdr` on an empty handle, inverted. -/
theorem pk3_load_cdr_ok {disk : Bytes} {pak pak' : Archive} {h : Eocd} (hes : pak.entries = [])
    (htail : pak.tail = none) (hnum : pak.num_entries = 0) :
    pk3_load_cdr disk pak h = .ok pak' ↔
      (h.entry_count = 0 ↔ h.cdr_size = 0) ∧ h.cdr_size.toNat ≤ PK3_MAX_CDR_SIZE ∧
      ∃ cdr l es, readExact disk h.cdr_offset.toNat h.cdr_size.toNat = some cdr ∧
        (∃ skipped, CdrWalks cdr h.entry_count.toNat 0 l cdr.length skipped) ∧
        List.Forall₂ (fun e e' => pk3_validate_entry disk pak.pk3_cdr_offset e = .ok e')
          (l.map Listed.entry) es ∧
        pak' = { pak with
          entries := es
          tail := lastIndex es
          num_entries := UInt32.ofNat es.length } := by
  unfold pk3_load_cdr
  by_cases h0 : h.entry_count = 0 ∧ h.cdr_size = 0
  · -- an empty directory: nothing is read, and the walk over no records says the same
    rw [if_pos h0]
    have hz1 : h.entry_count.toNat = 0 := by rw [h0.1]; rfl
    have hz2 : h.cdr_size.toNat = 0 := by rw [h0.2]; rfl
    rw [hz1, hz2]
    constructor
    · intro heq
      obtain rfl := Except.ok.inj heq
      refine ⟨by simp [h0.1, h0.2], by simp, [], [], [], rfl, ⟨0, CdrWalks.done 0⟩,
        List.Forall₂.nil, ?_⟩
      have hn : pak.num_entries = UInt32.ofNat ([] : List Entry).length := hnum
      have ht : pak.tail = lastIndex [] := htail
      rw [← hn, ← ht, ← hes]
    · rintro ⟨-, -, cdr, l, es, -, ⟨skipped, hw⟩, hes', rfl⟩
      generalize cdr.length = last at hw
      cases hw
      cases hes'
      have hn : pak.num_entries = UInt32.ofNat ([] : List Entry).length := hnum
      have ht : pak.tail = lastIndex [] := htail
      rw [← hn, ← ht, ← hes]
  rw [if_neg h0]
  simp only [ite_error_eq_ok, ne_eq, not_not, decide_eq_decide, not_lt, except_bind_eq_ok,
    orError_eq_ok, except_pure_eq_ok]
  refine and_congr_right fun _ => and_congr_right fun _ => ?_
  -- the count the loader computes is the number of entries listed
  have hcount : ∀ {cdr : Bytes} {l : List Listed} {es : List Entry} {skipped last : ℕ},
      CdrWalks cdr h.entry_count.toNat 0 l last skipped →
      List.Forall₂ (fun e e' => pk3_validate_entry disk pak.pk3_cdr_offset e = .ok e')
        (l.map Listed.entry) es →
      h.entry_count.toNat - skipped = es.length ∧
        lastIndex (l.map Listed.entry) = lastIndex es := by
    intro cdr l es skipped last hw hes'
    have hl := hes'.length_eq
    have hc := hw.count
    rw [List.length_map] at hl
    refine ⟨by omega, ?_⟩
    simp only [lastIndex, List.length_map, hl]
  constructor
  · rintro ⟨cdr, hcdr, w, hw, hpos, es, hes', rfl⟩
    obtain ⟨l, skipped, hw', heq⟩ := (pk3_load_cdr_loop_ok _ _ _ (by rfl)).mp hw
    have hents : w.entries = l.map Listed.entry := by rw [heq]; rfl
    have htl : w.tail = lastIndex (l.map Listed.entry) := by rw [heq]; rfl
    have hsk : w.skipped_dirs = skipped := by
      rw [heq]
      exact Nat.zero_add _
    rw [hents] at hes'
    rw [hpos] at hw'
    have hes'' := pk3_validate_entries_ok.mp hes'
    obtain ⟨hc1, hc2⟩ := hcount hw' hes''
    refine ⟨cdr, l, es, hcdr, ⟨skipped, hw'⟩, hes'', ?_⟩
    rw [htl, hsk, hc1, hc2]
  · rintro ⟨cdr, l, es, hcdr, ⟨skipped, hw⟩, hes', rfl⟩
    obtain ⟨hc1, hc2⟩ := hcount hw hes'
    refine ⟨cdr, hcdr, { entries := l.map Listed.entry, tail := lastIndex (l.map Listed.entry)
                         pos := cdr.length, skipped_dirs := skipped }, ?_, rfl, es,
      pk3_validate_entries_ok.mpr hes', ?_⟩
    · refine (pk3_load_cdr_loop_ok _ _ _ (by rfl)).mpr ⟨l, skipped, hw, ?_⟩
      simp
    · simp only [hc1, hc2]

/-- **Opening a ZIP archive, inverted.** -/
theorem open_zip_iff {path : CStr} {mode : OpenMode} {hint : Format} {disk : Bytes}
    {pak : Archive} (hhint : hint = .auto ∨ hint = .pk3 ∨ hint = .pk4) :
    (pakka_open_ex path mode hint (some disk) = .ok pak ∧ pakka_format_is_zip pak.format = true) ↔
      path.strlen < OS_PATH_MAX ∧ ∃ h cdr l es, ZipDirectory disk h cdr l es ∧
        pak = opened_zip mode hint (zip_format path hint) disk h es := by
  have hnot : ¬ (hint ≠ .auto ∧ hint ≠ .pk3 ∧ hint ≠ .pk4) := by
    rintro ⟨h1, h2, h3⟩
    rcases hhint with h | h | h
    · exact h1 h
    · exact h2 h
    · exact h3 h
  have hlen : ∀ (h : Eocd) (es : List Entry) (l : List Listed) (n : ℕ),
      List.Forall₂ (fun e e' => pk3_validate_entry disk h.cdr_offset e = .ok e')
        (l.map Listed.entry) es → l.length ≤ n → n < 65536 →
      (UInt32.ofNat es.length).toNat = es.length := by
    intro h es l n hes hl hn
    have := hes.length_eq
    rw [List.length_map] at this
    rw [UInt32.toNat_ofNat', Nat.mod_eq_of_lt (by omega)]
  have hwad : ∀ f, pakka_format_is_zip f = true → pakka_format_is_wad f = false := by
    intro f hf
    cases f <;> first | rfl | cases hf
  simp only [pakka_open_ex, ite_error_eq_ok, not_le, except_bind_eq_ok, orError_eq_ok,
    Option.some.injEq, exists_eq_left', except_pure_eq_ok]
  constructor
  · rintro ⟨⟨hpath, pak1, hload, pak2, hdir, u, hdup, rfl⟩, hzip⟩
    refine ⟨hpath, ?_⟩
    simp only [load_pakfile, except_bind_eq_ok, orError_eq_ok] at hload
    obtain ⟨sig, hsig, hload⟩ := hload
    obtain ⟨rfl, -⟩ := readExact_eq_some.mp hsig
    by_cases hm : is_zip_magic (slice disk 0 PAKFILE_SIGNATURE_LEN) = true
    · rw [if_pos hm, if_neg (by exact hnot)] at hload
      have hf := pakka_pk3_open_impl_format hload
      have hz1 : pakka_format_is_zip pak1.format = true := by
        rw [hf]
        exact zip_format_is_zip path hint
      rw [load_entries, if_pos hz1] at hdir
      obtain rfl := Except.ok.inj hdir
      simp only [pakka_pk3_open_impl, except_bind_eq_ok, orError_eq_ok] at hload
      obtain ⟨off, hoff, h, hh, hload⟩ := hload
      obtain ⟨hc, hs, cdr, l, es, hcdr, ⟨skipped, hw⟩, hes, rfl⟩ :=
        (pk3_load_cdr_ok (by rfl) (by rfl) (by rfl)).mp hload
      have hn := hlen h es l _ hes (by have := hw.count; omega) (UInt16.toNat_lt h.entry_count)
      refine ⟨h, cdr, l, es, ⟨hm, ⟨off, hoff, hh⟩, hc, hs, hcdr, ⟨skipped, hw⟩, hes, ?_⟩, rfl⟩
      exact (validate_no_duplicates_ok (by exact hn)).mp hdup (hwad _ hz1)
    · -- without a ZIP magic the format is of the PAK class
      exfalso
      rw [if_neg hm] at hload
      obtain ⟨geom, hg⟩ := load_pak_class_geometry hload
      rw [load_entries_format hdir, not_zip_of_geometry hg] at hzip
      cases hzip
  -- every check of the loader is passed, in its order
  · rintro ⟨hpath, h, cdr, l, es, hd, rfl⟩
    obtain ⟨off, hoff, hh⟩ := hd.eocd
    obtain ⟨skipped, hw⟩ := hd.walk
    have hz := zip_format_is_zip path hint
    have hn := hlen h es l _ hd.entries (by have := hw.count; omega) (UInt16.toNat_lt h.entry_count)
    refine ⟨⟨hpath, opened_zip mode hint (zip_format path hint) disk h es, ?_, _, ?_, (), ?_, rfl⟩,
      hz⟩
    · have hsig : readExact disk 0 PAKFILE_SIGNATURE_LEN =
          some (slice disk 0 PAKFILE_SIGNATURE_LEN) := by
        refine readExact_eq_some.mpr ⟨rfl, ?_⟩
        have hm := hd.magic
        simp only [is_zip_magic, Bool.or_eq_true, decide_eq_true_eq] at hm
        rcases hm with hm | hm <;> rw [hm] <;> rfl
      simp only [load_pakfile, except_bind_eq_ok, orError_eq_ok]
      refine ⟨_, hsig, ?_⟩
      rw [if_pos hd.magic, if_neg (by exact hnot)]
      simp only [pakka_pk3_open_impl, except_bind_eq_ok, orError_eq_ok]
      exact ⟨off, hoff, h, hh, (pk3_load_cdr_ok (by rfl) (by rfl) (by rfl)).mpr
        ⟨hd.count_iff, hd.size_le, cdr, l, es, hd.read, ⟨skipped, hw⟩, hd.entries, rfl⟩⟩
    · rw [load_entries, if_pos (by exact hz)]
    · exact (validate_no_duplicates_ok (by exact hn)).mpr fun _ => hd.nodup

/-- A ZIP archive opens under an `auto` hint or one of the two ZIP hints only. -/
theorem open_zip_hint {path : CStr} {mode : OpenMode} {hint : Format} {disk : Bytes}
    {pak : Archive} (hopen : pakka_open_ex path mode hint (some disk) = .ok pak)
    (hzip : pakka_format_is_zip pak.format = true) :
    hint = .auto ∨ hint = .pk3 ∨ hint = .pk4 := by
  by_contra hne
  have hcls : ∃ geom, pakka_pak_geometry hint = some geom := by
    cases hint <;> simp_all [pakka_pak_geometry]
  obtain ⟨geom, hg⟩ := hcls
  obtain ⟨-, diroffset, dirlength, -, rfl⟩ := (open_pak_iff hg).mp hopen
  have hz := not_zip_of_geometry hg
  change pakka_format_is_zip hint = true at hzip
  rw [hz] at hzip
  cases hzip

/-- The directory behind an opened ZIP archive. -/
theorem open_zip_directory {path : CStr} {mode : OpenMode} {hint : Format} {disk : Bytes}
    {pak : Archive} (hopen : pakka_open_ex path mode hint (some disk) = .ok pak)
    (hzip : pakka_format_is_zip pak.format = true) :
    ∃ h cdr l es, ZipDirectory disk h cdr l es ∧
      pak = opened_zip mode hint (zip_format path hint) disk h es :=
  ((open_zip_iff (open_zip_hint hopen hzip)).mp ⟨hopen, hzip⟩).2

/-- The central directory lies in the file. -/
theorem ZipDirectory.cdr_in_file {disk : Bytes} {h : Eocd} {cdr : Bytes} {l : List Listed}
    {es : List Entry} (hd : ZipDirectory disk h cdr l es) :
    h.cdr_offset.toNat + h.cdr_size.toNat ≤ disk.length := by
  obtain ⟨off, -, hh⟩ := hd.eocd
  simp only [pk3_validate_eocd, except_bind_eq_ok, orError_eq_ok, ite_error_eq_ok, not_lt,
    except_pure_eq_ok] at hh
  obtain ⟨eocd, heocd, -, -, -, hle, -, rfl⟩ := hh
  have := le_of_readExact (by decide) heocd
  simp only at hle ⊢
  omega

/-- The loader takes fewer entries than the mark of a larger format. -/
theorem ZipDirectory.length_lt {disk : Bytes} {h : Eocd} {cdr : Bytes} {l : List Listed}
    {es : List Entry} (hd : ZipDirectory disk h cdr l es) : es.length < 0xFFFF := by
  obtain ⟨off, -, hvalid⟩ := hd.eocd
  have hmark : h.entry_count ≠ 0xFFFF := by
    simp only [pk3_validate_eocd, except_bind_eq_ok, orError_eq_ok, ite_error_eq_ok,
      except_pure_eq_ok] at hvalid
    obtain ⟨eocd, -, -, -, hne, -, -, rfl⟩ := hvalid
    exact fun hx => hne (Or.inl hx)
  have hlt : h.entry_count.toNat < 0xFFFF := by
    have h16 := UInt16.toNat_lt h.entry_count
    have hne : h.entry_count.toNat ≠ 0xFFFF := fun hx => hmark (UInt16.toNat_inj.mp hx)
    omega
  obtain ⟨skipped, hw⟩ := hd.walk
  have hcount := hw.count
  have hlen := hd.entries.length_eq
  rw [List.length_map] at hlen
  omega

/-- What holds of an entry of a ZIP archive right after opening `disk`. -/
structure LoadedZipEntry (disk : Bytes) (e : Entry) : Prop where
  not_staged : e.staged = false
  method : e.pk3_method = PK3_METHOD_STORED ∨ e.pk3_method = PK3_METHOD_DEFLATE
  stored : e.pk3_method = PK3_METHOD_STORED → e.pk3_compressed_size = e.length
  in_file : e.pk3_payload_offset.toNat + e.pk3_compressed_size.toNat ≤ disk.length

/-- **Every entry of an opened ZIP archive** has one of the two methods, one size where it is
stored, and its payload in the file. -/
theorem ZipDirectory.loaded {disk : Bytes} {h : Eocd} {cdr : Bytes} {l : List Listed}
    {es : List Entry} (hd : ZipDirectory disk h cdr l es) :
    ∀ e ∈ es, LoadedZipEntry disk e := by
  intro e he
  obtain ⟨i, hi, rfl⟩ := List.mem_iff_getElem.mp he
  have hlen := hd.entries.length_eq
  have hil : i < (l.map Listed.entry).length := by omega
  have hv := hd.entries.get hil hi
  obtain ⟨x, hx, heq⟩ := List.mem_map.mp (List.getElem_mem hil)
  simp only [List.get_eq_getElem, ← heq] at hv
  obtain ⟨payload64, hc, hval⟩ := pk3_validate_entry_ok.mp hv
  rw [hval]
  obtain ⟨skipped, hw⟩ := hd.walk
  obtain ⟨hr, -, -⟩ := hw.mem x hx
  refine ⟨rfl, ?_, hc.stored, ?_⟩
  · simp only [pk3_validate_cdr_record, ite_error_eq_ok] at hr
    obtain ⟨-, -, -, -, -, -, hm, -, -, -, hr⟩ := hr
    have hrec : x.record.method = (pk3_read_cdr_record (cdr.drop x.pos)).method := by
      split at hr
      · rw [← Except.ok.inj hr]
      · rw [ite_error_eq_ok] at hr
        rw [← Except.ok.inj hr.2]
    simp only [ne_eq, not_and, not_not] at hm
    change x.record.method = _ ∨ x.record.method = _
    rw [hrec]
    by_cases h0 : (pk3_read_cdr_record (cdr.drop x.pos)).method = PK3_METHOD_STORED
    · exact Or.inl h0
    · exact Or.inr (hm h0)
  · have hb := hc.before_cdr
    have hin := hd.cdr_in_file
    have hoff : (UInt32.ofNat payload64).toNat = payload64 := by
      have := UInt32.toNat_lt h.cdr_offset
      rw [UInt32.toNat_ofNat', Nat.mod_eq_of_lt (by omega)]
    change (UInt32.ofNat payload64).toNat + x.entry.pk3_compressed_size.toNat ≤ disk.length
    omega

end Pakka
