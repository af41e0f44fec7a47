/-
Quake or Daikatana: what an `auto` hint settles on.

Both formats have the magic `PACK`, and nothing in the header tells them apart. Under an `auto` hint
the loader first walks the directory in the rows of either format and looks at offsets and sizes
only, and this probe repeats the checks of the loader in code of its own: it has its own arithmetic,
its own order of tests and its own idea of the size of a payload.

Here the two are shown to agree on every file. The probe takes a layout exactly when the loader gets
past its header and directory checks under that format (`probe_pak_layout_iff`). So an `auto` open
is the open under the one format that passes, with the same entries, and an error where none or both
do. Names that repeat are looked at afterwards and play no part in the choice.

The difficulty is that the loader fails in several ways and with several statuses, at the first bad
row of a walk. `FailedCheck` names the ways, and a walk over rows that lie in the file fails on a
row out of range only, so the order of the rows does not matter to whether it fails.

The last part applies this to archives that the library wrote itself: what a commit published is
opened by `auto` as what it is, unless the bytes are a directory of the other format as well.
-/
import Pakka.PakReopen
import Pakka.PakInPlace

set_option autoImplicit false

namespace Pakka

open ByteImage LittleEndian

/-! ## The probe

A row of the probe and a row of the loader test the same two words of a row against the same bounds.
The probe multiplies and compares in 64 bits where the loader compares in 32, so the lemma for one
row is about that, and the walk is an induction on the rows.
-/

/-- The size of a payload on disk, from the words behind the name in its row. -/
def probe_extent (geom : Geometry) (words : Bytes) : ℕ :=
  if geom.has_compression && get32 (words.drop 12) ≠ 0 then (get32 (words.drop 8)).toNat
  else (get32 (words.drop 4)).toNat

/-- The check of one row by the probe. -/
theorem probe_rows_succ {disk : Bytes} {geom : Geometry} (n : ℕ) {pos : ℕ} {words : Bytes}
    (h : readExact disk (pos + geom.name_field_len)
      (geom.dir_entry_size - geom.name_field_len) = some words) :
    probe_rows disk geom (n + 1) pos = true ↔
      (PAKFILE_HEADER_SIZE ≤ (get32 words).toNat ∧
        (get32 words).toNat + probe_extent geom words ≤ disk.length) ∧
      probe_rows disk geom n (pos + geom.dir_entry_size) = true := by
  rw [probe_rows, h]
  have hext : (if (geom.has_compression &&
      (if geom.has_compression then get32 (words.drop 12) else 0) ≠ 0) = true
      then (get32 (words.drop 8)).toNat else (get32 (words.drop 4)).toNat) =
      probe_extent geom words := by
    unfold probe_extent
    cases geom.has_compression <;> rfl
  simp only [hext]
  split_ifs with hbad
  · refine iff_of_false (by simp) ?_
    rintro ⟨hrow, -⟩
    omega
  · refine ⟨fun hrest => ⟨by omega, hrest⟩, And.right⟩

/-- The check of one row by the loader. -/
theorem read_pak_row_in_range {format : Format} {geom : Geometry}
    (hw : pakka_format_is_wad format = false) (file_size : ℕ) (row : Bytes) :
    pak_row_in_range format file_size (read_pak_row format geom row) = true ↔
      PAKFILE_HEADER_SIZE ≤ (get32 (row.drop geom.name_field_len)).toNat ∧
        (get32 (row.drop geom.name_field_len)).toNat +
          probe_extent geom (row.drop geom.name_field_len) ≤ file_size := by
  have hext : (pak_entry_on_disk_extent (read_pak_row format geom row)).toNat =
      probe_extent geom (row.drop geom.name_field_len) := by
    unfold pak_entry_on_disk_extent read_pak_row probe_extent
    simp only [hw, Bool.false_eq_true, if_false, List.drop_drop]
    cases geom.has_compression with
    | false => simp
    | true => split_ifs <;> simp_all
  have hoff : (read_pak_row format geom row).offset = get32 (row.drop geom.name_field_len) := by
    simp [read_pak_row, hw]
  rw [pak_row_in_range_iff, Entry.payloadEnd, hext, hoff, hw]
  simp

/-- **The probe takes the rows that the loader takes.** Both walks look at every row; the induction
is on the rows, and the position in the file goes up by the size of a row in each of them. -/
theorem probe_rows_iff {disk : Bytes} {format : Format} {geom : Geometry}
    (hw : pakka_format_is_wad format = false) (hname : geom.name_field_len ≤ geom.dir_entry_size)
    (n pos : ℕ) (hin : pos + n * geom.dir_entry_size ≤ disk.length) :
    probe_rows disk geom n pos = true ↔
      ∀ e ∈ pak_row_entries disk format geom n pos,
        pak_row_in_range format disk.length e = true := by
  induction n generalizing pos with
  | zero => simp [probe_rows, pak_row_entries, pak_rows]
  | succ n ih =>
    rw [Nat.succ_mul] at hin
    have hcons : pak_row_entries disk format geom (n + 1) pos =
        read_pak_row format geom (slice disk pos geom.dir_entry_size) ::
          pak_row_entries disk format geom n (pos + geom.dir_entry_size) := rfl
    rw [hcons, List.forall_mem_cons, read_pak_row_in_range hw, drop_slice, ← ih _ (by omega)]
    exact probe_rows_succ n (readExact_of_le (by omega))

/-! ## The checks of the loader

What the loader makes of a file with the common magic, up to the names. The handle is built step by
step in the code, so the states in between are named here, and the result is a case distinction: the
archive that the file holds, or a check that fails with its status.
-/

/-- A file with the magic of both formats, and the words of its header. -/
structure PackFile (disk : Bytes) (diroffset dirlength : UInt32) : Prop where
  magic : slice disk 0 4 = ascii "PACK"
  words : read_pak_header disk .pak = .ok (diroffset, dirlength)

/-- The formats with that magic. -/
def IsPack (format : Format) : Prop := format = .pak ∨ format = .daikatana

/-- What opening makes of a file before it looks for names that repeat. -/
def checked_directory (path : CStr) (mode : OpenMode) (hint : Format) (disk : Bytes) :
    Except Status Archive := do
  let pak ← load_pakfile path disk (open_initial mode hint)
  load_entries disk pak

/-- The checks of header and directory that a file can fail under a format, with the status each
of them gives. -/
inductive FailedCheck (disk : Bytes) (format : Format) (diroffset dirlength : UInt32) :
    Status → Prop where
  | directory_in_header (h : diroffset.toNat < PAKFILE_HEADER_SIZE) :
      FailedCheck disk format diroffset dirlength .format
  | directory_past_end (h : disk.length < diroffset.toNat + dirlength.toNat) :
      FailedCheck disk format diroffset dirlength .format
  | partial_row {geom : Geometry} (hg : pakka_pak_geometry format = some geom)
      (h : dirlength.toNat % geom.dir_entry_size ≠ 0) :
      FailedCheck disk format diroffset dirlength .format
  | too_many_entries {geom : Geometry} (hg : pakka_pak_geometry format = some geom)
      (h : PAKFILE_MAX_ENTRIES < dirlength.toNat / geom.dir_entry_size) :
      FailedCheck disk format diroffset dirlength .limit
  | entry_out_of_range {geom : Geometry} (hg : pakka_pak_geometry format = some geom) (e : Entry)
      (he : e ∈ pak_row_entries disk format geom (dirlength.toNat / geom.dir_entry_size)
        diroffset.toNat)
      (h : pak_row_in_range format disk.length e = false) :
      FailedCheck disk format diroffset dirlength .format

/-- Opening under a hint is turned down by one of these checks. -/
def DirectoryRejected (path : CStr) (mode : OpenMode) (hint : Format) (disk : Bytes)
    (diroffset dirlength : UInt32) : Prop :=
  ∃ st, checked_directory path mode hint disk = .error st ∧
    FailedCheck disk hint diroffset dirlength st

/-- Opening under a hint gets past them. -/
def DirectoryAccepted (path : CStr) (mode : OpenMode) (hint : Format) (disk : Bytes) : Prop :=
  ∃ pak, checked_directory path mode hint disk = .ok pak

variable {path : CStr} {mode : OpenMode} {hint format : Format} {geom : Geometry} {disk : Bytes}
  {diroffset dirlength : UInt32}

/-- After the checks only the names are left to look at. -/
theorem pakka_open_ex_eq (hpath : path.strlen < OS_PATH_MAX) :
    pakka_open_ex path mode hint (some disk) = (do
      let pak ← checked_directory path mode hint disk
      let _ ← validate_no_duplicates pak
      pure pak) := by
  unfold pakka_open_ex checked_directory
  rw [if_neg (by omega)]
  simp only [orError, bind_assoc]
  rfl

/-- The header lies in the file. -/
theorem PackFile.fits (h : PackFile disk diroffset dirlength) :
    PAKFILE_HEADER_SIZE ≤ disk.length := by
  have hw := h.words
  simp only [read_pak_header, except_bind_eq_ok, orError_eq_ok] at hw
  obtain ⟨w1, -, w2, hw2, -⟩ := hw
  exact le_of_readExact (by omega) hw2

/-- The handle with the header words of such a file. -/
def pack_handle (mode : OpenMode) (hint format : Format) (disk : Bytes)
    (diroffset dirlength num_entries : UInt32) : Archive :=
  { open_initial mode hint with
    file_size := disk.length
    signature := ascii "PACK"
    format := format
    diroffset := diroffset
    dirlength := dirlength
    num_entries := num_entries }

/-- The loader on a file with the common magic, up to the choice of the format. -/
theorem load_pakfile_pack (h : PackFile disk diroffset dirlength)
    (hhint : hint = .auto ∨ IsPack hint) :
    load_pakfile path disk (open_initial mode hint) =
      if diroffset.toNat < PAKFILE_HEADER_SIZE then .error .format
      else if dirlength.toNat > disk.length ∨
          diroffset.toNat > disk.length - dirlength.toNat then .error .format
      else (settle_pak_format disk hint (if hint = .daikatana then .daikatana else .pak)
          diroffset dirlength).bind fun format =>
        load_pak_geometry (pack_handle mode hint format disk diroffset dirlength 0) := by
  have hsig : readExact disk 0 PAKFILE_SIGNATURE_LEN = some (ascii "PACK") :=
    readExact_eq_some.mpr ⟨h.magic.symm, by decide⟩
  have hwords : ∀ format, IsPack format → read_pak_header disk format =
      .ok (diroffset, dirlength) := by
    rintro format (rfl | rfl)
    · exact h.words
    · exact h.words
  have hmagic : is_zip_magic (ascii "PACK") = false := by decide
  have hformat : pak_format_of_signature hint (ascii "PACK") =
      .ok (if hint = .daikatana then .daikatana else .pak) := by
    rcases hhint with rfl | rfl | rfl <;> decide
  have hpack : IsPack (if hint = .daikatana then .daikatana else .pak) := by
    split_ifs
    · exact Or.inr rfl
    · exact Or.inl rfl
  unfold load_pakfile load_pak_class
  rw [hsig]
  simp only [orError, Except.bind, bind, open_initial, hmagic, hformat, hwords _ hpack,
    Bool.false_eq_true, if_false, pack_handle]

/-- The checks of the row count. -/
theorem load_pak_geometry_pack (hg : pakka_pak_geometry format = some geom) :
    load_pak_geometry (pack_handle mode hint format disk diroffset dirlength 0) =
      if dirlength.toNat % geom.dir_entry_size ≠ 0 then .error .format
      else if dirlength.toNat / geom.dir_entry_size > PAKFILE_MAX_ENTRIES then .error .limit
      else .ok (pack_handle mode hint format disk diroffset dirlength
        (UInt32.ofNat (dirlength.toNat / geom.dir_entry_size))) := by
  obtain ⟨hcount, hquot⟩ := row_count_eq hg dirlength
  simp only [load_pak_geometry, pack_handle, hg, orError, bind, Except.bind, hcount, hquot, pure,
    Except.pure]

/-- The walk fails on a row out of range only, as long as its rows lie in the file. -/
theorem load_directory_loop_error (n pos : ℕ) (w : DirWalk)
    (hin : pos + n * geom.dir_entry_size ≤ disk.length) {st : Status}
    (h : load_directory_loop disk format geom n pos w = .error st) : st = .format := by
  induction n generalizing pos w with
  | zero => cases h
  | succ n ih =>
    rw [Nat.succ_mul] at hin
    rw [load_directory_loop, readExact_of_le (by omega)] at h
    by_cases hrow : pak_row_in_range format disk.length
        (read_pak_row format geom (slice disk pos geom.dir_entry_size)) = true
    · simp only [orError, bind, Except.bind, hrow, not_true_eq_false, if_false] at h
      exact ih (pos + geom.dir_entry_size) _ (by omega) h
    · simp only [orError, bind, Except.bind, hrow] at h
      exact (Except.error.inj h).symm

/-- The directory of a handle whose header is good: its rows, or one of them out of range. -/
theorem load_directory_cases {pak : Archive} (hg : pakka_pak_geometry pak.format = some geom)
    (hes : pak.entries = []) (htail : pak.tail = none)
    (hin : pak.diroffset.toNat + pak.num_entries.toNat * geom.dir_entry_size ≤ disk.length) :
    (∃ pak', load_directory disk pak = .ok pak') ∨
      load_directory disk pak = .error .format ∧
        ∃ e ∈ pak_row_entries disk pak.format geom pak.num_entries.toNat pak.diroffset.toNat,
          pak_row_in_range pak.format disk.length e = false := by
  cases hload : load_directory disk pak with
  | ok pak' => exact Or.inl ⟨pak', rfl⟩
  | error st =>
    right
    have hst : st = .format := by
      simp only [load_directory] at hload
      split_ifs at hload with h0
      · cases hload
      rw [hg] at hload
      cases hloop : load_directory_loop disk pak.format geom pak.num_entries.toNat
          pak.diroffset.toNat {} with
      | ok w =>
        simp only [orError, bind, Except.bind, hloop] at hload
        cases hload
      | error st' =>
        simp only [orError, bind, Except.bind, hloop] at hload
        obtain rfl := Except.error.inj hload
        exact load_directory_loop_error _ _ _ hin hloop
    refine ⟨by rw [hst], ?_⟩
    -- were every row in range, the load would have gone through
    by_contra hall
    have hrange : ∀ e ∈ pak_row_entries disk pak.format geom pak.num_entries.toNat
        pak.diroffset.toNat, pak_row_in_range pak.format disk.length e = true := by
      intro e he
      by_contra hne
      exact hall ⟨e, he, by simpa using hne⟩
    have hok := (load_directory_ok hg hes htail hin).mpr ⟨hrange, rfl⟩
    rw [hok] at hload
    cases hload

/-- **The checks under one of the two formats.** The loader gets past them with the archive that
the file holds, or one of them fails. -/
theorem checked_directory_cases (path : CStr) (mode : OpenMode)
    (h : PackFile disk diroffset dirlength) (hp : IsPack format)
    (hg : pakka_pak_geometry format = some geom) :
    (PakHeader disk format geom diroffset dirlength ∧
      (∀ e ∈ pak_row_entries disk format geom (dirlength.toNat / geom.dir_entry_size)
        diroffset.toNat, pak_row_in_range format disk.length e = true) ∧
      DirectoryAccepted path mode format disk) ∨
    DirectoryRejected path mode format disk diroffset dirlength := by
  have hauto : format ≠ .auto := by
    rcases hp with rfl | rfl <;> decide
  have hself : (if format = .daikatana then .daikatana else .pak) = format := by
    rcases hp with rfl | rfl <;> rfl
  have hz := not_zip_of_geometry hg
  obtain ⟨hcount, hquot⟩ := row_count_eq hg dirlength
  unfold DirectoryRejected DirectoryAccepted checked_directory
  rw [load_pakfile_pack h (Or.inr hp), hself]
  -- check after check, in the loader's order; each of them names its rejection
  by_cases hoff : diroffset.toNat < PAKFILE_HEADER_SIZE
  · rw [if_pos hoff]
    exact Or.inr ⟨_, rfl, .directory_in_header hoff⟩
  by_cases hend : dirlength.toNat > disk.length ∨ diroffset.toNat > disk.length - dirlength.toNat
  · rw [if_neg hoff, if_pos hend]
    exact Or.inr ⟨_, rfl, .directory_past_end (by omega)⟩
  have hsettle : settle_pak_format disk format format diroffset dirlength = .ok format := by
    unfold settle_pak_format
    rw [if_neg (by simp [hauto])]
  simp only [if_neg hoff, if_neg hend, hsettle, Except.bind, load_pak_geometry_pack hg, bind]
  by_cases hrows : dirlength.toNat % geom.dir_entry_size ≠ 0
  · rw [if_pos hrows]
    exact Or.inr ⟨_, rfl, .partial_row hg hrows⟩
  by_cases hmax : dirlength.toNat / geom.dir_entry_size > PAKFILE_MAX_ENTRIES
  · rw [if_neg hrows, if_pos hmax]
    exact Or.inr ⟨_, rfl, .too_many_entries hg hmax⟩
  simp only [if_neg hrows, if_neg hmax]
  -- all checks are passed: this is the header of the format, and the rows decide
  have hmagic : slice disk 0 4 = geom.signature := by
    rw [h.magic]
    rcases hp with rfl | rfl <;> obtain rfl := Option.some.inj hg <;> decide
  have hwords : read_pak_header disk format = .ok (diroffset, dirlength) := by
    rcases hp with rfl | rfl <;> exact h.words
  have hwhole : dirlength.toNat / geom.dir_entry_size * geom.dir_entry_size = dirlength.toNat :=
    Nat.div_mul_cancel (Nat.dvd_of_mod_eq_zero (not_not.mp hrows))
  have hheader : PakHeader disk format geom diroffset dirlength :=
    ⟨hmagic, h.fits, hwords, by omega, by omega, not_not.mp hrows, by omega⟩
  have hentries : ∀ pak : Archive, pak.format = format →
      load_entries disk pak = load_directory disk pak := by
    intro pak hf
    rw [load_entries, hf, hz, if_neg (by simp)]
  rw [hentries _ (by rfl)]
  have hin : diroffset.toNat +
      (UInt32.ofNat (dirlength.toNat / geom.dir_entry_size)).toNat * geom.dir_entry_size ≤
        disk.length := by
    rw [hquot, hwhole]
    omega
  have hcases : (∃ pak', load_directory disk (pack_handle mode format format disk diroffset
      dirlength (UInt32.ofNat (dirlength.toNat / geom.dir_entry_size))) = .ok pak') ∨ _ :=
    load_directory_cases hg rfl rfl hin
  rcases hcases with ⟨pak', hok⟩ | ⟨herr, e, he, hrange⟩
  · left
    have hrange := ((load_directory_ok (by exact hg) rfl rfl hin).mp hok).1
    simp only [pack_handle, hquot] at hrange
    exact ⟨hheader, hrange, pak', hok⟩
  · right
    simp only [pack_handle, hquot] at he
    exact ⟨_, herr, .entry_out_of_range hg e he hrange⟩

/-- Accepted and rejected exclude each other. -/
theorem DirectoryRejected.not_accepted
    (h : DirectoryRejected path mode hint disk diroffset dirlength) :
    ¬ DirectoryAccepted path mode hint disk := by
  rintro ⟨pak, hok⟩
  obtain ⟨st, herr, -⟩ := h
  rw [hok] at herr
  cases herr

/-- **The probe takes a layout that the loader takes.** -/
theorem probe_pak_layout_iff (path : CStr) (mode : OpenMode)
    (h : PackFile disk diroffset dirlength) (hp : IsPack format)
    (hg : pakka_pak_geometry format = some geom)
    (hoff : PAKFILE_HEADER_SIZE ≤ diroffset.toNat)
    (hend : diroffset.toNat + dirlength.toNat ≤ disk.length) :
    probe_pak_layout disk diroffset dirlength geom = true ↔
      DirectoryAccepted path mode format disk := by
  have hw : pakka_format_is_wad format = false := by
    rcases hp with rfl | rfl <;> rfl
  have hname : geom.name_field_len ≤ geom.dir_entry_size := by
    rcases hp with rfl | rfl <;> obtain rfl := Option.some.inj hg <;> decide
  have hrows : dirlength.toNat % geom.dir_entry_size = 0 →
      (probe_rows disk geom (dirlength.toNat / geom.dir_entry_size) diroffset.toNat = true ↔
        ∀ e ∈ pak_row_entries disk format geom (dirlength.toNat / geom.dir_entry_size)
          diroffset.toNat, pak_row_in_range format disk.length e = true) := by
    intro hwhole
    apply probe_rows_iff hw hname
    rw [Nat.div_mul_cancel (Nat.dvd_of_mod_eq_zero hwhole)]
    exact hend
  unfold probe_pak_layout
  rcases checked_directory_cases path mode h hp hg with ⟨hheader, hrange, hacc⟩ | hrej
  · have hmax := hheader.count_le
    rw [if_neg (not_not.mpr hheader.whole_rows), if_neg (by omega), hrows hheader.whole_rows]
    exact iff_of_true hrange hacc
  · refine iff_of_false ?_ hrej.not_accepted
    -- the probe finds the same fault, whichever it was
    obtain ⟨st, -, hfail⟩ := hrej
    cases hfail with
    | directory_in_header hx => omega
    | directory_past_end hx => omega
    | partial_row hg' hx =>
      obtain rfl := Option.some.inj (hg.symm.trans hg')
      rw [if_pos hx]
      simp
    | too_many_entries hg' hx =>
      obtain rfl := Option.some.inj (hg.symm.trans hg')
      split_ifs <;> simp_all
    | entry_out_of_range hg' e he hx =>
      obtain rfl := Option.some.inj (hg.symm.trans hg')
      by_cases hwhole : dirlength.toNat % geom.dir_entry_size = 0
      · rw [if_neg (not_not.mpr hwhole)]
        split_ifs
        · simp
        · rw [hrows hwhole]
          intro hall
          rw [hall e he] at hx
          cases hx
      · rw [if_pos hwhole]
        simp

/-! ## Opening under an `auto` hint

The handle of an `auto` open differs from that of an explicit one in one flag only, which the
directory does not depend on. With the agreement of probe and loader the four cases of the two
layouts are settled.
-/

/-- The other of the two formats. -/
def other_pack : Format → Format
  | .pak => .daikatana
  | _ => .pak

/-- What the probe makes of the two layouts, in terms of the loader. -/
theorem probe_pack_format_eq (path : CStr) (mode : OpenMode)
    (h : PackFile disk diroffset dirlength) (hne : dirlength ≠ 0)
    (hoff : PAKFILE_HEADER_SIZE ≤ diroffset.toNat)
    (hend : diroffset.toNat + dirlength.toNat ≤ disk.length) :
    (IsPack format → DirectoryAccepted path mode format disk →
        ¬ DirectoryAccepted path mode (other_pack format) disk →
      probe_pack_format disk diroffset dirlength = .ok format) ∧
    ((DirectoryAccepted path mode .pak disk ↔ DirectoryAccepted path mode .daikatana disk) →
      probe_pack_format disk diroffset dirlength = .error .format) := by
  have hpak := probe_pak_layout_iff path mode h (Or.inl rfl) rfl hoff hend
  have hdk := probe_pak_layout_iff path mode h (Or.inr rfl) rfl hoff hend
  unfold probe_pack_format
  rw [if_neg hne]
  simp only [pakka_pak_geometry]
  constructor
  · rintro (rfl | rfl) hacc hrej
    · rw [hpak.mpr hacc, Bool.eq_false_iff.mpr fun hx => hrej (hdk.mp hx)]
    · rw [hdk.mpr hacc, Bool.eq_false_iff.mpr fun hx => hrej (hpak.mp hx)]
  · intro hiff
    rw [← hpak, ← hdk, ← Bool.eq_iff_iff] at hiff
    rw [hiff]
    cases probe_pak_layout disk diroffset dirlength ⟨[0x50, 0x41, 0x43, 0x4B], 56, 72, true⟩ <;> rfl

/-- The handle as an `auto` open leaves it. -/
def with_auto (pak : Archive) : Archive := { pak with format_hint := .auto }

/-- The directory does not depend on the hint. -/
theorem load_entries_with_auto (disk : Bytes) (pak : Archive) :
    load_entries disk (with_auto pak) = (load_entries disk pak).map with_auto := by
  have hformat : (with_auto pak).format = pak.format := rfl
  unfold load_entries
  by_cases hz : pakka_format_is_zip pak.format = true
  · rw [if_pos (hformat ▸ hz), if_pos hz]
    rfl
  rw [if_neg (hformat ▸ hz), if_neg hz]
  by_cases h0 : pak.num_entries = 0
  · have h0' : (with_auto pak).num_entries = 0 := h0
    simp only [load_directory, h0, h0', if_true]
    rfl
  have h0' : ¬ (with_auto pak).num_entries = 0 := h0
  simp only [load_directory, if_neg h0, if_neg h0', hformat]
  cases pakka_pak_geometry pak.format with
  | none => rfl
  | some geom =>
    simp only [orError, bind, Except.bind, with_auto]
    cases load_directory_loop disk pak.format geom pak.num_entries.toNat pak.diroffset.toNat {} <;>
      rfl

/-- **Where one format alone passes**, an `auto` open is the open under it. -/
theorem pakka_open_ex_auto (h : PackFile disk diroffset dirlength) (hne : dirlength ≠ 0)
    (hp : IsPack format) (hpath : path.strlen < OS_PATH_MAX)
    (hacc : DirectoryAccepted path mode format disk)
    (hother : ¬ DirectoryAccepted path mode (other_pack format) disk) :
    pakka_open_ex path mode .auto (some disk) =
      (pakka_open_ex path mode format (some disk)).map with_auto := by
  obtain ⟨geom, hg⟩ : ∃ geom, pakka_pak_geometry format = some geom := by
    rcases hp with rfl | rfl <;> exact ⟨_, rfl⟩
  have hauto : format ≠ .auto := by
    rcases hp with rfl | rfl <;> decide
  have hself : (if format = .daikatana then .daikatana else .pak) = format := by
    rcases hp with rfl | rfl <;> rfl
  obtain ⟨hheader, -⟩ : PakHeader disk format geom diroffset dirlength ∧ True := by
    rcases checked_directory_cases path mode h hp hg with ⟨hheader, -⟩ | hrej
    · exact ⟨hheader, trivial⟩
    · exact absurd hacc hrej.not_accepted
  have hoff := hheader.diroffset_ge
  have hend := hheader.in_file
  have hprobe : settle_pak_format disk .auto .pak diroffset dirlength = .ok format := by
    unfold settle_pak_format
    rw [if_pos (by simp)]
    exact (probe_pack_format_eq path mode h hne hoff hend).1 hp hacc hother
  have hexplicit : settle_pak_format disk format format diroffset dirlength = .ok format := by
    unfold settle_pak_format
    rw [if_neg (by simp [hauto])]
  -- up to the rows the two opens run alike, once the probe has chosen the format
  have hchecked : checked_directory path mode .auto disk =
      (checked_directory path mode format disk).map with_auto := by
    have hend' : ¬ (dirlength.toNat > disk.length ∨
        diroffset.toNat > disk.length - dirlength.toNat) := by omega
    have hoff' : ¬ diroffset.toNat < PAKFILE_HEADER_SIZE := by omega
    have hmax : ¬ dirlength.toNat / geom.dir_entry_size > PAKFILE_MAX_ENTRIES :=
      Nat.not_lt.mpr hheader.count_le
    have hrows : ¬ dirlength.toNat % geom.dir_entry_size ≠ 0 := not_not.mpr hheader.whole_rows
    have hquake : (if Format.auto = .daikatana then .daikatana else .pak) = Format.pak := rfl
    unfold checked_directory
    rw [load_pakfile_pack h (Or.inl rfl), load_pakfile_pack h (Or.inr hp), hself, hquake]
    simp only [if_neg hoff', if_neg hend', hprobe, hexplicit, Except.bind,
      load_pak_geometry_pack hg, bind, if_neg hrows, if_neg hmax]
    exact load_entries_with_auto disk (pack_handle mode format format disk diroffset dirlength
      (UInt32.ofNat (dirlength.toNat / geom.dir_entry_size)))
  rw [pakka_open_ex_eq hpath, pakka_open_ex_eq hpath, hchecked]
  cases checked_directory path mode format disk with
  | error st => rfl
  | ok pak =>
    have hdup : validate_no_duplicates (with_auto pak) = validate_no_duplicates pak := rfl
    simp only [Except.map, bind, Except.bind, hdup]
    cases validate_no_duplicates pak <;> rfl

/-- **Where both formats pass or neither does**, an `auto` open fails. -/
theorem pakka_open_ex_auto_error (h : PackFile disk diroffset dirlength) (hne : dirlength ≠ 0)
    (hiff : DirectoryAccepted path mode .pak disk ↔ DirectoryAccepted path mode .daikatana disk) :
    ∃ st, pakka_open_ex path mode .auto (some disk) = .error st := by
  by_cases hpath : path.strlen < OS_PATH_MAX
  swap
  · unfold pakka_open_ex
    rw [if_pos (by omega)]
    exact ⟨_, rfl⟩
  have hchecked : checked_directory path mode .auto disk = .error .format := by
    unfold checked_directory
    rw [load_pakfile_pack h (Or.inl rfl)]
    by_cases hoff : diroffset.toNat < PAKFILE_HEADER_SIZE
    · rw [if_pos hoff]
      rfl
    by_cases hend : dirlength.toNat > disk.length ∨
        diroffset.toNat > disk.length - dirlength.toNat
    · rw [if_neg hoff, if_pos hend]
      rfl
    have hprobe : settle_pak_format disk .auto .pak diroffset dirlength = .error .format := by
      unfold settle_pak_format
      rw [if_pos (by simp)]
      exact (@probe_pack_format_eq .pak _ _ _ path mode h hne (by omega) (by omega)).2 hiff
    rw [if_neg hoff, if_neg hend, if_neg (by simp), hprobe]
    rfl
  rw [pakka_open_ex_eq hpath, hchecked]
  exact ⟨_, rfl⟩

/-- Opening under a hint succeeds, with this format and these entries. -/
def OpensAs (path : CStr) (mode : OpenMode) (hint : Format) (disk : Bytes) (format : Format)
    (entries : List Entry) : Prop :=
  ∃ pak, pakka_open_ex path mode hint (some disk) = .ok pak ∧ pak.format = format ∧
    pak.entries = entries

/-- An `auto` open agrees with the explicit ones: it succeeds as a format with some entries exactly
when the open under that format does and the other format is turned down by the checks, it fails
where both get past the checks or neither does, and it delivers no third format. -/
structure AutoAgrees (path : CStr) (mode : OpenMode) (disk : Bytes)
    (diroffset dirlength : UInt32) : Prop where
  opens_iff : ∀ format, IsPack format → ∀ entries,
    OpensAs path mode .auto disk format entries ↔
      OpensAs path mode format disk format entries ∧
        DirectoryRejected path mode (other_pack format) disk diroffset dirlength
  fails : (DirectoryAccepted path mode .pak disk ↔ DirectoryAccepted path mode .daikatana disk) →
    ∃ st, pakka_open_ex path mode .auto (some disk) = .error st
  is_pack : ∀ pak, pakka_open_ex path mode .auto (some disk) = .ok pak → IsPack pak.format

/-- What opens under one of the two formats gets past its checks, and has that format. -/
theorem open_pack_accepted (hp : IsPack format) {pak : Archive}
    (h : pakka_open_ex path mode format (some disk) = .ok pak) :
    path.strlen < OS_PATH_MAX ∧ pak.format = format ∧ DirectoryAccepted path mode format disk := by
  obtain ⟨geom, hg⟩ : ∃ geom, pakka_pak_geometry format = some geom := by
    rcases hp with rfl | rfl <;> exact ⟨_, rfl⟩
  obtain ⟨hpath, diroffset, dirlength, -, rfl⟩ := (open_pak_iff hg).mp h
  refine ⟨hpath, rfl, ?_⟩
  rw [pakka_open_ex_eq hpath] at h
  cases hc : checked_directory path mode format disk with
  | ok pak' => exact ⟨pak', hc⟩
  | error st =>
    rw [hc] at h
    cases h

/-- **An `auto` open agrees with the explicit ones.** -/
theorem auto_agrees (path : CStr) (mode : OpenMode) (h : PackFile disk diroffset dirlength)
    (hne : dirlength ≠ 0) : AutoAgrees path mode disk diroffset dirlength := by
  have hcases : ∀ format, IsPack format → DirectoryAccepted path mode format disk ∨
      DirectoryRejected path mode format disk diroffset dirlength := by
    intro format hp
    obtain ⟨geom, hg⟩ : ∃ geom, pakka_pak_geometry format = some geom := by
      rcases hp with rfl | rfl <;> exact ⟨_, rfl⟩
    rcases checked_directory_cases path mode h hp hg with ⟨-, -, hacc⟩ | hrej
    · exact Or.inl hacc
    · exact Or.inr hrej
  have hother : ∀ format, IsPack (other_pack format) := by
    intro format
    cases format <;> simp [IsPack, other_pack]
  -- an `auto` open that succeeds is one of the two explicit ones
  have hauto : ∀ pak, pakka_open_ex path mode .auto (some disk) = .ok pak →
      ∃ format, IsPack format ∧ pak.format = format ∧
        DirectoryRejected path mode (other_pack format) disk diroffset dirlength ∧
        ∃ pak', pakka_open_ex path mode format (some disk) = .ok pak' ∧ pak = with_auto pak' := by
    intro pak hopen
    have hpath : path.strlen < OS_PATH_MAX := by
      by_contra hlong
      unfold pakka_open_ex at hopen
      rw [if_pos (by omega)] at hopen
      cases hopen
    have hone : ∀ format, IsPack format → DirectoryAccepted path mode format disk →
        ¬ DirectoryAccepted path mode (other_pack format) disk →
        ∃ format, IsPack format ∧ pak.format = format ∧
          DirectoryRejected path mode (other_pack format) disk diroffset dirlength ∧
          ∃ pak', pakka_open_ex path mode format (some disk) = .ok pak' ∧
            pak = with_auto pak' := by
      intro format hp hacc hno
      rw [pakka_open_ex_auto h hne hp hpath hacc hno] at hopen
      cases hexp : pakka_open_ex path mode format (some disk) with
      | error st =>
        rw [hexp] at hopen
        cases hopen
      | ok pak' =>
        rw [hexp] at hopen
        obtain rfl := Except.ok.inj hopen
        refine ⟨format, hp, (open_pack_accepted hp hexp).2.1, ?_, pak', hexp, rfl⟩
        exact (hcases _ (hother format)).resolve_left hno
    by_cases h1 : DirectoryAccepted path mode .pak disk
    · by_cases h2 : DirectoryAccepted path mode .daikatana disk
      · obtain ⟨st, herr⟩ := pakka_open_ex_auto_error h hne (iff_of_true h1 h2)
        rw [hopen] at herr
        cases herr
      · exact hone .pak (Or.inl rfl) h1 h2
    · by_cases h2 : DirectoryAccepted path mode .daikatana disk
      · exact hone .daikatana (Or.inr rfl) h2 h1
      · obtain ⟨st, herr⟩ := pakka_open_ex_auto_error h hne (iff_of_false h1 h2)
        rw [hopen] at herr
        cases herr
  refine ⟨?_, pakka_open_ex_auto_error h hne, ?_⟩
  · intro format hp entries
    constructor
    · rintro ⟨pak, hopen, hformat, hentries⟩
      obtain ⟨format', hp', hformat', hrej, pak', hexp, rfl⟩ := hauto pak hopen
      obtain rfl := hformat'.symm.trans hformat
      exact ⟨⟨pak', hexp, hformat, hentries⟩, hrej⟩
    · rintro ⟨⟨pak, hexp, hformat, hentries⟩, hrej⟩
      obtain ⟨hpath, -, hacc⟩ := open_pack_accepted hp hexp
      refine ⟨with_auto pak, ?_, hformat, hentries⟩
      rw [pakka_open_ex_auto h hne hp hpath hacc hrej.not_accepted, hexp]
      rfl
  · intro pak hopen
    obtain ⟨format, hp, rfl, -⟩ := hauto pak hopen
    exact hp

/-! ## Committed archives

A published archive passes the checks of its own format, since it opens under it. What is left for
`auto` is whether it passes those of the other one too.
-/

/-- A published archive of one of the two formats, with entries: its file has the common magic, a
directory, and opens under its format. -/
theorem PakPublished.pack_file {pak : Archive} (hp : IsPack pak.format)
    (hg : pakka_pak_geometry pak.format = some geom) (h : PakPublished disk pak geom)
    (hne : pak.entries ≠ []) :
    PackFile disk pak.diroffset pak.dirlength ∧ pak.dirlength ≠ 0 ∧
      (path.strlen < OS_PATH_MAX → DirectoryAccepted path mode pak.format disk) := by
  have hheader := h.directory.header
  have hmagic : geom.signature = ascii "PACK" := by
    rcases hp with hf | hf <;> rw [hf] at hg <;> obtain rfl := Option.some.inj hg <;> decide
  refine ⟨⟨by rw [hheader.signature, hmagic], ?_⟩, ?_, ?_⟩
  · have hwords := hheader.words
    rcases hp with hf | hf
    · rwa [hf] at hwords
    · rw [hf] at hwords
      exact hwords
  · intro hzero
    have hrows := congrArg List.length h.rows
    rw [length_pak_row_entries, List.length_map, hzero, UInt32.toNat_zero, Nat.zero_div] at hrows
    exact hne (List.eq_nil_of_length_eq_zero hrows.symm)
  · intro hpath
    obtain ⟨pak', hopen, -⟩ := h.reopens hg hpath mode
    exact (open_pack_accepted hp hopen).2.2

/-- **A published archive is not mistaken** for one of the other format. -/
theorem PakPublished.not_mistaken {pak pak' : Archive} (hp : IsPack pak.format)
    (hg : pakka_pak_geometry pak.format = some geom) (h : PakPublished disk pak geom)
    (hne : pak.entries ≠ [])
    (hopen : pakka_open_ex path mode .auto (some disk) = .ok pak') : pak'.format = pak.format := by
  obtain ⟨hfile, hlen, hacc⟩ := @PakPublished.pack_file path mode _ _ _ hp hg h hne
  have hagree := auto_agrees path mode hfile hlen
  have hp' := hagree.is_pack pak' hopen
  by_contra hother
  have hswap : other_pack pak'.format = pak.format := by
    rcases hp with hf | hf <;> rcases hp' with hf' | hf' <;> rw [hf, hf'] <;> simp_all [other_pack]
  obtain ⟨⟨pak'', hexp, -⟩, hrej⟩ :=
    (hagree.opens_iff pak'.format hp' pak'.entries).mp ⟨pak', hopen, rfl, rfl⟩
  rw [hswap] at hrej
  exact hrej.not_accepted (hacc (open_pack_accepted hp' hexp).1)

/-- A commit that succeeds after any calls publishes the archive, unless it found nothing to do on
a directory that a failed call had torn. -/
theorem committed_published {df : Deflate} {env : Env} {s₀ s' : Session}
    {calls : List (Env × Call)} (hstart : Session.Started s₀) (hcls : IsPakClass s₀.pak.format)
    (hcommit : (s₀.run df calls).step df env .commit = (.ok, s'))
    (hdone : (s₀.run df calls).pak.dirty = true ∨ ¬ torn df s₀ False calls)
    (hmax : (s₀.run df calls).pak.entries.length ≤ PAKFILE_MAX_ENTRIES) :
    ∃ geom disk, pakka_pak_geometry s'.pak.format = some geom ∧ s'.files .live = some disk ∧
      s'.pak.format = s₀.pak.format ∧ PakPublished disk s'.pak geom ∧
      s'.pak.entries.length = (s₀.run df calls).pak.entries.length := by
  obtain ⟨geom, disk₀, hlive₀⟩ := hstart.live hcls
  have hg := hlive₀.geometry
  have hrun₀ : PakRun s₀.pak.format geom False s₀ := Or.inr ⟨_, hlive₀⟩
  rcases hrun₀.run calls with hlost | ⟨disk, hlive⟩
  · have hok : ((s₀.run df calls).step df env .commit).1 = .ok := by rw [hcommit]
    exact absurd rfl (hlost.step.2 hok)
  rcases hlive.commit_cases hcommit with ⟨hclean, rfl⟩ | ⟨disk', hfile, hcom⟩
  · have hpub := hlive.published hclean (hdone.resolve_left (by simp [hclean])) hmax
    exact ⟨geom, disk, hlive.format ▸ hg, hlive.file, hlive.format, hpub, rfl⟩
  · have hnames := congrArg Catalogue.names (hcom.listing fun _ _ => [])
    rw [names_pak_listing, names_pak_listing] at hnames
    have hlen := congrArg List.length hnames
    rw [List.length_map, List.length_map] at hlen
    have hformat := hcom.format.trans hlive.format
    exact ⟨geom, disk', hformat ▸ hg, hfile, hformat, hcom.published (by omega), hlen⟩

/-- **The choice of an `auto` hint.** On every file with the magic `PACK` and a directory that is not
empty an `auto` open agrees with the opens under the two formats of that magic. So an archive that
was committed as one of them, with entries but no more than the loader takes, is never opened as the
other. -/
theorem auto_open_agrees (df : Deflate) :
    (∀ (path : CStr) (mode : OpenMode) (disk : Bytes) (diroffset dirlength : UInt32),
      PackFile disk diroffset dirlength → dirlength ≠ 0 →
      AutoAgrees path mode disk diroffset dirlength) ∧
    ∀ (s₀ : Session) (calls : List (Env × Call)) (env : Env) (s' : Session),
      Session.Started s₀ → IsPack s₀.pak.format →
      (s₀.run df calls).step df env .commit = (.ok, s') →
      ((s₀.run df calls).pak.dirty = true ∨ ¬ torn df s₀ False calls) →
      (s₀.run df calls).pak.entries ≠ [] →
      (s₀.run df calls).pak.entries.length ≤ PAKFILE_MAX_ENTRIES →
      ∀ (path : CStr) (mode : OpenMode) (pak : Archive),
        pakka_open_ex path mode .auto (s'.files .live) = .ok pak →
        pak.format = s₀.pak.format := by
  constructor
  · intro path mode disk diroffset dirlength hfile hne
    exact auto_agrees path mode hfile hne
  · intro s₀ calls env s' hstart hp hcommit hdone hne hmax path mode pak hopen
    have hcls : IsPakClass s₀.pak.format := by
      rcases hp with hf | hf <;> rw [hf] <;> decide
    obtain ⟨geom, disk, hg, hfile, hformat, hpub, hlen⟩ :=
      committed_published hstart hcls hcommit hdone hmax
    have hne' : s'.pak.entries ≠ [] := by
      intro hnil
      rw [hnil, List.length_nil] at hlen
      exact hne (List.eq_nil_of_length_eq_zero hlen.symm)
    rw [hfile] at hopen
    rw [hpub.not_mistaken (hformat ▸ hp) hg hne' hopen, hformat]

/-- A created Daikatana archive. -/
def created_daikatana : Session :=
  Session.created (pakka_create calm_env CStr.empty .daikatana false)
    (init_pak_header (create_initial .daikatana))

/-- A file with one Quake row, and a Daikatana archive committed with one entry. -/
theorem auto_open_agrees_one :
    AutoAgrees CStr.empty .read one_entry_file 13 64 ∧
      ∀ (path : CStr) (mode : OpenMode) (pak : Archive),
        pakka_open_ex path mode .auto (((created_daikatana.run .storing
          [(calm_env, .add_memory lump_name [1])]).step .storing calm_env .commit).2.files .live) =
            .ok pak → pak.format = .daikatana := by
  obtain ⟨h1, h2⟩ := auto_open_agrees .storing
  constructor
  · exact h1 _ _ _ _ _ ⟨by decide, by decide⟩ (by decide)
  · exact h2 created_daikatana [(calm_env, .add_memory lump_name [1])] calm_env _
      (.created rfl) (Or.inr rfl) (Prod.ext (by decide +kernel) rfl) (Or.inl (by decide +kernel))
      (by decide +kernel) (by decide +kernel)

end Pakka
