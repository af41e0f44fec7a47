/-
What opening a PAK-class archive accepts and what it delivers, said once as an
equivalence.

`open_pak_iff` is the inversion lemma of the loader under an explicit hint: opening
succeeds exactly when the header is good, every directory row is in range and no name
repeats, and the handle is then `opened_pak`, a function of the file. Everything the
development says about opened archives, and every proof that a file it wrote opens
again, goes through it. An `auto` open that settles on a PAK-class format agrees with the
open under that format (`open_auto_pak`).
-/
import Pakka.PakLoad

set_option autoImplicit false

namespace Pakka

open ByteImage LittleEndian

/-! ## The duplicate check

`strcmp` is a total order on names, so equal names are neighbours after the sort.
-/

theorem strcmp_le_total (a b : Bytes) : strcmp_le a b = true ∨ strcmp_le b a = true := by
  induction a generalizing b with
  | nil => simp [strcmp_le]
  | cons x as ih =>
    cases b with
    | nil => simp [strcmp_le]
    | cons y bs =>
      simp only [strcmp_le, Bool.or_eq_true, Bool.and_eq_true, decide_eq_true_eq,
        UInt8.lt_iff_toNat_lt, ← UInt8.toNat_inj]
      rcases ih bs with h | h <;> simp only [h, and_true] <;> omega

theorem strcmp_le_antisymm {a b : Bytes} (h1 : strcmp_le a b = true)
    (h2 : strcmp_le b a = true) : a = b := by
  induction a generalizing b with
  | nil =>
    cases b with
    | nil => rfl
    | cons y bs => simp [strcmp_le] at h2
  | cons x as ih =>
    cases b with
    | nil => simp [strcmp_le] at h1
    | cons y bs =>
      simp only [strcmp_le, Bool.or_eq_true, Bool.and_eq_true, decide_eq_true_eq,
        UInt8.lt_iff_toNat_lt, ← UInt8.toNat_inj] at h1 h2
      have hxy : x.toNat = y.toNat := by omega
      rw [UInt8.toNat_inj.mp hxy, ih (h1.resolve_left (by omega)).2 (h2.resolve_left (by omega)).2]

theorem strcmp_le_trans {a b c : Bytes} (h1 : strcmp_le a b = true)
    (h2 : strcmp_le b c = true) : strcmp_le a c = true := by
  induction a generalizing b c with
  | nil => simp [strcmp_le]
  | cons x as ih =>
    cases b with
    | nil => simp [strcmp_le] at h1
    | cons y bs =>
      cases c with
      | nil => simp [strcmp_le] at h2
      | cons z cs =>
        simp only [strcmp_le, Bool.or_eq_true, Bool.and_eq_true, decide_eq_true_eq,
          UInt8.lt_iff_toNat_lt, ← UInt8.toNat_inj] at h1 h2 ⊢
        rcases h1 with h1 | ⟨h1, h1'⟩ <;> rcases h2 with h2 | ⟨h2, h2'⟩
        · exact Or.inl (by omega)
        · exact Or.inl (by omega)
        · exact Or.inl (by omega)
        · exact Or.inr ⟨by omega, ih h1' h2'⟩

instance : Std.Total (fun a b : Bytes => strcmp_le a b = true) := ⟨strcmp_le_total⟩

instance : IsTrans Bytes (fun a b => strcmp_le a b = true) :=
  ⟨fun _ _ _ h1 h2 => strcmp_le_trans h1 h2⟩

/-- In a sorted list two equal names are neighbours. -/
theorem adjacent_equal_of_sorted {names : List Bytes}
    (h : names.Pairwise fun a b => strcmp_le a b = true) :
    adjacent_equal names = false ↔ names.Nodup := by
  induction names with
  | nil => simp [adjacent_equal]
  | cons a rest ih =>
    cases rest with
    | nil => simp [adjacent_equal]
    | cons b rest =>
      have hrest := List.Pairwise.of_cons h
      simp only [adjacent_equal, Bool.or_eq_false_iff, decide_eq_false_iff_not]
      rw [ih hrest]
      refine Iff.trans (and_congr_left fun _ => ?_) List.nodup_cons.symm
      constructor
      · intro hab hmem
        rcases List.mem_cons.mp hmem with rfl | hm
        · exact hab rfl
        · -- a ≤ b and b ≤ a, since a occurs after b
          have h1 := List.rel_of_pairwise_cons h List.mem_cons_self
          have h2 := List.rel_of_pairwise_cons hrest hm
          exact hab (strcmp_le_antisymm h1 h2)
      · rintro hmem rfl
        exact hmem List.mem_cons_self

/-- **The sorted scan decides whether names repeat.** -/
theorem has_duplicate_name_eq_false {names : List Bytes} :
    has_duplicate_name names = false ↔ names.Nodup := by
  unfold has_duplicate_name
  rw [adjacent_equal_of_sorted (List.pairwise_insertionSort _ _),
    (List.perm_insertionSort _ names).nodup_iff]

/-- Comparing the bytes of names is comparing names. -/
theorem nodup_filename_bytes {es : List Entry} :
    (es.map fun e => e.filename.bytes).Nodup ↔ (es.map Entry.filename).Nodup := by
  have h : (es.map fun e => e.filename.bytes) = (es.map Entry.filename).map CStr.bytes := by
    rw [List.map_map]
    rfl
  rw [h, List.nodup_map_iff fun _ _ hb => CStr.ext hb]

/-- The check on a handle whose count is right. -/
theorem validate_no_duplicates_ok {pak : Archive}
    (hnum : pak.num_entries.toNat = pak.entries.length) {u : Unit} :
    validate_no_duplicates pak = .ok u ↔
      (pakka_format_is_wad pak.format = false → (pak.entries.map Entry.filename).Nodup) := by
  unfold validate_no_duplicates
  by_cases hw : pakka_format_is_wad pak.format = true
  · rw [if_pos hw, hw]
    simp
  rw [if_neg hw]
  simp only [Bool.not_eq_true] at hw
  simp only [hw, forall_true_left]
  by_cases hn : pak.num_entries.toNat ≤ 1
  · rw [if_pos hn]
    rw [hnum] at hn
    refine iff_of_true rfl ?_
    match pak.entries, hn with
    | [], _ => exact List.nodup_nil
    | [_], _ => exact List.nodup_singleton _
  · rw [if_neg hn, ite_error_eq_ok, hnum, List.take_length, Bool.not_eq_true,
      has_duplicate_name_eq_false, nodup_filename_bytes]
    simp

/-! ## The directory walk

The loop is a map over the rows of the directory, if every row is in range.
-/

/-- The rows of a directory: `n` of them from `pos`. -/
def pak_rows (disk : Bytes) (geom : Geometry) : ℕ → ℕ → List Bytes
  | 0, _ => []
  | n + 1, pos =>
    slice disk pos geom.dir_entry_size :: pak_rows disk geom n (pos + geom.dir_entry_size)

/-- The entries of a directory. -/
def pak_row_entries (disk : Bytes) (format : Format) (geom : Geometry) (n pos : ℕ) : List Entry :=
  (pak_rows disk geom n pos).map (read_pak_row format geom)

theorem length_pak_rows (disk : Bytes) (geom : Geometry) (n pos : ℕ) :
    (pak_rows disk geom n pos).length = n := by
  induction n generalizing pos with
  | zero => rfl
  | succ n ih => simp [pak_rows, ih]

@[simp] theorem length_pak_row_entries (disk : Bytes) (format : Format) (geom : Geometry)
    (n pos : ℕ) : (pak_row_entries disk format geom n pos).length = n := by
  rw [pak_row_entries, List.length_map, length_pak_rows]

/-- The running maximum that becomes `payload_end`. -/
def max_payload_end (start : ℕ) (es : List Entry) : ℕ :=
  es.foldl (fun acc e => max acc e.payloadEnd) start

theorem le_max_payload_end (start : ℕ) (es : List Entry) :
    start ≤ max_payload_end start es ∧ ∀ e ∈ es, e.payloadEnd ≤ max_payload_end start es := by
  induction es generalizing start with
  | nil => simp [max_payload_end]
  | cons e es ih =>
    obtain ⟨h1, h2⟩ := ih (max start e.payloadEnd)
    refine ⟨Nat.le_trans (Nat.le_max_left _ _) h1, ?_⟩
    intro x hx
    rcases List.mem_cons.mp hx with rfl | hx
    · exact Nat.le_trans (Nat.le_max_right _ _) h1
    · exact h2 x hx

/-- The running maximum is attained: by the start or by an entry. -/
theorem max_payload_end_le {start bound : ℕ} {es : List Entry} (h0 : start ≤ bound)
    (h : ∀ e ∈ es, e.payloadEnd ≤ bound) : max_payload_end start es ≤ bound := by
  induction es generalizing start with
  | nil => exact h0
  | cons e es ih =>
    refine ih (Nat.max_le.mpr ⟨h0, h e List.mem_cons_self⟩) ?_
    exact fun x hx => h x (List.mem_cons_of_mem _ hx)

/-- **The walk, inverted.** It succeeds when every row lies in the file and is in range,
and then appends the entries of the rows. -/
theorem load_directory_loop_ok {disk : Bytes} {format : Format} {geom : Geometry}
    (hsize : 0 < geom.dir_entry_size) (n pos : ℕ) (w w' : DirWalk)
    (htail : w.tail = lastIndex w.entries) :
    load_directory_loop disk format geom n pos w = .ok w' ↔
      (n ≠ 0 → pos + n * geom.dir_entry_size ≤ disk.length) ∧
      (∀ e ∈ pak_row_entries disk format geom n pos,
        pak_row_in_range format disk.length e = true) ∧
      w' = { entries := w.entries ++ pak_row_entries disk format geom n pos
             tail := lastIndex (w.entries ++ pak_row_entries disk format geom n pos)
             payload_end :=
               max_payload_end w.payload_end (pak_row_entries disk format geom n pos) } := by
  induction n generalizing pos w with
  | zero =>
    simp only [load_directory_loop, pak_row_entries, pak_rows, List.map_nil, List.append_nil,
      List.not_mem_nil, false_implies, implies_true, true_and, ne_eq, not_true_eq_false,
      Except.ok.injEq, max_payload_end, List.foldl_nil, ← htail]
    exact eq_comm
  | succ n ih =>
    simp only [load_directory_loop, except_bind_eq_ok, orError_eq_ok, ite_error_eq_ok, not_not]
    have hcons : pak_row_entries disk format geom (n + 1) pos =
        read_pak_row format geom (slice disk pos geom.dir_entry_size) ::
          pak_row_entries disk format geom n (pos + geom.dir_entry_size) := rfl
    rw [hcons]
    generalize he : read_pak_row format geom (slice disk pos geom.dir_entry_size) = e
    -- the walk after this row, by the induction hypothesis
    have hrec := ih (pos + geom.dir_entry_size)
      { entries := link_at_tail w.entries w.tail e
        tail := tail_after_link w.tail
        payload_end := if e.payloadEnd > w.payload_end then e.payloadEnd else w.payload_end }
      (by simp only [htail, link_at_tail_last]; exact tail_after_link_last _ _)
    have hmax : (if e.payloadEnd > w.payload_end then e.payloadEnd else w.payload_end) =
        max w.payload_end e.payloadEnd := by
      split_ifs <;> omega
    simp only [htail, link_at_tail_last, hmax, List.append_assoc, List.singleton_append] at hrec
    constructor
    · rintro ⟨row, hrow, hrange, hloop⟩
      obtain ⟨hrow', -⟩ := readExact_eq_some.mp hrow
      have hin := le_of_readExact hsize hrow
      subst hrow'
      rw [he] at hrange hloop
      simp only [htail, link_at_tail_last, hmax] at hloop
      obtain ⟨h1, h2, h3⟩ := hrec.mp hloop
      refine ⟨fun _ => ?_, ?_, h3⟩
      · rcases Nat.eq_zero_or_pos n with rfl | hn
        · omega
        · have := h1 (by omega)
          rw [Nat.succ_mul]
          omega
      · intro x hx
        rcases List.mem_cons.mp hx with rfl | hx
        · exact hrange
        · exact h2 x hx
    · rintro ⟨h1, h2, h3⟩
      have hin := h1 (by omega)
      rw [Nat.succ_mul] at hin
      refine ⟨_, readExact_of_le (by omega), ?_, ?_⟩
      · rw [he]
        exact h2 e List.mem_cons_self
      · rw [he]
        simp only [htail, link_at_tail_last, hmax]
        exact hrec.mpr ⟨fun _ => by omega, fun x hx => h2 x (List.mem_cons_of_mem _ hx), h3⟩

/-! ## The header

What each check leaves, as a structure.
-/

/-- What makes a file's first twelve bytes a good header of a format: where the directory
is and how long. -/
structure PakHeader (disk : Bytes) (format : Format) (geom : Geometry)
    (diroffset dirlength : UInt32) : Prop where
  signature : slice disk 0 4 = geom.signature
  fits : PAKFILE_HEADER_SIZE ≤ disk.length
  words : read_pak_header disk format = .ok (diroffset, dirlength)
  diroffset_ge : PAKFILE_HEADER_SIZE ≤ diroffset.toNat
  in_file : diroffset.toNat + dirlength.toNat ≤ disk.length
  whole_rows : dirlength.toNat % geom.dir_entry_size = 0
  count_le : dirlength.toNat / geom.dir_entry_size ≤ PAKFILE_MAX_ENTRIES

/-- The handle that opening a PAK-class file under an explicit hint delivers. -/
def opened_pak (mode : OpenMode) (format : Format) (geom : Geometry) (disk : Bytes)
    (diroffset dirlength : UInt32) : Archive :=
  let n := dirlength.toNat / geom.dir_entry_size
  let es := pak_row_entries disk format geom n diroffset.toNat
  { open_initial mode format with
    format := format
    signature := geom.signature
    diroffset := diroffset
    dirlength := dirlength
    num_entries := UInt32.ofNat n
    file_size := disk.length
    entries := es
    tail := lastIndex es
    payload_end := max_payload_end PAKFILE_HEADER_SIZE es }

/-- The signatures the loader compares with are those of the geometry table. -/
theorem pak_format_of_signature_explicit {hint format : Format} {geom : Geometry} {sig : Bytes}
    (hg : pakka_pak_geometry hint = some geom) :
    pak_format_of_signature hint sig = .ok format ↔ format = hint ∧ sig = geom.signature := by
  have hs1 : ascii "SPAK" = [0x53, 0x50, 0x41, 0x4B] := by decide
  have hs2 : ascii "PACK" = [0x50, 0x41, 0x43, 0x4B] := by decide
  have hs3 : ascii "IWAD" = [0x49, 0x57, 0x41, 0x44] := by decide
  have hs4 : ascii "PWAD" = [0x50, 0x57, 0x41, 0x44] := by decide
  unfold pak_format_of_signature
  rw [hs1, hs2, hs3, hs4]
  constructor
  · intro h
    cases hint <;> simp only [pakka_pak_geometry, reduceCtorEq, Option.some.injEq] at hg <;>
      subst hg <;> split_ifs at h <;> simp_all
  · rintro ⟨rfl, rfl⟩
    cases format <;> simp only [pakka_pak_geometry, reduceCtorEq, Option.some.injEq] at hg <;>
      subst hg <;> rfl

/-- A directory row count computed in 32 bits is the quotient. -/
theorem row_count_eq {format : Format} {geom : Geometry}
    (hg : pakka_pak_geometry format = some geom) (dirlength : UInt32) :
    dirlength / UInt32.ofNat geom.dir_entry_size =
        UInt32.ofNat (dirlength.toNat / geom.dir_entry_size) ∧
      (UInt32.ofNat (dirlength.toNat / geom.dir_entry_size)).toNat =
        dirlength.toNat / geom.dir_entry_size := by
  obtain ⟨-, -, h1, h2⟩ := geometry_bounds hg
  have hlt : dirlength.toNat / geom.dir_entry_size < 2 ^ 32 :=
    Nat.lt_of_le_of_lt (Nat.div_le_self _ _) (UInt32.toNat_lt _)
  have hq : (UInt32.ofNat (dirlength.toNat / geom.dir_entry_size)).toNat =
      dirlength.toNat / geom.dir_entry_size := by
    rw [UInt32.toNat_ofNat', Nat.mod_eq_of_lt hlt]
  refine ⟨UInt32.toNat_inj.mp ?_, hq⟩
  rw [UInt32.toNat_div, hq, UInt32.toNat_ofNat', Nat.mod_eq_of_lt (by omega)]

/-- The geometry checks, inverted. -/
theorem load_pak_geometry_ok {pak pak' : Archive} {geom : Geometry}
    (hg : pakka_pak_geometry pak.format = some geom) :
    load_pak_geometry pak = .ok pak' ↔
      pak.dirlength.toNat % geom.dir_entry_size = 0 ∧
      pak.dirlength.toNat / geom.dir_entry_size ≤ PAKFILE_MAX_ENTRIES ∧
      pak' = { pak with
        num_entries := UInt32.ofNat (pak.dirlength.toNat / geom.dir_entry_size) } := by
  obtain ⟨h1, h2⟩ := row_count_eq hg pak.dirlength
  simp only [load_pak_geometry, hg, except_bind_eq_ok, orError_eq_ok, Option.some.injEq,
    exists_eq_left', ite_error_eq_ok, except_pure_eq_ok, h1, h2, not_not, ne_eq, not_lt]
  rw [eq_comm (a := pak')]

/-- The PAK-class part of `load_pakfile` under an explicit hint, inverted. -/
theorem load_pak_class_ok {disk : Bytes} {pak pak' : Archive} {geom : Geometry}
    (hg : pakka_pak_geometry pak.format_hint = some geom) (hsize : pak.file_size = disk.length)
    (hsig : readExact disk 0 4 = some pak.signature) :
    load_pak_class disk pak = .ok pak' ↔
      ∃ diroffset dirlength, PakHeader disk pak.format_hint geom diroffset dirlength ∧
        pak' = { pak with
          format := pak.format_hint
          diroffset := diroffset
          dirlength := dirlength
          num_entries := UInt32.ofNat (dirlength.toNat / geom.dir_entry_size) } := by
  have hauto : pak.format_hint ≠ .auto := by
    intro h
    rw [h] at hg
    cases hg
  obtain ⟨hsig', -⟩ := readExact_eq_some.mp hsig
  have hsize12 : PAKFILE_HEADER_SIZE = 12 := rfl
  simp only [load_pak_class, settle_pak_format, except_bind_eq_ok,
    pak_format_of_signature_explicit hg, ite_error_eq_ok, hauto, and_false, if_false,
    Except.ok.injEq, hsize]
  constructor
  · rintro ⟨f, ⟨rfl, hs⟩, ⟨diroffset, dirlength⟩, hw, hoff, hin, _, rfl, hgeo⟩
    simp only at hoff hin
    obtain ⟨h1, h2, rfl⟩ := (load_pak_geometry_ok (by exact hg)).mp hgeo
    refine ⟨diroffset, dirlength, ⟨?_, ?_, hw, by omega, by omega, h1, h2⟩, rfl⟩
    · rw [← hsig', hs]
    · simp only [read_pak_header, except_bind_eq_ok, orError_eq_ok] at hw
      obtain ⟨w1, -, w2, hw2, -⟩ := hw
      exact le_of_readExact (by omega) hw2
  · rintro ⟨diroffset, dirlength, h, rfl⟩
    have hin := h.in_file
    have hge := h.diroffset_ge
    refine ⟨_, ⟨rfl, ?_⟩, (diroffset, dirlength), h.words, by simp only; omega,
      by simp only; omega, _, rfl, ?_⟩
    · rw [hsig', h.signature]
    · exact (load_pak_geometry_ok (by exact hg)).mpr ⟨h.whole_rows, h.count_le, rfl⟩

/-- A PAK-class signature is no ZIP magic. -/
theorem not_zip_magic {format : Format} {geom : Geometry}
    (hg : pakka_pak_geometry format = some geom) : is_zip_magic geom.signature = false := by
  cases format <;> simp only [pakka_pak_geometry, reduceCtorEq, Option.some.injEq] at hg <;>
    subst hg <;> decide

/-- `load_directory` on a handle whose header was good, inverted. -/
theorem load_directory_ok {disk : Bytes} {pak pak' : Archive} {geom : Geometry}
    (hg : pakka_pak_geometry pak.format = some geom) (hes : pak.entries = [])
    (htail : pak.tail = none)
    (hin : pak.diroffset.toNat + pak.num_entries.toNat * geom.dir_entry_size ≤ disk.length) :
    load_directory disk pak = .ok pak' ↔
      (∀ e ∈ pak_row_entries disk pak.format geom pak.num_entries.toNat pak.diroffset.toNat,
        pak_row_in_range pak.format disk.length e = true) ∧
      pak' = { pak with
        entries := pak_row_entries disk pak.format geom pak.num_entries.toNat pak.diroffset.toNat
        tail := lastIndex
          (pak_row_entries disk pak.format geom pak.num_entries.toNat pak.diroffset.toNat)
        payload_end := max_payload_end PAKFILE_HEADER_SIZE
          (pak_row_entries disk pak.format geom pak.num_entries.toNat pak.diroffset.toNat) } := by
  obtain ⟨-, -, hpos, -⟩ := geometry_bounds hg
  unfold load_directory
  simp only
  by_cases h0 : pak.num_entries = 0
  · rw [if_pos h0]
    have hz : pak.num_entries.toNat = 0 := by rw [h0]; rfl
    simp only [except_pure_eq_ok, hz, pak_row_entries, pak_rows, List.map_nil, List.not_mem_nil,
      false_implies, implies_true, true_and, max_payload_end, List.foldl_nil, lastIndex,
      List.length_nil, if_true]
    rw [eq_comm, ← hes, ← htail]
  · rw [if_neg h0]
    simp only [except_bind_eq_ok, orError_eq_ok, hg, Option.some.injEq, exists_eq_left',
      load_directory_loop_ok (Nat.lt_of_lt_of_le (by decide) hpos) _ _ {} _ rfl,
      except_pure_eq_ok, List.nil_append]
    constructor
    · rintro ⟨w, ⟨-, h2, rfl⟩, rfl⟩
      exact ⟨h2, rfl⟩
    · rintro ⟨h2, rfl⟩
      exact ⟨_, ⟨fun _ => hin, h2, rfl⟩, rfl⟩

/-! ## Opening under an explicit hint

The equivalence.
-/

/-- What makes a file open as a PAK-class archive, given its header. -/
structure PakDirectory (disk : Bytes) (format : Format) (geom : Geometry)
    (diroffset dirlength : UInt32) : Prop where
  header : PakHeader disk format geom diroffset dirlength
  in_range : ∀ e ∈ pak_row_entries disk format geom (dirlength.toNat / geom.dir_entry_size)
    diroffset.toNat, pak_row_in_range format disk.length e = true
  nodup : pakka_format_is_wad format = false →
    ((pak_row_entries disk format geom (dirlength.toNat / geom.dir_entry_size)
      diroffset.toNat).map Entry.filename).Nodup

/-- **Opening, inverted.** Under a PAK-class hint a file opens exactly when its header and its
directory are good, and then as `opened_pak`. -/
theorem open_pak_iff {path : CStr} {mode : OpenMode} {hint : Format} {geom : Geometry}
    {disk : Bytes} {pak : Archive} (hg : pakka_pak_geometry hint = some geom) :
    pakka_open_ex path mode hint (some disk) = .ok pak ↔
      path.strlen < OS_PATH_MAX ∧ ∃ diroffset dirlength,
        PakDirectory disk hint geom diroffset dirlength ∧
        pak = opened_pak mode hint geom disk diroffset dirlength := by
  have hzip := not_zip_of_geometry hg
  have hnz : hint ≠ .auto ∧ hint ≠ .pk3 ∧ hint ≠ .pk4 := by
    refine ⟨?_, ?_, ?_⟩ <;> rintro rfl <;> cases hg
  obtain ⟨-, -, hpos, -⟩ := geometry_bounds hg
  have hsize12 : PAKFILE_HEADER_SIZE = 12 := rfl
  simp only [pakka_open_ex, ite_error_eq_ok, not_le, except_bind_eq_ok, orError_eq_ok,
    Option.some.injEq, exists_eq_left', except_pure_eq_ok]
  refine and_congr_right fun hpath => ?_
  constructor
  -- what each check has let through, from the header to the names
  · rintro ⟨pak1, hload, pak2, hdir, u, hdup, rfl⟩
    simp only [load_pakfile, except_bind_eq_ok, orError_eq_ok] at hload
    obtain ⟨sig, hsig, hload⟩ := hload
    by_cases hm : is_zip_magic sig = true
    · rw [if_pos hm, if_pos (by exact hnz)] at hload
      cases hload
    rw [if_neg hm] at hload
    obtain ⟨diroffset, dirlength, hhdr, rfl⟩ := (load_pak_class_ok (by exact hg) rfl hsig).mp hload
    obtain ⟨-, hcount⟩ := row_count_eq hg dirlength
    obtain ⟨hs, -⟩ := readExact_eq_some.mp hsig
    have hs' : sig = geom.signature := by rw [hs]; exact hhdr.signature
    subst hs'
    simp only [load_entries, open_initial, hzip, Bool.false_eq_true, if_false] at hdir
    have hwhole : dirlength.toNat / geom.dir_entry_size * geom.dir_entry_size =
        dirlength.toNat := Nat.div_mul_cancel (Nat.dvd_of_mod_eq_zero hhdr.whole_rows)
    have hin := hhdr.in_file
    obtain ⟨hrange, rfl⟩ := (load_directory_ok (by exact hg) rfl rfl
      (by simp only [hcount, hwhole]; exact hin)).mp hdir
    simp only [hcount] at hrange hdup ⊢
    refine ⟨diroffset, dirlength, ⟨hhdr, hrange, ?_⟩, rfl⟩
    exact (validate_no_duplicates_ok (by simp only [hcount, length_pak_row_entries])).mp hdup
  -- and back: the handles between the stages are given, the stages have their own equivalences
  · rintro ⟨diroffset, dirlength, h, rfl⟩
    obtain ⟨-, hcount⟩ := row_count_eq hg dirlength
    have hhdr := h.header
    have hin := hhdr.in_file
    have hfits := hhdr.fits
    have hwhole : dirlength.toNat / geom.dir_entry_size * geom.dir_entry_size =
        dirlength.toNat := Nat.div_mul_cancel (Nat.dvd_of_mod_eq_zero hhdr.whole_rows)
    have hsig : readExact disk 0 4 = some geom.signature := by
      rw [readExact_of_le (by omega), hhdr.signature]
    refine ⟨{ open_initial mode hint with
      format := hint, signature := geom.signature, diroffset := diroffset
      dirlength := dirlength, file_size := disk.length
      num_entries := UInt32.ofNat (dirlength.toNat / geom.dir_entry_size) }, ?_,
      opened_pak mode hint geom disk diroffset dirlength, ?_, (), ?_, rfl⟩
    · simp only [load_pakfile, except_bind_eq_ok, orError_eq_ok]
      refine ⟨_, hsig, ?_⟩
      rw [not_zip_magic hg, if_neg (by simp)]
      exact (load_pak_class_ok (by exact hg) rfl hsig).mpr ⟨diroffset, dirlength, hhdr, rfl⟩
    · simp only [load_entries, hzip, Bool.false_eq_true, if_false]
      refine (load_directory_ok (by exact hg) rfl rfl
        (by simp only [hcount, hwhole]; exact hin)).mpr ?_
      simp only [hcount]
      exact ⟨h.in_range, rfl⟩
    · exact (validate_no_duplicates_ok
        (by simp only [opened_pak, hcount, length_pak_row_entries])).mpr h.nodup

/-! ## Opening under an `auto` hint

The format it settles on, and from there the same equivalence.
-/

/-- What the signature and the probe settle on has the signature as its magic, and the header
words were read the way that format orders them. -/
theorem settled_format {disk : Bytes} {sig : Bytes} {format0 format : Format}
    {hdr : UInt32 × UInt32} (hsig : pak_format_of_signature .auto sig = .ok format0)
    (hwords : read_pak_header disk format0 = .ok hdr)
    (hsettle : settle_pak_format disk .auto format0 hdr.1 hdr.2 = .ok format) :
    ∃ geom, pakka_pak_geometry format = some geom ∧ sig = geom.signature ∧
      read_pak_header disk format = .ok hdr := by
  have hpack : (format0 = .pak ∨ format0 = .daikatana) →
      probe_pack_format disk hdr.1 hdr.2 = .ok format → format = .pak ∨ format = .daikatana := by
    intro _ hp
    unfold probe_pack_format at hp
    split_ifs at hp
    · exact Or.inl (Except.ok.inj hp).symm
    · simp only [pakka_pak_geometry] at hp
      split at hp
      · cases hp
      · exact Or.inl (Except.ok.inj hp).symm
      · exact Or.inr (Except.ok.inj hp).symm
      · cases hp
  unfold pak_format_of_signature at hsig
  simp only [ne_eq, not_true_eq_false, false_and, reduceCtorEq, if_false] at hsig
  unfold settle_pak_format at hsettle
  split_ifs at hsig with h1 h2 h3 h4 h5
  · obtain rfl := Except.ok.inj hsig
    simp only [reduceCtorEq, or_self, false_and, if_false, Except.ok.injEq] at hsettle
    subst hsettle
    exact ⟨_, rfl, h2.trans (by decide), hwords⟩
  · obtain rfl := Except.ok.inj hsig
    -- Quake and Daikatana read the header words alike
    rcases hpack (Or.inl rfl) (by simpa using hsettle) with rfl | rfl
    · exact ⟨_, rfl, h3.trans (by decide), hwords⟩
    · exact ⟨_, rfl, h3.trans (by decide), hwords⟩
  · obtain rfl := Except.ok.inj hsig
    simp only [reduceCtorEq, or_self, false_and, if_false, Except.ok.injEq] at hsettle
    subst hsettle
    exact ⟨_, rfl, h4.trans (by decide), hwords⟩
  · obtain rfl := Except.ok.inj hsig
    simp only [reduceCtorEq, or_self, false_and, if_false, Except.ok.injEq] at hsettle
    subst hsettle
    exact ⟨_, rfl, h5.trans (by decide), hwords⟩

/-- The PAK-class part of `load_pakfile` under an `auto` hint finds a good header. -/
theorem load_pak_class_auto {disk : Bytes} {pak pak' : Archive} (hauto : pak.format_hint = .auto)
    (hsize : pak.file_size = disk.length) (hsig : readExact disk 0 4 = some pak.signature)
    (h : load_pak_class disk pak = .ok pak') :
    ∃ format geom diroffset dirlength, pakka_pak_geometry format = some geom ∧
      PakHeader disk format geom diroffset dirlength ∧
      pak' = { pak with
        format := format
        diroffset := diroffset
        dirlength := dirlength
        num_entries := UInt32.ofNat (dirlength.toNat / geom.dir_entry_size) } := by
  have hsize12 : PAKFILE_HEADER_SIZE = 12 := rfl
  obtain ⟨hsig', -⟩ := readExact_eq_some.mp hsig
  simp only [load_pak_class, except_bind_eq_ok, ite_error_eq_ok, hauto, hsize] at h
  obtain ⟨format0, hf0, ⟨diroffset, dirlength⟩, hw, hoff, hin, format, hsettle, hgeo⟩ := h
  simp only at hoff hin
  obtain ⟨geom, hg, hs, hw'⟩ := settled_format hf0 hw hsettle
  obtain ⟨h1, h2, rfl⟩ := (load_pak_geometry_ok (by exact hg)).mp hgeo
  refine ⟨format, geom, diroffset, dirlength, hg, ⟨?_, ?_, hw', by omega, by omega, h1, h2⟩, ?_⟩
  · rw [← hsig', hs]
  · simp only [read_pak_header, except_bind_eq_ok, orError_eq_ok] at hw
    obtain ⟨w1, -, w2, hw2, -⟩ := hw
    exact le_of_readExact (by omega) hw2
  · rw [hauto, hsize]

/-- Loading a ZIP directory does not change the format. -/
theorem pakka_pk3_open_impl_format {disk : Bytes} {pak pak' : Archive}
    (h : pakka_pk3_open_impl disk pak = .ok pak') : pak'.format = pak.format := by
  simp only [pakka_pk3_open_impl, except_bind_eq_ok, orError_eq_ok] at h
  obtain ⟨off, -, hdr, -, h⟩ := h
  unfold pk3_load_cdr at h
  split_ifs at h
  · rw [← Except.ok.inj h]
  · simp only [except_bind_eq_ok, orError_eq_ok, ite_error_eq_ok, except_pure_eq_ok] at h
    obtain ⟨cdr, -, w, -, -, es, -, rfl⟩ := h
    rfl

/-- **An `auto` open that settles on a PAK-class format** is the open under that format. -/
theorem open_auto_pak {path : CStr} {mode : OpenMode} {file : Option Bytes} {pak : Archive}
    (h : pakka_open_ex path mode .auto file = .ok pak) (hcls : IsPakClass pak.format) :
    pakka_open_ex path mode pak.format file = .ok { pak with format_hint := pak.format } := by
  simp only [pakka_open_ex, ite_error_eq_ok, not_le, except_bind_eq_ok, orError_eq_ok,
    except_pure_eq_ok] at h
  obtain ⟨hpath, disk, rfl, pak1, hload, pak2, hdir, u, hdup, rfl⟩ := h
  simp only [load_pakfile, except_bind_eq_ok, orError_eq_ok] at hload
  obtain ⟨sig, hsig, hload⟩ := hload
  by_cases hm : is_zip_magic sig = true
  · -- a ZIP archive is not of a PAK-class format
    exfalso
    rw [if_pos hm, if_neg (by simp [open_initial])] at hload
    have hf := pakka_pk3_open_impl_format hload
    have hz : pakka_format_is_zip pak1.format = true := by
      rw [hf]
      simp only [open_initial, reduceCtorEq, or_self, if_false, pakka_zip_format_from_path]
      split_ifs <;> rfl
    rw [load_entries, if_pos hz] at hdir
    obtain rfl := Except.ok.inj hdir
    obtain ⟨g, hg⟩ := Option.isSome_iff_exists.mp hcls
    rw [not_zip_of_geometry hg] at hz
    cases hz
  rw [if_neg hm] at hload
  obtain ⟨format, geom, diroffset, dirlength, hg, hhdr, rfl⟩ :=
    load_pak_class_auto rfl rfl hsig hload
  obtain ⟨hs, -⟩ := readExact_eq_some.mp hsig
  have hs' : sig = geom.signature := by rw [hs]; exact hhdr.signature
  subst hs'
  obtain ⟨-, hcount⟩ := row_count_eq hg dirlength
  have hwhole : dirlength.toNat / geom.dir_entry_size * geom.dir_entry_size =
      dirlength.toNat := Nat.div_mul_cancel (Nat.dvd_of_mod_eq_zero hhdr.whole_rows)
  have hin := hhdr.in_file
  simp only [load_entries, not_zip_of_geometry hg, Bool.false_eq_true, if_false] at hdir
  obtain ⟨hrange, rfl⟩ := (load_directory_ok (by exact hg) rfl rfl
    (by simp only [hcount, hwhole]; exact hin)).mp hdir
  simp only [hcount] at hrange hdup ⊢
  refine (open_pak_iff hg).mpr ⟨hpath, diroffset, dirlength, ⟨hhdr, hrange, ?_⟩, rfl⟩
  exact (validate_no_duplicates_ok (by simp only [hcount, length_pak_row_entries])).mp hdup

/-- The format of a ZIP archive under a hint. -/
def zip_format (path : CStr) (format_hint : Format) : Format :=
  if format_hint = .pk3 ∨ format_hint = .pk4 then format_hint else pakka_zip_format_from_path path

theorem zip_format_is_zip (path : CStr) (format_hint : Format) :
    pakka_format_is_zip (zip_format path format_hint) = true := by
  unfold zip_format pakka_zip_format_from_path
  split_ifs with h1
  · rcases h1 with rfl | rfl <;> rfl
  · rfl
  · rfl

/-- Without a ZIP magic, what loads has a geometry row. -/
theorem load_pak_class_geometry {disk : Bytes} {pak pak' : Archive}
    (h : load_pak_class disk pak = .ok pak') :
    ∃ geom, pakka_pak_geometry pak'.format = some geom := by
  simp only [load_pak_class, except_bind_eq_ok, ite_error_eq_ok] at h
  obtain ⟨_, -, _, -, -, -, format, -, h⟩ := h
  simp only [load_pak_geometry, except_bind_eq_ok, orError_eq_ok, ite_error_eq_ok,
    except_pure_eq_ok] at h
  obtain ⟨geom, hg, -, -, rfl⟩ := h
  exact ⟨geom, hg⟩

/-- Loading the directory keeps the format. -/
theorem load_entries_format {disk : Bytes} {pak pak' : Archive}
    (h : load_entries disk pak = .ok pak') : pak'.format = pak.format := by
  unfold load_entries at h
  split_ifs at h
  · rw [Except.ok.inj h]
  · simp only [load_directory] at h
    split_ifs at h
    · obtain rfl := except_pure_eq_ok.mp h
      rfl
    · simp only [except_bind_eq_ok, except_pure_eq_ok] at h
      obtain ⟨_, -, _, -, rfl⟩ := h
      rfl

/-- An archive opens as ZIP or with a geometry row. -/
theorem open_format_class {path : CStr} {mode : OpenMode} {hint : Format} {file : Option Bytes}
    {pak : Archive} (h : pakka_open_ex path mode hint file = .ok pak) :
    pakka_format_is_zip pak.format = true ∨ ∃ geom, pakka_pak_geometry pak.format = some geom := by
  simp only [pakka_open_ex, ite_error_eq_ok, except_bind_eq_ok, orError_eq_ok,
    except_pure_eq_ok] at h
  obtain ⟨-, disk, -, pak1, hload, pak2, hdir, -, -, rfl⟩ := h
  rw [load_entries_format hdir]
  simp only [load_pakfile, except_bind_eq_ok, orError_eq_ok] at hload
  obtain ⟨sig, -, hload⟩ := hload
  by_cases hm : is_zip_magic sig = true
  · left
    rw [if_pos hm, ite_error_eq_ok] at hload
    rw [pakka_pk3_open_impl_format hload.2]
    exact zip_format_is_zip path hint
  · rw [if_neg hm] at hload
    exact Or.inr (load_pak_class_geometry hload)

end Pakka
