/-
The search for the end record of a ZIP.

The scan runs over the tail of the file from its end to its start and takes the first position
where the signature stands in front of a comment length that fits. A record whose comment reaches
the end of the file cannot lie outside the tail, so what the scan finds is the last such record of
the whole file.

So a comment cannot hide the record in front of it unless a record that fits starts later. It may
start in the comment. It may also start in the fields of the record itself: the last two of them
are the comment length, and the first two bytes of a signature are a length like any other.
-/
import Pakka.ZipLoad
import Pakka.Lib.Buffer
import Mathlib.Data.Nat.Find
import Mathlib.Order.Bounds.Defs

set_option autoImplicit false

namespace Pakka

open ByteImage LittleEndian

/-! ## Records that end the file

The notion the scan is compared with: the signature, and a comment length that says where the file
ends.
-/

/-- An end record starts at `off` and its comment reaches the end of the file. -/
structure EndRecordAt (disk : Bytes) (off : ℕ) : Prop where
  signature : slice disk off 4 = PK3_EOCD_SIGNATURE
  reaches : off + PK3_EOCD_SIZE + (get16 (disk.drop (off + 20))).toNat = disk.length

/-- Such a record starts in the tail that is scanned. -/
theorem EndRecordAt.near_end {disk : Bytes} {off : ℕ} (h : EndRecordAt disk off) :
    off + PK3_EOCD_SIZE ≤ disk.length ∧ disk.length ≤ off + PK3_EOCD_SCAN_MAX := by
  have hreach := h.reaches
  have hlt := UInt16.toNat_lt (get16 (disk.drop (off + 20)))
  simp only [PK3_EOCD_SIZE, PK3_EOCD_SCAN_MAX] at hreach ⊢
  omega

/-- The test at a position of the tail is that of the file. -/
theorem pk3_eocd_at_slice {disk : Bytes} {start len i : ℕ} (hend : start + len = disk.length)
    (hi : i + PK3_EOCD_SIZE ≤ len) :
    pk3_eocd_at (slice disk start len) i = true ↔ EndRecordAt disk (start + i) := by
  have h22 : PK3_EOCD_SIZE = 22 := rfl
  have hlen : (slice disk start len).length = len := length_slice_of_le (by omega)
  have hsig : slice (slice disk start len) i 4 = slice disk (start + i) 4 := slice_slice (by omega)
  have hfield : get16 ((slice disk start len).drop (i + 20)) =
      get16 (disk.drop (start + i + 20)) := by
    rw [get16_drop_slice (by omega), Nat.add_assoc]
  rw [pk3_eocd_at, Bool.and_eq_true, decide_eq_true_eq, decide_eq_true_eq, hlen, hsig, hfield]
  constructor
  · rintro ⟨h1, h2⟩
    exact ⟨h1, by omega⟩
  · rintro ⟨h1, h2⟩
    exact ⟨h1, by omega⟩

/-! ## The scan

From the end to the start, so that the first hit is the greatest position.
-/

/-- The scan stops at the greatest position that passes the test. -/
theorem pk3_find_eocd_loop_eq_some {buf : Bytes} {n i : ℕ} :
    pk3_find_eocd_loop buf n = some i ↔
      i < n ∧ pk3_eocd_at buf i = true ∧ ∀ j < n, pk3_eocd_at buf j = true → j ≤ i := by
  induction n with
  | zero => simp [pk3_find_eocd_loop]
  | succ n ih =>
    rw [pk3_find_eocd_loop]
    by_cases hn : pk3_eocd_at buf n = true
    · rw [if_pos hn, Option.some.injEq]
      constructor
      · rintro rfl
        exact ⟨Nat.lt_succ_self n, hn, fun j hj _ => Nat.le_of_lt_succ hj⟩
      · rintro ⟨hlt, -, hmax⟩
        exact Nat.le_antisymm (hmax n (Nat.lt_succ_self n) hn) (Nat.le_of_lt_succ hlt)
    · rw [if_neg hn, ih]
      constructor
      · rintro ⟨hlt, hat, hmax⟩
        refine ⟨Nat.lt_succ_of_lt hlt, hat, ?_⟩
        intro j hj hjat
        rcases Nat.lt_succ_iff_lt_or_eq.mp hj with hj | rfl
        · exact hmax j hj hjat
        · exact absurd hjat hn
      · rintro ⟨hlt, hat, hmax⟩
        refine ⟨?_, hat, fun j hj => hmax j (Nat.lt_succ_of_lt hj)⟩
        rcases Nat.lt_succ_iff_lt_or_eq.mp hlt with hlt | rfl
        · exact hlt
        · exact absurd hat hn

/-- **What is found** is the last record of the file. -/
theorem pk3_find_eocd_eq_some {disk : Bytes} {off : ℕ} :
    pk3_find_eocd disk = some off ↔
      EndRecordAt disk off ∧ ∀ off', EndRecordAt disk off' → off' ≤ off := by
  have h22 : PK3_EOCD_SIZE = 22 := rfl
  have hmax : PK3_EOCD_SCAN_MAX = 65557 := rfl
  unfold pk3_find_eocd
  simp only
  by_cases hshort : disk.length < PK3_EOCD_SIZE
  · rw [if_pos hshort]
    refine iff_of_false (by simp) ?_
    rintro ⟨hrec, -⟩
    have := hrec.near_end.1
    omega
  rw [if_neg hshort]
  generalize hscan : (if disk.length > PK3_EOCD_SCAN_MAX then PK3_EOCD_SCAN_MAX
    else disk.length) = scan_len
  have hlen : PK3_EOCD_SIZE ≤ scan_len ∧ scan_len ≤ disk.length ∧
      (scan_len = disk.length ∨ scan_len = PK3_EOCD_SCAN_MAX) := by
    rw [← hscan]
    split_ifs with h
    · exact ⟨by omega, by omega, Or.inr rfl⟩
    · exact ⟨by omega, Nat.le_refl _, Or.inl rfl⟩
  generalize hstart : disk.length - scan_len = start
  have hat : ∀ i, i < scan_len - PK3_EOCD_SIZE + 1 →
      (pk3_eocd_at (slice disk start scan_len) i = true ↔ EndRecordAt disk (start + i)) := by
    intro i hi
    exact pk3_eocd_at_slice (by omega) (by omega)
  -- a record of the file is one of the tail
  have htail : ∀ off', EndRecordAt disk off' →
      ∃ i, i < scan_len - PK3_EOCD_SIZE + 1 ∧ off' = start + i := by
    intro off' hrec
    have := hrec.near_end
    exact ⟨off' - start, by omega, by omega⟩
  rw [Option.map_eq_some_iff]
  simp only [pk3_find_eocd_loop_eq_some]
  constructor
  · rintro ⟨i, ⟨hi, hrec, hlast⟩, rfl⟩
    refine ⟨(hat i hi).mp hrec, ?_⟩
    intro off' hrec'
    obtain ⟨j, hj, rfl⟩ := htail off' hrec'
    have := hlast j hj ((hat j hj).mpr hrec')
    omega
  · rintro ⟨hrec, hlast⟩
    obtain ⟨i, hi, rfl⟩ := htail off hrec
    refine ⟨i, ⟨hi, (hat i hi).mpr hrec, ?_⟩, rfl⟩
    intro j hj hjrec
    have := hlast _ ((hat j hj).mp hjrec)
    omega

/-- **The search finds every record there is to find.** -/
theorem pk3_find_eocd_isSome {disk : Bytes} :
    (pk3_find_eocd disk).isSome = true ↔ ∃ off, EndRecordAt disk off := by
  constructor
  · intro h
    obtain ⟨off, hoff⟩ := Option.isSome_iff_exists.mp h
    exact ⟨off, (pk3_find_eocd_eq_some.mp hoff).1⟩
  · rintro ⟨off, hrec⟩
    -- the records are bounded by the length of the file, so there is a last one
    have hbound : ∀ off', EndRecordAt disk off' → off' ≤ disk.length := by
      intro off' hrec'
      have := hrec'.near_end.1
      omega
    classical
    have hlast := Nat.findGreatest_spec (hbound off hrec) hrec
    rw [Option.isSome_iff_exists]
    refine ⟨_, pk3_find_eocd_eq_some.mpr ⟨hlast, ?_⟩⟩
    intro off' hrec'
    exact Nat.le_findGreatest (hbound off' hrec') hrec'

/-! ## Checked accesses

The same loop with every access to the tail checked. That it faults nowhere is an equation with the
plain loop.
-/

/-- The scan over `n` bytes that were read, with checked reads. -/
def pk3_find_eocd_loop_checked (buf : Bytes) (scan_len : ℕ) : ℕ → Option (Option ℕ)
  | 0 => some none
  | i + 1 => do
    let signature ← Buffer.load buf i 4
    if signature = PK3_EOCD_SIGNATURE then
      let comment_len ← Buffer.load buf (i + 20) 2
      if i + PK3_EOCD_SIZE + (get16 comment_len).toNat = scan_len then some (some i)
      else pk3_find_eocd_loop_checked buf scan_len i
    else pk3_find_eocd_loop_checked buf scan_len i

/-- `pk3_find_eocd` with its buffer on the stack, filled by a checked write and scanned no further
than it was filled. -/
def pk3_find_eocd_checked (disk stack : Bytes) : Option (Option ℕ) :=
  let file_size := disk.length
  if file_size < PK3_EOCD_SIZE then some none
  else
    let scan_len := if file_size > PK3_EOCD_SCAN_MAX then PK3_EOCD_SCAN_MAX else file_size
    let scan_start := file_size - scan_len
    do
      let bytes ← readExact disk scan_start scan_len
      let buf ← Buffer.store stack 0 bytes
      if scan_len < PK3_EOCD_SIZE then some none
      else
        let hit ← pk3_find_eocd_loop_checked (buf.take scan_len) scan_len
          (scan_len - PK3_EOCD_SIZE + 1)
        some (hit.map (scan_start + ·))

/-- The scan reads inside what was read in. -/
theorem pk3_find_eocd_loop_checked_eq (buf : Bytes) {n : ℕ}
    (hn : n + PK3_EOCD_SIZE ≤ buf.length + 1) :
    pk3_find_eocd_loop_checked buf buf.length n = some (pk3_find_eocd_loop buf n) := by
  have h22 : PK3_EOCD_SIZE = 22 := rfl
  induction n with
  | zero => rfl
  | succ n ih =>
    have ih := ih (by omega)
    rw [pk3_find_eocd_loop_checked, pk3_find_eocd_loop, Buffer.load_of_le (by omega),
      Buffer.load_of_le (by omega), Option.bind_eq_bind, Option.bind_some]
    have hfield : get16 ((buf.drop (n + 20)).take 2) = get16 (buf.drop (n + 20)) :=
      get16_take (Nat.le_refl 2)
    by_cases hsig : slice buf n 4 = PK3_EOCD_SIGNATURE
    · have hload : (buf.drop n).take 4 = PK3_EOCD_SIGNATURE := hsig
      rw [if_pos hload, Option.bind_some, hfield]
      by_cases hreach : n + PK3_EOCD_SIZE + (get16 (buf.drop (n + 20))).toNat = buf.length
      · rw [if_pos hreach, if_pos (by simp [pk3_eocd_at, hsig, hreach])]
      · rw [if_neg hreach, if_neg (by simp [pk3_eocd_at, hsig, hreach]), ih]
    · have hload : ¬ (buf.drop n).take 4 = PK3_EOCD_SIGNATURE := hsig
      rw [if_neg hload, if_neg (by simp [pk3_eocd_at, hsig]), ih]

/-- **The search stays inside its buffer**, however short or long the file is. -/
theorem pk3_find_eocd_checked_eq {disk stack : Bytes} (hstack : stack.length = PK3_EOCD_SCAN_MAX) :
    pk3_find_eocd_checked disk stack = some (pk3_find_eocd disk) := by
  unfold pk3_find_eocd_checked pk3_find_eocd
  simp only
  by_cases hshort : disk.length < PK3_EOCD_SIZE
  · rw [if_pos hshort, if_pos hshort]
  rw [if_neg hshort, if_neg hshort]
  generalize hscan : (if disk.length > PK3_EOCD_SCAN_MAX then PK3_EOCD_SCAN_MAX
    else disk.length) = scan_len
  have hlen : PK3_EOCD_SIZE ≤ scan_len ∧ scan_len ≤ disk.length ∧
      scan_len ≤ PK3_EOCD_SCAN_MAX := by
    rw [← hscan]
    have h22 : PK3_EOCD_SIZE = 22 := rfl
    have hmax : PK3_EOCD_SCAN_MAX = 65557 := rfl
    split_ifs with h
    · omega
    · omega
  have hread : (slice disk (disk.length - scan_len) scan_len).length = scan_len :=
    length_slice_of_le (by omega)
  have hstore := Buffer.store_append [] (slice disk (disk.length - scan_len) scan_len) stack
    (by rw [hread, hstack]; exact hlen.2.2)
  rw [List.nil_append, List.nil_append, List.length_nil] at hstore
  have htake : (slice disk (disk.length - scan_len) scan_len ++
      stack.drop (slice disk (disk.length - scan_len) scan_len).length).take scan_len =
      slice disk (disk.length - scan_len) scan_len := by
    rw [List.take_append_of_le_length (by omega), List.take_of_length_le (by omega)]
  have hloop := pk3_find_eocd_loop_checked_eq (slice disk (disk.length - scan_len) scan_len)
    (n := scan_len - PK3_EOCD_SIZE + 1) (by omega)
  rw [hread] at hloop
  rw [readExact_of_le (by omega), Option.bind_eq_bind, Option.bind_some, hstore,
    Option.bind_eq_bind, Option.bind_some, if_neg (by omega), htake, hloop]
  rfl

/-! ## The search

What `pk3_find_eocd` returns, for every file: the greatest position, or none.
-/

/-- **The search is exact.** It finds the greatest position in the last 65557 bytes at which a
record ends the file, if there is one, and never leaves its buffer. So it returns the record an
archive ends with unless another one starts behind the start of that. -/
theorem end_record_search_exact (disk : Bytes) :
    (∀ off, pk3_find_eocd disk = some off ↔
      IsGreatest {off | disk.length ≤ off + 65557 ∧ EndRecordAt disk off} off) ∧
    ((pk3_find_eocd disk).isSome = true ↔
      ∃ off, disk.length ≤ off + 65557 ∧ EndRecordAt disk off) ∧
    (∀ stack, stack.length = PK3_EOCD_SCAN_MAX →
      pk3_find_eocd_checked disk stack = some (pk3_find_eocd disk)) ∧
    ∀ off, EndRecordAt disk off →
      (pk3_find_eocd disk = some off ↔ ∀ off', off < off' → ¬ EndRecordAt disk off') := by
  have hnear : ∀ off, EndRecordAt disk off → disk.length ≤ off + 65557 :=
    fun off hrec => hrec.near_end.2
  refine ⟨?_, ?_, fun stack => pk3_find_eocd_checked_eq, ?_⟩
  · intro off
    rw [pk3_find_eocd_eq_some]
    constructor
    · rintro ⟨hrec, hlast⟩
      exact ⟨⟨hnear off hrec, hrec⟩, fun off' h => hlast off' h.2⟩
    · rintro ⟨⟨-, hrec⟩, hlast⟩
      exact ⟨hrec, fun off' h => hlast ⟨hnear off' h, h⟩⟩
  · rw [pk3_find_eocd_isSome]
    exact ⟨fun ⟨off, h⟩ => ⟨off, hnear off h, h⟩, fun ⟨off, h⟩ => ⟨off, h.2⟩⟩
  · intro off hrec
    rw [pk3_find_eocd_eq_some]
    constructor
    · rintro ⟨-, hlast⟩ off' hlt hrec'
      exact absurd (hlast off' hrec') (Nat.not_le.mpr hlt)
    · intro hnone
      refine ⟨hrec, ?_⟩
      intro off' hrec'
      by_contra hgt
      exact hnone off' (Nat.not_le.mp hgt) hrec'

/-! ## A signature in the comment length

A record can overlap the one before it in two bytes. The file below has a record that fits there and
another one in front; the rule picks the later, as it says.
-/

/-- The end record of an empty archive whose comment is 0x4B50 bytes long, and the beginning of
that comment. A second signature starts with the two bytes of this length. -/
def straddled_front : Bytes :=
  [0x50, 0x4B, 5, 6, 0, 0, 0, 0, 0, 0, 0, 0, 0, 0, 0, 0, 0, 0, 0, 0, 0x50, 0x4B, 5, 6,
    0, 0, 0, 0, 0, 0, 0, 0, 0, 0, 0, 0, 0, 0, 0, 0, 0x3C, 0x4B]

/-- The archive: the rest of the comment is zero. -/
def straddled : Bytes := straddled_front ++ List.replicate 19260 0

theorem straddled_length : straddled.length = 19302 := by
  rw [straddled, List.length_append, List.length_replicate]
  rfl

/-- The fields of the archive are those of its front. -/
theorem straddled_slice {off n : ℕ} (h : off + n ≤ 42) :
    slice straddled off n = slice straddled_front off n :=
  slice_append_left h

theorem straddled_get16 {off : ℕ} (h : off + 2 ≤ 42) :
    get16 (straddled.drop off) = get16 (straddled_front.drop off) := by
  have hfront : slice straddled 0 42 = straddled_front := straddled_slice (Nat.le_refl 42)
  rw [← hfront, get16_drop_slice h, Nat.zero_add]

theorem straddled_record : EndRecordAt straddled 0 where
  signature := straddled_slice (by decide)
  reaches := by
    rw [straddled_length, straddled_get16 (by decide)]
    decide

theorem straddled_second : EndRecordAt straddled 20 where
  signature := straddled_slice (by decide)
  reaches := by
    rw [straddled_length, straddled_get16 (by decide)]
    decide

/-- Behind the comment length nothing starts like a signature. -/
theorem straddled_none {off : ℕ} (h : 20 < off) : ¬ EndRecordAt straddled off := by
  intro hrec
  have hfirst : straddled[off]? = some 0x50 := by
    have hread := getElem?_slice straddled off 4 0
    rw [hrec.signature, if_pos (by decide)] at hread
    exact hread.symm
  by_cases hfront : off < 42
  · rw [straddled, List.getElem?_append_left hfront] at hfirst
    have hnone : ∀ i < 42, 20 < i → straddled_front[i]? ≠ some 0x50 := by decide
    exact hnone off hfront h hfirst
  · have hlen : straddled_front.length ≤ off := Nat.not_lt.mp hfront
    rw [straddled, List.getElem?_append_right hlen, List.getElem?_replicate] at hfirst
    split_ifs at hfirst
    cases hfirst

/-- The archive's own record is valid and no record lies in its comment, yet the search returns
another one. -/
theorem end_record_search_straddled :
    EndRecordAt straddled 0 ∧ (∃ e, pk3_validate_eocd straddled 0 = .ok e) ∧
      (∀ off, PK3_EOCD_SIZE ≤ off → ¬ EndRecordAt straddled off) ∧
      pk3_find_eocd straddled = some 20 := by
  refine ⟨straddled_record, ⟨⟨0, 0, 0⟩, ?_⟩, ?_, ?_⟩
  · have hread : readExact straddled 0 PK3_EOCD_SIZE = some (slice straddled_front 0 22) := by
      rw [readExact_of_le (by rw [straddled_length]; decide), straddled_slice (by decide)]
    rw [pk3_validate_eocd, hread]
    rfl
  · intro off hoff
    exact straddled_none (Nat.lt_of_lt_of_le (by decide) hoff)
  · rw [pk3_find_eocd_eq_some]
    refine ⟨straddled_second, ?_⟩
    intro off hrec
    by_contra hgt
    exact straddled_none (Nat.not_le.mp hgt) hrec

/-- The search with its buffer, over that archive. -/
theorem end_record_search_exact_straddled :
    pk3_find_eocd_checked straddled (List.replicate PK3_EOCD_SCAN_MAX 0) = some (some 20) := by
  obtain ⟨-, -, hchecked, hlast⟩ := end_record_search_exact straddled
  have hfind := (hlast 20 straddled_second).mpr fun _ => straddled_none
  rw [hchecked _ List.length_replicate, hfind]

end Pakka
