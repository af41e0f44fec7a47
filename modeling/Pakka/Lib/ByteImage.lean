/-
File images as byte lists, with the three things a program does to one:
read a range, write a range at a position, and look at what a write left alone.

A write follows the POSIX rule: bytes past the old end appear, a gap between
the old end and the position of the write is filled with zeros, and a write of
no bytes changes nothing. Every lemma about `overwrite` comes from one
characterisation, `getElem?_overwrite`, byte by byte.

A file here is its bytes and nothing else. The lemmas are of two kinds, about what is read back
after a write and about what a write leaves alone; `SameBetween` states the second kind for a range,
so that it can be passed along a sequence of writes.
-/
import Mathlib.Data.List.Basic
import Mathlib.Tactic.SplitIfs
import Mathlib.Tactic.Push

set_option autoImplicit false

namespace ByteImage

/-- The contents of a file. -/
abbrev Bytes := List UInt8

/-! ## Ranges

A slice that reaches beyond the end is shorter.
-/

/-- The `n` bytes of `f` from `off`, fewer where the file ends first. -/
def slice (f : Bytes) (off n : ℕ) : Bytes := (f.drop off).take n

/-- A read that must deliver all `n` bytes. -/
def readExact (f : Bytes) (off n : ℕ) : Option Bytes :=
  if (slice f off n).length = n then some (slice f off n) else none

@[simp] theorem slice_zero_len (f : Bytes) (off : ℕ) : slice f off 0 = [] := by
  simp [slice]

theorem length_slice (f : Bytes) (off n : ℕ) :
    (slice f off n).length = min n (f.length - off) := by
  simp [slice]

/-- Inside the file a range has the length asked for. -/
theorem length_slice_of_le {f : Bytes} {off n : ℕ} (h : off + n ≤ f.length) :
    (slice f off n).length = n := by
  rw [length_slice]
  omega

theorem getElem?_slice (f : Bytes) (off n i : ℕ) :
    (slice f off n)[i]? = if i < n then f[off + i]? else none := by
  unfold slice
  rw [List.getElem?_take]
  split_ifs
  · rw [List.getElem?_drop]
  · rfl

/-- Two files agree on a range as soon as they agree on every byte of it. -/
theorem slice_congr {f g : Bytes} {a b n : ℕ}
    (h : ∀ i, i < n → f[a + i]? = g[b + i]?) : slice f a n = slice g b n := by
  apply List.ext_getElem?
  intro i
  rw [getElem?_slice, getElem?_slice]
  split_ifs with hi
  · exact h i hi
  · rfl

/-- A range of a range is a range. -/
theorem slice_slice {f : Bytes} {a n b m : ℕ} (h : b + m ≤ n) :
    slice (slice f a n) b m = slice f (a + b) m := by
  apply List.ext_getElem?
  intro i
  rw [getElem?_slice, getElem?_slice, getElem?_slice]
  split_ifs with h1 h2
  · rw [Nat.add_assoc]
  · omega
  · rfl

/-- Consecutive ranges concatenate. -/
theorem slice_append_slice (f : Bytes) (a n m : ℕ) :
    slice f a n ++ slice f (a + n) m = slice f a (n + m) := by
  unfold slice
  rw [List.take_add, List.drop_drop]

theorem slice_append_left {f g : Bytes} {a n : ℕ} (h : a + n ≤ f.length) :
    slice (f ++ g) a n = slice f a n := by
  apply slice_congr
  intro i hi
  rw [List.getElem?_append_left (by omega)]

/-- A range past the first part lies in the second. -/
theorem slice_append_right (f g : Bytes) (a n : ℕ) :
    slice (f ++ g) (f.length + a) n = slice g a n := by
  apply slice_congr
  intro i _
  rw [List.getElem?_append_right (by omega)]
  congr 1
  omega

theorem slice_full (f : Bytes) : slice f 0 f.length = f := by
  simp [slice]

/-- What stands between two known parts is found at the length of the first. -/
theorem slice_mid (f g h : Bytes) : slice (f ++ (g ++ h)) f.length g.length = g := by
  have h1 := slice_append_right f (g ++ h) 0 g.length
  rw [Nat.add_zero] at h1
  rw [h1, slice_append_left (by simp), slice_full]

theorem slice_take {f : Bytes} {a n k : ℕ} (h : a + n ≤ k) :
    slice (f.take k) a n = slice f a n := by
  apply slice_congr
  intro i hi
  rw [List.getElem?_take, if_pos (by omega)]

theorem take_slice (f : Bytes) (a n k : ℕ) : (slice f a n).take k = slice f a (min k n) := by
  unfold slice
  rw [List.take_take]

theorem drop_slice (f : Bytes) (a n k : ℕ) : (slice f a n).drop k = slice f (a + k) (n - k) := by
  unfold slice
  rw [List.drop_take, List.drop_drop]

/-! ## Exact reads

A read that is short is a failure.
-/

theorem readExact_eq_some {f : Bytes} {off n : ℕ} {bs : Bytes} :
    readExact f off n = some bs ↔ bs = slice f off n ∧ bs.length = n := by
  unfold readExact
  split_ifs with h
  · constructor
    · intro hs
      obtain rfl := Option.some.inj hs
      exact ⟨rfl, h⟩
    · rintro ⟨rfl, -⟩
      rfl
  · constructor
    · intro hs
      cases hs
    · rintro ⟨rfl, hl⟩
      exact absurd hl h

theorem readExact_of_le {f : Bytes} {off n : ℕ} (h : off + n ≤ f.length) :
    readExact f off n = some (slice f off n) :=
  readExact_eq_some.mpr ⟨rfl, length_slice_of_le h⟩

/-- A read of at least one byte that succeeds stays inside the file. -/
theorem le_of_readExact {f : Bytes} {off n : ℕ} {bs : Bytes} (hn : 0 < n)
    (h : readExact f off n = some bs) : off + n ≤ f.length := by
  obtain ⟨rfl, hl⟩ := readExact_eq_some.mp h
  rw [length_slice] at hl
  omega

/-- Exact reads only see the range they cover. -/
theorem readExact_congr {f g : Bytes} {a b n : ℕ} (h : slice f a n = slice g b n) :
    readExact f a n = readExact g b n := by
  unfold readExact
  rw [h]

/-! ## Positioned writes

The characterisation, and what follows from it for lengths and ranges.
-/

/-- Write `bs` at `off`. -/
def overwrite (f : Bytes) (off : ℕ) (bs : Bytes) : Bytes :=
  if bs = [] then f
  else f.take off ++ List.replicate (off - f.length) 0 ++ bs ++ f.drop (off + bs.length)

@[simp] theorem overwrite_nil (f : Bytes) (off : ℕ) : overwrite f off [] = f := by
  simp [overwrite]

/-- **Byte by byte.** What a non-empty write leaves at each position. -/
theorem getElem?_overwrite {f bs : Bytes} (off i : ℕ) (hbs : bs ≠ []) :
    (overwrite f off bs)[i]? =
      if i < off then (if i < f.length then f[i]? else some 0)
      else if i < off + bs.length then bs[i - off]? else f[i]? := by
  rw [overwrite, if_neg hbs]
  have hlen : (f.take off ++ List.replicate (off - f.length) (0 : UInt8)).length = off := by
    simp only [List.length_append, List.length_take, List.length_replicate]
    omega
  split_ifs with h1 h2 h3
  · rw [List.append_assoc, List.append_assoc, List.getElem?_append_left
      (by rw [List.length_take]; omega), List.getElem?_take, if_pos h1]
  · rw [List.append_assoc, List.getElem?_append_left (by rw [hlen]; exact h1),
      List.getElem?_append_right (by rw [List.length_take]; omega), List.getElem?_replicate,
      if_pos (by rw [List.length_take]; omega)]
  · rw [List.getElem?_append_left (by rw [List.length_append, hlen]; exact h3),
      List.getElem?_append_right (by rw [hlen]; omega), hlen]
  · rw [List.getElem?_append_right (by rw [List.length_append, hlen]; omega),
      List.length_append, hlen, List.getElem?_drop]
    congr 1
    omega

theorem length_overwrite (f bs : Bytes) (off : ℕ) :
    (overwrite f off bs).length = if bs = [] then f.length else max f.length (off + bs.length) := by
  unfold overwrite
  split_ifs with h
  · rfl
  · simp only [List.length_append, List.length_take, List.length_replicate, List.length_drop]
    omega

/-- A write never shortens a file. -/
theorem length_le_overwrite (f bs : Bytes) (off : ℕ) : f.length ≤ (overwrite f off bs).length := by
  rw [length_overwrite]
  split_ifs
  · exact Nat.le_refl _
  · exact Nat.le_max_left _ _

/-- A range that ends before the write is left alone. -/
theorem slice_overwrite_before {f bs : Bytes} {off a n : ℕ} (h : a + n ≤ off)
    (hf : a + n ≤ f.length) : slice (overwrite f off bs) a n = slice f a n := by
  by_cases hbs : bs = []
  · rw [hbs, overwrite_nil]
  · apply slice_congr
    intro i hi
    rw [getElem?_overwrite off _ hbs, if_pos (by omega), if_pos (by omega)]

/-- A range that starts after the write is left alone. -/
theorem slice_overwrite_after {f bs : Bytes} {off a n : ℕ} (h : off + bs.length ≤ a) :
    slice (overwrite f off bs) a n = slice f a n := by
  by_cases hbs : bs = []
  · rw [hbs, overwrite_nil]
  · apply slice_congr
    intro i _
    rw [getElem?_overwrite off _ hbs, if_neg (by omega), if_neg (by omega)]

/-- What was written is what is found. -/
theorem slice_overwrite_self (f bs : Bytes) (off : ℕ) :
    slice (overwrite f off bs) off bs.length = bs := by
  by_cases hbs : bs = []
  · rw [hbs, overwrite_nil]
    simp
  · apply List.ext_getElem?
    intro i
    rw [getElem?_slice]
    split_ifs with hi
    · rw [getElem?_overwrite off _ hbs, if_neg (by omega), if_pos (by omega)]
      congr 1
      omega
    · rw [List.getElem?_eq_none (by omega)]

/-- Writing at the end appends. -/
theorem overwrite_at_end (f bs : Bytes) : overwrite f f.length bs = f ++ bs := by
  unfold overwrite
  split_ifs with h
  · simp [h]
  · simp

/-- Two writes in a row are one write of both. -/
theorem overwrite_overwrite_adjacent (f bs cs : Bytes) (off : ℕ) :
    overwrite (overwrite f off bs) (off + bs.length) cs = overwrite f off (bs ++ cs) := by
  by_cases hbs : bs = []
  · simp [hbs]
  by_cases hcs : cs = []
  · simp [hcs]
  have hne : bs ++ cs ≠ [] := by simp [hbs]
  have hpos : 0 < bs.length := List.length_pos_iff.mpr hbs
  apply List.ext_getElem?
  intro i
  rw [getElem?_overwrite _ i hcs, getElem?_overwrite off i hbs, getElem?_overwrite off i hne,
    length_overwrite, if_neg hbs, List.length_append]
  by_cases h1 : i < off
  · rw [if_pos (by omega), if_pos (by omega), if_pos h1, if_pos h1]
  by_cases h2 : i < off + bs.length
  · rw [if_pos h2, if_pos (by omega), if_neg h1, if_pos h2, if_neg h1, if_pos (by omega),
      List.getElem?_append_left (by omega)]
  rw [if_neg h2, if_neg h1, if_neg h2, if_neg h1, ← Nat.add_assoc]
  split_ifs
  · rw [List.getElem?_append_right (by omega)]
    congr 1
    omega
  · rfl

/-! ## Frames

What is the same in two images between two positions.
-/

/-- Two files agree from `lo` to `hi`, as far as the first goes, and the second is no
shorter. -/
def SameBetween (lo hi : ℕ) (f g : Bytes) : Prop :=
  f.length ≤ g.length ∧
    ∀ a n, lo ≤ a → a + n ≤ hi → a + n ≤ f.length → slice g a n = slice f a n

theorem SameBetween.refl (lo hi : ℕ) (f : Bytes) : SameBetween lo hi f f :=
  ⟨Nat.le_refl _, fun _ _ _ _ _ => rfl⟩

theorem SameBetween.trans {lo hi : ℕ} {f g h : Bytes} (hfg : SameBetween lo hi f g)
    (hgh : SameBetween lo hi g h) : SameBetween lo hi f h := by
  refine ⟨Nat.le_trans hfg.1 hgh.1, fun a n h1 h2 h3 => ?_⟩
  rw [hgh.2 a n h1 h2 (Nat.le_trans h3 hfg.1), hfg.2 a n h1 h2 h3]

theorem SameBetween.mono {lo lo' hi hi' : ℕ} {f g : Bytes} (h : SameBetween lo hi f g)
    (hlo : lo ≤ lo') (hhi : hi' ≤ hi) : SameBetween lo' hi' f g :=
  ⟨h.1, fun a n h1 h2 h3 => h.2 a n (Nat.le_trans hlo h1) (Nat.le_trans h2 hhi) h3⟩

/-- A write outside of the frame. -/
theorem sameBetween_overwrite {f bs : Bytes} {lo hi off : ℕ}
    (h : off + bs.length ≤ lo ∨ hi ≤ off) : SameBetween lo hi f (overwrite f off bs) := by
  refine ⟨length_le_overwrite _ _ _, fun a n h1 h2 h3 => ?_⟩
  rcases h with h | h
  · exact slice_overwrite_after (by omega)
  · exact slice_overwrite_before (by omega) h3

end ByteImage
