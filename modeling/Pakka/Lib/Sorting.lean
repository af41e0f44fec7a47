/-
Sorting of cells.

The first half is the counting sort. The items `0`, `1`, ... have keys, and the cells of the
output are divided into one run per key. `scatter` puts each item in the next free cell of its
key's run. With runs that are as long as their keys are frequent, an item lands at the start of
its run plus its rank among the items of its key, and every cell of the output is written once.

The second half is what any sort that swaps cells keeps: a range of cells with the contents it
had, in another order.
-/
import Pakka.Lib.CanonicalCode
import Pakka.Lib.Cells
import Mathlib.Logic.Equiv.Basic

set_option autoImplicit false

namespace CountingSort

open Function Cells

variable {α : Type*} [Zero α]

/-- Put the items below `n` in their cells: the next free cell of each key, and the output. An
item without a key is left out. -/
def scatter (key : ℕ → Option ℕ) (val : ℕ → α) :
    ℕ → List ℕ × List α → List ℕ × List α
  | 0, s => s
  | i + 1, s =>
    let s := scatter key val i s
    match key i with
    | none => s
    | some k => (write s.1 k (read s.1 k + 1), write s.2 (read s.1 k) (val i))

/-- How often a key occurs below `n`. -/
def freq (key : ℕ → Option ℕ) (n k : ℕ) : ℕ := Nat.count (fun i => key i = some k) n

/-- The cells in front of a run. -/
def below (cnt : ℕ → ℕ) : ℕ → ℕ
  | 0 => 0
  | k + 1 => below cnt k + cnt k

/-- The cell of an item. -/
def cell (key : ℕ → Option ℕ) (off : List ℕ) (k i : ℕ) : ℕ := read off k + freq key i k

variable {key : ℕ → Option ℕ} {val : ℕ → α} {off : List ℕ} {out : List α}

theorem freq_succ (n k : ℕ) : freq key (n + 1) k = freq key n k + if key n = some k then 1 else 0 :=
  Nat.count_succ _ _

theorem freq_le {m n : ℕ} (h : m ≤ n) (k : ℕ) : freq key m k ≤ freq key n k :=
  Nat.count_monotone _ h

theorem freq_lt {i n k : ℕ} (h : i < n) (hk : key i = some k) : freq key i k < freq key n k :=
  Nat.count_strict_mono (p := fun i => key i = some k) hk h

/-- The runs do not overlap. -/
def Apart (key : ℕ → Option ℕ) (off : List ℕ) (n : ℕ) : Prop :=
  ∀ k l, k < l → 0 < freq key n k → 0 < freq key n l →
    read off k + freq key n k ≤ read off l

theorem scatter_none {n : ℕ} (s : List ℕ × List α) (h : key n = none) :
    scatter key val (n + 1) s = scatter key val n s := by
  rw [scatter, h]

theorem scatter_some {n k : ℕ} (s : List ℕ × List α) (h : key n = some k) :
    scatter key val (n + 1) s =
      (write (scatter key val n s).1 k (read (scatter key val n s).1 k + 1),
        write (scatter key val n s).2 (read (scatter key val n s).1 k) (val n)) := by
  rw [scatter, h]

theorem scatter_off (n k : ℕ) :
    read (scatter key val n (off, out)).1 k = read off k + freq key n k := by
  induction n with
  | zero => simp [scatter, freq]
  | succ n ih =>
    rw [freq_succ]
    cases hk : key n with
    | none => simp [scatter_none _ hk, ih]
    | some l =>
      rw [scatter_some _ hk, read_write]
      by_cases hl : k = l
      · subst hl
        rw [update_self, ih, if_pos rfl, Nat.add_assoc]
      · rw [update_of_ne hl, ih, if_neg (by simpa using Ne.symm hl), Nat.add_zero]

/-- Two items are in one cell only when they are one item. -/
theorem Apart.cell_inj {n i j k l : ℕ} (h : Apart key off n) (hi : i < n) (hj : j < n)
    (hk : key i = some k) (hl : key j = some l) (hcell : cell key off k i = cell key off l j) :
    i = j := by
  have hik := freq_lt hi hk
  have hjl := freq_lt hj hl
  rw [cell, cell] at hcell
  rcases Nat.lt_trichotomy k l with hlt | heq | hgt
  · have := h k l hlt (by omega) (by omega)
    omega
  · subst heq
    exact Nat.count_injective (p := fun i => key i = some k) hk hl
      (by rw [freq, freq] at hcell; omega)
  · have := h l k hgt (by omega) (by omega)
    omega

theorem Apart.mono {m n : ℕ} (h : Apart key off n) (hmn : m ≤ n) : Apart key off m := by
  intro k l hkl hk hl
  have hkn : freq key m k ≤ freq key n k := freq_le hmn k
  have := h k l hkl (by omega) (lt_of_lt_of_le hl (freq_le hmn l))
  omega

/-- **Where an item lands.** -/
theorem Apart.scatter_cell {n i k : ℕ} (h : Apart key off n) (hi : i < n) (hk : key i = some k) :
    read (scatter key val n (off, out)).2 (cell key off k i) = val i := by
  induction n with
  | zero => omega
  | succ n ih =>
    by_cases hin : i = n
    · subst hin
      rw [scatter_some _ hk, scatter_off, cell, read_write, update_self]
    · have hkeep := ih (h.mono (Nat.le_succ n)) (by omega)
      cases hn : key n with
      | none => rw [scatter_none _ hn, hkeep]
      | some l =>
        rw [scatter_some _ hn, scatter_off, read_write, update_of_ne, hkeep]
        intro hcell
        exact hin (h.cell_inj (by omega) (by omega) hk hn hcell)

/-! ## Runs one after the other

The start of a run is the number of items with smaller keys.
-/

theorem below_succ (cnt : ℕ → ℕ) (k : ℕ) : below cnt (k + 1) = below cnt k + cnt k := rfl

theorem below_mono (cnt : ℕ → ℕ) {k l : ℕ} (h : k ≤ l) : below cnt k ≤ below cnt l := by
  induction l with
  | zero => rw [Nat.le_zero.mp h]
  | succ l ih =>
    rcases Nat.lt_or_ge k (l + 1) with hlt | hge
    · exact Nat.le_trans (ih (by omega)) (by rw [below_succ]; omega)
    · rw [Nat.le_antisymm h hge]

theorem below_congr {cnt cnt' : ℕ → ℕ} {k : ℕ} (h : ∀ j, j < k → cnt j = cnt' j) :
    below cnt k = below cnt' k := by
  induction k with
  | zero => rfl
  | succ k ih => rw [below_succ, below_succ, ih fun j hj => h j (by omega), h k (by omega)]

theorem le_below (cnt : ℕ → ℕ) {k K : ℕ} (h : k < K) : cnt k ≤ below cnt K := by
  have hle := below_mono cnt (show k + 1 ≤ K from h)
  rw [below_succ] at hle
  omega

/-- Splitting a word makes one more. -/
theorem below_split {cnt : ℕ → ℕ} {len K : ℕ} (hcnt : 0 < cnt len) (hK : len + 1 < K) :
    below (CanonicalCode.split cnt len) K = below cnt K + 1 := by
  have hbefore : below (CanonicalCode.split cnt len) len = below cnt len :=
    below_congr fun j hj => by
      rw [CanonicalCode.split_apply, if_neg (by omega), if_neg (by omega)]
  induction K with
  | zero => omega
  | succ K ih =>
    rcases Nat.eq_or_lt_of_le (Nat.le_of_lt_succ hK) with rfl | hlt
    · rw [below_succ, below_succ, hbefore, CanonicalCode.split_apply, if_pos rfl,
        CanonicalCode.split_apply, if_neg (by omega), if_pos rfl, below_succ, below_succ]
      omega
    · rw [below_succ, ih hlt, CanonicalCode.split_apply, if_neg (by omega), if_neg (by omega),
        below_succ]
      omega

/-- The run that a cell belongs to. -/
theorem exists_run {cnt : ℕ → ℕ} {K c : ℕ} (h : c < below cnt K) :
    ∃ k, k < K ∧ below cnt k ≤ c ∧ c < below cnt k + cnt k := by
  induction K with
  | zero => simp [below] at h
  | succ K ih =>
    by_cases hc : c < below cnt K
    · obtain ⟨k, hk, hrun⟩ := ih hc
      exact ⟨k, by omega, hrun⟩
    · exact ⟨K, by omega, by omega, h⟩

/-- Runs laid out by their frequencies do not overlap. -/
theorem apart_below {n K : ℕ}
    (hoff : ∀ k, k < K → 0 < freq key n k → read off k = below (freq key n) k)
    (hkey : ∀ i k, i < n → key i = some k → k < K) : Apart key off n := by
  intro k l hkl hk hl
  obtain ⟨i, hi, hil⟩ := Nat.count_ne_iff_exists.mp (Nat.ne_of_gt hl)
  have hlK := hkey i l hi hil
  rw [hoff k (by omega) hk, hoff l hlK hl, ← below_succ]
  exact below_mono _ (by omega)

/-- **Every cell is written.** A cell in front of the end of the runs is the cell of an item. -/
theorem exists_cell {n K c : ℕ}
    (hoff : ∀ k, k < K → 0 < freq key n k → read off k = below (freq key n) k)
    (h : c < below (freq key n) K) : ∃ i k, i < n ∧ key i = some k ∧ c = cell key off k i := by
  obtain ⟨k, hk, hle, hlt⟩ := exists_run h
  obtain ⟨i, hi, hik, hrank⟩ := CanonicalCode.exists_count_eq
    (show c - below (freq key n) k < Nat.count (fun i => key i = some k) n by
      rw [← freq]; omega)
  refine ⟨i, k, hi, hik, ?_⟩
  rw [cell, hoff k hk (by omega), freq, hrank]
  omega

/-- The cells of the items are those in front of the end of the runs. -/
theorem cell_lt {n K i k : ℕ}
    (hoff : ∀ k, k < K → 0 < freq key n k → read off k = below (freq key n) k)
    (hi : i < n) (hk : key i = some k) (hkK : k < K) : cell key off k i < below (freq key n) K := by
  have hlt := freq_lt hi hk
  have hmono := below_mono (freq key n) (show k + 1 ≤ K from hkK)
  rw [below_succ] at hmono
  rw [cell, hoff k hkK (by omega)]
  omega

end CountingSort

/-! ## Rearrangements

Arrays that differ by a permutation of a part of their cells.
-/

/-- The cells from `lo` up to `hi` in another order, the others as they were. -/
def Rearranged {α : Type*} (lo hi : ℕ) (A B : ℕ → α) : Prop :=
  ∃ σ : Equiv.Perm ℕ, (∀ i, (i < lo ∨ hi ≤ i) → σ i = i) ∧ ∀ i, B i = A (σ i)

namespace Rearranged

open Function

variable {α : Type*} {lo hi : ℕ} {A B C : ℕ → α}

theorem refl (lo hi : ℕ) (A : ℕ → α) : Rearranged lo hi A A :=
  ⟨Equiv.refl ℕ, fun _ _ => rfl, fun _ => rfl⟩

theorem trans (h : Rearranged lo hi A B) (h' : Rearranged lo hi B C) : Rearranged lo hi A C := by
  obtain ⟨σ, hσ, hAB⟩ := h
  obtain ⟨τ, hτ, hBC⟩ := h'
  refine ⟨τ.trans σ, fun i hi => ?_, fun i => ?_⟩
  · rw [Equiv.trans_apply, hτ i hi, hσ i hi]
  · rw [hBC, hAB, Equiv.trans_apply]

theorem mono {lo' hi' : ℕ} (h : Rearranged lo hi A B) (hlo : lo' ≤ lo) (hhi : hi ≤ hi') :
    Rearranged lo' hi' A B := by
  obtain ⟨σ, hσ, hAB⟩ := h
  exact ⟨σ, fun i hi => hσ i (by omega), hAB⟩

/-- Swapping two cells of the range. -/
theorem swap (A : ℕ → α) {i j : ℕ} (hi' : lo ≤ i ∧ i < hi) (hj : lo ≤ j ∧ j < hi) :
    Rearranged lo hi A (update (update A i (A j)) j (A i)) := by
  refine ⟨Equiv.swap i j, fun k hk => Equiv.swap_apply_of_ne_of_ne (by omega) (by omega),
    fun k => ?_⟩
  by_cases hkj : k = j
  · rw [hkj, update_self, Equiv.swap_apply_right]
  · rw [update_of_ne hkj]
    by_cases hki : k = i
    · rw [hki, update_self, Equiv.swap_apply_left]
    · rw [update_of_ne hki, Equiv.swap_apply_of_ne_of_ne hki hkj]

/-- The order is a bijection of the range. -/
theorem exists_perm (h : Rearranged lo hi A B) :
    ∃ σ : Equiv.Perm ℕ, (∀ i, lo ≤ i ∧ i < hi ↔ lo ≤ σ i ∧ σ i < hi) ∧ ∀ i, B i = A (σ i) := by
  obtain ⟨σ, hσ, hAB⟩ := h
  refine ⟨σ, fun i => ⟨fun hin => ?_, fun hin => ?_⟩, hAB⟩
  · by_contra hout
    have hfix := σ.injective (hσ (σ i) (by omega))
    omega
  · by_contra hout
    rw [hσ i (by omega)] at hin
    omega

end Rearranged
