/-
Canonical prefix codes.

A code is given by the length of every symbol's word, `0` for a symbol without one. Words of one
length are consecutive numbers in the order of the symbols, and each length starts where the
shorter ones, made one longer, leave off. `used` counts the numbers of some width that are taken
up by then: the code is complete when nothing is left at the greatest width.

The number of a word is read with its highest bit first, and a stream has it first, so in a
stream with its least bit first the word is the reversed number.
-/
import Pakka.Lib.BitString
import Mathlib.Data.Nat.Count
import Mathlib.Logic.Function.Basic

set_option autoImplicit false

namespace CanonicalCode

open BitString Function

/-! ## Counting by rank

A count that grows by at most one takes every value in between.
-/

/-- The element of a given rank. -/
theorem exists_count_eq {p : ℕ → Prop} [DecidablePred p] {n r : ℕ} (h : r < Nat.count p n) :
    ∃ s, s < n ∧ p s ∧ Nat.count p s = r := by
  induction n with
  | zero => simp at h
  | succ n ih =>
    rw [Nat.count_succ] at h
    by_cases hr : r < Nat.count p n
    · obtain ⟨s, hs, hps, hcount⟩ := ih hr
      exact ⟨s, by omega, hps, hcount⟩
    · by_cases hp : p n
      · rw [if_pos hp] at h
        exact ⟨n, by omega, hp, by omega⟩
      · rw [if_neg hp] at h
        omega

/-! ## Widths

Numbers of some width: how many are taken, and where the next length starts.
-/

section Widths

variable (cnt : ℕ → ℕ)

/-- The numbers of width `ℓ` that the words up to this length take. -/
def used : ℕ → ℕ
  | 0 => 0
  | ℓ + 1 => 2 * used ℓ + cnt (ℓ + 1)

/-- The number of the first word of length `ℓ`. -/
def first : ℕ → ℕ
  | 0 => 0
  | ℓ + 1 => 2 * used cnt ℓ

@[simp] theorem used_zero : used cnt 0 = 0 := rfl

theorem used_succ (ℓ : ℕ) : used cnt (ℓ + 1) = 2 * used cnt ℓ + cnt (ℓ + 1) := rfl

theorem first_succ (ℓ : ℕ) : first cnt (ℓ + 1) = 2 * used cnt ℓ := rfl

theorem used_eq_first {ℓ : ℕ} (h : 0 < ℓ) : used cnt ℓ = first cnt ℓ + cnt ℓ := by
  obtain ⟨k, rfl⟩ : ∃ k, ℓ = k + 1 := ⟨ℓ - 1, by omega⟩
  rfl

/-- Words that are taken stay taken when they get longer. -/
theorem used_mul_le (ℓ j : ℕ) : used cnt ℓ * 2 ^ j ≤ used cnt (ℓ + j) := by
  induction j with
  | zero => simp
  | succ j ih =>
    calc used cnt ℓ * 2 ^ (j + 1) = 2 * (used cnt ℓ * 2 ^ j) := by rw [pow_succ]; ring
      _ ≤ 2 * used cnt (ℓ + j) := Nat.mul_le_mul_left 2 ih
      _ ≤ used cnt (ℓ + (j + 1)) := by rw [← Nat.add_assoc, used_succ]; omega

theorem used_mul_le_first {ℓ m : ℕ} (h : ℓ < m) : used cnt ℓ * 2 ^ (m - ℓ) ≤ first cnt m := by
  obtain ⟨k, rfl⟩ : ∃ k, m = k + 1 := ⟨m - 1, by omega⟩
  calc used cnt ℓ * 2 ^ (k + 1 - ℓ) = 2 * (used cnt ℓ * 2 ^ (k - ℓ)) := by
        rw [Nat.succ_sub (by omega), pow_succ]; ring
    _ ≤ 2 * used cnt (ℓ + (k - ℓ)) := Nat.mul_le_mul_left 2 (used_mul_le cnt _ _)
    _ = first cnt (k + 1) := by rw [Nat.add_sub_cancel' (by omega), first_succ]

variable {cnt}

/-- Not oversubscribed at the greatest width is not oversubscribed at any. -/
theorem used_le_two_pow {L ℓ : ℕ} (hL : used cnt L ≤ 2 ^ L) (h : ℓ ≤ L) : used cnt ℓ ≤ 2 ^ ℓ := by
  have hscale := used_mul_le cnt ℓ (L - ℓ)
  rw [Nat.add_sub_cancel' h] at hscale
  have hpow : 2 ^ L = 2 ^ ℓ * 2 ^ (L - ℓ) := by rw [← pow_add, Nat.add_sub_cancel' h]
  exact Nat.le_of_mul_le_mul_right (by omega : used cnt ℓ * 2 ^ (L - ℓ) ≤ 2 ^ ℓ * 2 ^ (L - ℓ))
    (Nat.two_pow_pos _)

theorem used_congr {cnt' : ℕ → ℕ} {L : ℕ} (h : ∀ ℓ, 0 < ℓ → ℓ ≤ L → cnt ℓ = cnt' ℓ) :
    used cnt L = used cnt' L := by
  induction L with
  | zero => rfl
  | succ L ih =>
    rw [used_succ, used_succ, ih fun ℓ h0 hle => h ℓ h0 (by omega), h (L + 1) (by omega) le_rfl]

theorem used_eq_zero {L : ℕ} (h : ∀ ℓ, 0 < ℓ → ℓ ≤ L → cnt ℓ = 0) : used cnt L = 0 := by
  induction L with
  | zero => rfl
  | succ L ih => rw [used_succ, ih fun ℓ h0 hle => h ℓ h0 (by omega), h (L + 1) (by omega) le_rfl]

/-- Widths without words of their own. -/
theorem used_add {ℓ j : ℕ} (h : ∀ m, ℓ < m → m ≤ ℓ + j → cnt m = 0) :
    used cnt (ℓ + j) = used cnt ℓ * 2 ^ j := by
  induction j with
  | zero => simp
  | succ j ih =>
    rw [← Nat.add_assoc, used_succ, h (ℓ + j + 1) (by omega) (by omega),
      ih fun m hm hle => h m hm (by omega), pow_succ]
    ring

theorem first_eq_mul {ℓ m : ℕ} (hlt : ℓ < m) (h : ∀ k, ℓ < k → k < m → cnt k = 0) :
    first cnt m = used cnt ℓ * 2 ^ (m - ℓ) := by
  obtain ⟨j, rfl⟩ : ∃ j, m = ℓ + j + 1 := ⟨m - ℓ - 1, by omega⟩
  rw [first_succ, used_add fun k hk hle => h k hk (by omega),
    show ℓ + j + 1 - ℓ = j + 1 by omega, pow_succ]
  ring

/-- One word of length `len` less, and two that are one longer more. -/
def split (cnt : ℕ → ℕ) (len : ℕ) : ℕ → ℕ :=
  update (update cnt len (cnt len - 1)) (len + 1) (cnt (len + 1) + 2)

theorem split_apply (cnt : ℕ → ℕ) (len ℓ : ℕ) :
    split cnt len ℓ =
      if ℓ = len then cnt len - 1 else if ℓ = len + 1 then cnt (len + 1) + 2 else cnt ℓ := by
  rw [split]
  by_cases h1 : ℓ = len + 1
  · rw [h1, update_self, if_neg (by omega), if_pos rfl]
  · rw [update_of_ne h1, if_neg h1]
    by_cases h0 : ℓ = len
    · rw [h0, update_self, if_pos rfl]
    · rw [update_of_ne h0, if_neg h0]

/-- **Splitting a word takes up the same numbers.** -/
theorem used_split {len L : ℕ} (hlen : 0 < len) (hcnt : 0 < cnt len) (hL : len < L) :
    used (split cnt len) L = used cnt L := by
  have hbefore (ℓ : ℕ) (h : ℓ < len) : used (split cnt len) ℓ = used cnt ℓ :=
    used_congr fun m _ hm => by rw [split_apply, if_neg (by omega), if_neg (by omega)]
  have hat : used (split cnt len) len + 1 = used cnt len := by
    obtain ⟨k, rfl⟩ : ∃ k, len = k + 1 := ⟨len - 1, by omega⟩
    rw [used_succ, used_succ, hbefore k (by omega), split_apply, if_pos rfl]
    omega
  induction L with
  | zero => omega
  | succ L ih =>
    rw [used_succ, used_succ, split_apply, if_neg (by omega)]
    rcases Nat.eq_or_lt_of_le (Nat.le_of_lt_succ hL) with rfl | hlt
    · rw [if_pos rfl]
      omega
    · rw [if_neg (by omega), ih hlt]

end Widths

/-! ## Words

The code is prefix-free, and if it is complete every word starts with one of its words.
-/

section Words

variable (n : ℕ) (lens : ℕ → ℕ)

/-- The number of symbols with words of length `ℓ`. -/
def count (ℓ : ℕ) : ℕ := Nat.count (fun s => lens s = ℓ) n

/-- The number of a symbol's word. -/
def number (s : ℕ) : ℕ := first (count n lens) (lens s) + Nat.count (fun t => lens t = lens s) s

/-- A symbol's word as it stands in a stream. -/
def word (s : ℕ) : ℕ := rev (lens s) (number n lens s)

/-- A code: no length is above `L`, and the words fit. -/
structure Fits (L : ℕ) : Prop where
  le : ∀ s, s < n → lens s ≤ L
  used_le : used (count n lens) L ≤ 2 ^ L

/-- A code that takes up every number. -/
structure Complete (L : ℕ) : Prop where
  le : ∀ s, s < n → lens s ≤ L
  used_eq : used (count n lens) L = 2 ^ L

variable {n lens}

theorem Complete.fits {L : ℕ} (h : Complete n lens L) : Fits n lens L :=
  ⟨h.le, le_of_eq h.used_eq⟩

/-- A length that occurs is counted. -/
theorem count_pos {s : ℕ} (hs : s < n) : 0 < count n lens (lens s) :=
  Nat.zero_lt_of_lt (Nat.count_strict_mono (p := fun t => lens t = lens s) rfl hs)

/-- Lengths that do not occur may be allowed. -/
theorem Complete.mono {L L' : ℕ} (h : Complete n lens L) (hL : L ≤ L') : Complete n lens L' := by
  refine ⟨fun s hs => le_trans (h.le s hs) hL, ?_⟩
  have hnone (m : ℕ) (hm : L < m) : count n lens m = 0 := by
    rw [count, Nat.count_iff_forall_not.mpr]
    intro s hs
    have := h.le s hs
    omega
  obtain ⟨j, rfl⟩ : ∃ j, L' = L + j := ⟨L' - L, by omega⟩
  rw [used_add fun m hm _ => hnone m hm, h.used_eq, pow_add]

theorem word_lt (s : ℕ) : word n lens s < 2 ^ lens s := rev_lt _ _

theorem number_lt_used {s : ℕ} (hs : s < n) (hpos : 0 < lens s) :
    number n lens s < used (count n lens) (lens s) := by
  have hrank : Nat.count (fun t => lens t = lens s) s < count n lens (lens s) :=
    Nat.count_strict_mono (p := fun t => lens t = lens s) rfl hs
  rw [used_eq_first _ hpos, number]
  omega

theorem Fits.number_lt {L s : ℕ} (h : Fits n lens L) (hs : s < n) (hpos : 0 < lens s) :
    number n lens s < 2 ^ lens s :=
  lt_of_lt_of_le (number_lt_used hs hpos) (used_le_two_pow h.used_le (h.le s hs))

/-- The number of a longer word does not start with that of a shorter or equal one. -/
theorem number_div_ne {s t : ℕ} (hs : s < n) (hst : s ≠ t) (hpos : 0 < lens s)
    (hle : lens s ≤ lens t) : number n lens t / 2 ^ (lens t - lens s) ≠ number n lens s := by
  rcases Nat.eq_or_lt_of_le hle with heq | hlt
  · rw [heq, Nat.sub_self, pow_zero, Nat.div_one, number, number, heq]
    intro hcontra
    have hrank : Nat.count (fun u => lens u = lens t) t = Nat.count (fun u => lens u = lens t) s := by
      omega
    exact hst (Nat.count_injective (p := fun u => lens u = lens t) heq rfl hrank.symm)
  · have hstart := used_mul_le_first (count n lens) hlt
    have hge : used (count n lens) (lens s) ≤ number n lens t / 2 ^ (lens t - lens s) := by
      rw [Nat.le_div_iff_mul_le (Nat.two_pow_pos _), number]
      omega
    have hlt' := number_lt_used hs hpos
    omega

/-- **Prefix-free.** -/
theorem Fits.word_mod_ne {L s t : ℕ} (h : Fits n lens L) (hs : s < n) (ht : t < n) (hst : s ≠ t)
    (hpos : 0 < lens s) (hle : lens s ≤ lens t) : word n lens t % 2 ^ lens s ≠ word n lens s := by
  have hsplit : lens t = lens t - lens s + lens s := by omega
  have hmod := rev_mod (lens t - lens s) (lens s) (number n lens t)
  rw [← hsplit] at hmod
  rw [word, word, hmod]
  intro hcontra
  refine number_div_ne hs hst hpos hle (rev_inj ?_ (h.number_lt hs hpos) hcontra)
  rw [Nat.div_lt_iff_lt_mul (Nat.two_pow_pos _), ← pow_add, ← Nat.add_comm, ← hsplit]
  exact h.number_lt ht (by omega)

/-- The symbol whose word a stream starts with is determined. -/
theorem Fits.unique {L s t x : ℕ} (h : Fits n lens L) (hs : s < n) (ht : t < n)
    (hposs : 0 < lens s) (hpost : 0 < lens t) (hxs : x % 2 ^ lens s = word n lens s)
    (hxt : x % 2 ^ lens t = word n lens t) : s = t := by
  by_contra hst
  rcases Nat.le_total (lens s) (lens t) with hle | hle
  · apply h.word_mod_ne hs ht hst hposs hle
    rw [← hxt, Nat.mod_mod_of_dvd _ (Nat.pow_dvd_pow 2 hle), hxs]
  · apply h.word_mod_ne ht hs (Ne.symm hst) hpost hle
    rw [← hxs, Nat.mod_mod_of_dvd _ (Nat.pow_dvd_pow 2 hle), hxt]

/-- The symbol of a length with a given number. -/
theorem exists_number_eq {ℓ c : ℕ} (hℓ : 0 < ℓ) (hfirst : first (count n lens) ℓ ≤ c)
    (hlt : c < used (count n lens) ℓ) : ∃ s, s < n ∧ lens s = ℓ ∧ number n lens s = c := by
  rw [used_eq_first _ hℓ] at hlt
  obtain ⟨s, hs, rfl, hrank⟩ := exists_count_eq
    (show c - first (count n lens) ℓ < Nat.count (fun t => lens t = ℓ) n by
      rw [← count]; omega)
  exact ⟨s, hs, rfl, by rw [number, hrank]; omega⟩

/-- **Nothing is left over.** Every number of the greatest width starts with some word. -/
theorem Complete.exists_number {L : ℕ} (h : Complete n lens L) {x : ℕ} (hx : x < 2 ^ L) :
    ∃ s, s < n ∧ 0 < lens s ∧ lens s ≤ L ∧ x / 2 ^ (L - lens s) = number n lens s := by
  have hex : ∃ ℓ, ℓ ≤ L ∧ x / 2 ^ (L - ℓ) < used (count n lens) ℓ :=
    ⟨L, le_rfl, by rw [Nat.sub_self, pow_zero, Nat.div_one, h.used_eq]; exact hx⟩
  classical
  obtain ⟨hle, hlt⟩ := Nat.find_spec hex
  generalize hfind : Nat.find hex = ℓ at hle hlt
  -- at the width before this one the number was beyond what was taken
  have hpos : 0 < ℓ := by
    rcases Nat.eq_zero_or_pos ℓ with rfl | hp
    · simp at hlt
    · exact hp
  obtain ⟨k, rfl⟩ : ∃ k, ℓ = k + 1 := ⟨ℓ - 1, by omega⟩
  have hprev := Nat.find_min hex (m := k) (by omega)
  have hbefore : used (count n lens) k ≤ x / 2 ^ (L - k) := by
    by_contra hcon
    exact hprev ⟨by omega, by omega⟩
  have hfirst : first (count n lens) (k + 1) ≤ x / 2 ^ (L - (k + 1)) := by
    have hpow : 2 ^ (L - k) = 2 ^ (L - (k + 1)) * 2 := by
      rw [← pow_succ]; congr 1; omega
    rw [first_succ]
    rw [hpow, ← Nat.div_div_eq_div_mul] at hbefore
    omega
  obtain ⟨s, hs, hlen, hnum⟩ := exists_number_eq (by omega) hfirst hlt
  exact ⟨s, hs, by omega, by omega, by rw [hlen, hnum]⟩

/-- Every stream starts with some word of a complete code. -/
theorem Complete.exists_word {L : ℕ} (h : Complete n lens L) (x : ℕ) :
    ∃ s, s < n ∧ 0 < lens s ∧ x % 2 ^ lens s = word n lens s := by
  obtain ⟨s, hs, hpos, hle, hnum⟩ := h.exists_number (rev_lt L x)
  refine ⟨s, hs, hpos, ?_⟩
  have hsplit : L = L - lens s + lens s := by omega
  have hmod := rev_mod (L - lens s) (lens s) (rev L x)
  rw [← hsplit, hnum] at hmod
  have hback : rev L (rev L x) = x % 2 ^ L := by
    rw [rev, ofNat_rev, List.reverse_reverse, toNat_ofNat]
  rw [hback, Nat.mod_mod_of_dvd _ (Nat.pow_dvd_pow 2 hle)] at hmod
  exact hmod

/-! ## Symbols without words

They may be left out at the end.
-/

section Trim

variable {m : ℕ} {lens' : ℕ → ℕ}

theorem count_congr (h : ∀ s, s < n → lens' s = lens s) (ℓ : ℕ) :
    Nat.count (fun s => lens' s = ℓ) n = Nat.count (fun s => lens s = ℓ) n := by
  induction n with
  | zero => rfl
  | succ n ih => rw [Nat.count_succ, Nat.count_succ, ih fun s hs => h s (by omega), h n (by omega)]

/-- Symbols at the end that have no word do not count. -/
theorem count_trim (hle : m ≤ n) (hsame : ∀ s, s < m → lens' s = lens s)
    (hzero : ∀ s, m ≤ s → s < n → lens s = 0) {ℓ : ℕ} (hℓ : 0 < ℓ) :
    count m lens' ℓ = count n lens ℓ := by
  rw [count, count_congr hsame]
  induction n with
  | zero =>
    obtain rfl : m = 0 := by omega
    rfl
  | succ n ih =>
    rcases Nat.eq_or_lt_of_le hle with rfl | hlt
    · rfl
    · rw [ih (by omega) fun s hs hlt' => hzero s hs (by omega), count, count, Nat.count_succ,
        if_neg (by rw [hzero n (by omega) (by omega)]; omega), Nat.add_zero]

theorem Complete.trim {L : ℕ} (h : Complete n lens L) (hle : m ≤ n)
    (hsame : ∀ s, s < m → lens' s = lens s) (hzero : ∀ s, m ≤ s → s < n → lens s = 0) :
    Complete m lens' L := by
  refine ⟨fun s hs => ?_, ?_⟩
  · rw [hsame s hs]
    exact h.le s (by omega)
  · rw [← h.used_eq]
    exact used_congr fun ℓ hℓ _ => count_trim hle hsame hzero hℓ

theorem word_trim (hle : m ≤ n) (hsame : ∀ s, s < m → lens' s = lens s)
    (hzero : ∀ s, m ≤ s → s < n → lens s = 0) {s : ℕ} (hs : s < m) :
    word m lens' s = word n lens s := by
  have hfirst (ℓ : ℕ) : first (count m lens') ℓ = first (count n lens) ℓ := by
    cases ℓ with
    | zero => rfl
    | succ ℓ =>
      rw [first_succ, first_succ, used_congr fun k hk _ => count_trim hle hsame hzero hk]
  rw [word, word, number, number, hfirst, hsame s hs,
    count_congr fun t ht => hsame t (by omega)]

end Trim

end Words

end CanonicalCode
