/-
The sub-tables of the decoder.

A word that is longer than the table is wide is found in two steps: its first bits lead to a
sub-table, the others into it. The words with the same first bits follow each other, so when the
builder comes to first bits that it has not just seen, they are new. How wide the sub-table must
be is read off the counts alone, which is right because the words begin at the start of the range
that their first bits leave.

So the sub-table of some first bits is complete before the next one is opened, and an entry is never
written into a sub-table that is closed. `Stage` is this, as an invariant of the loop over the
words.
-/
import Pakka.SinflTable

set_option autoImplicit false

namespace Pakka

open Cells CountingSort CanonicalCode BitString Function

/-- The cell that leads to a sub-table. -/
def sinfl_pointer (start sub : ℕ) : ℕ := (start <<< 16) ||| 0x10 ||| (sub &&& 0xf)

section Subtable

variable {n L bits : ℕ} {lens : ℕ → ℕ} {cnt sort : List ℕ} {gen : SinflGen} {c : ℕ}

/-- The first bits of a long word, as a number. -/
def sinfl_prefix_of (n : ℕ) (lens : ℕ → ℕ) (bits t : ℕ) : ℕ := number n lens t / 2 ^ (lens t - bits)

theorem word_mod_bits {t : ℕ} (h : bits ≤ lens t) :
    word n lens t % 2 ^ bits = rev bits (sinfl_prefix_of n lens bits t) := by
  have hmod := rev_mod (lens t - bits) bits (number n lens t)
  rwa [Nat.sub_add_cancel h] at hmod

/-! ## How wide a sub-table is

The source widens it until the words that are left fill it, by the counts of lengths.
-/

/-- The search for the width, for the first bits `p`: what is counted are the numbers taken in the
range of `p`, and the search ends when they fill it. -/
theorem sub_bits_spec (hin : TableInput n lens L cnt sort) (fuel sub u p : ℕ)
    (hbits : bits + sub ≤ L) (hp : p < 2 ^ bits) (hfuel : L ≤ bits + sub + fuel)
    (hle : p * 2 ^ sub ≤ used (count n lens) (bits + sub))
    (hu : u = used (count n lens) (bits + sub) - p * 2 ^ sub) :
    let sub' := sinfl_sub_bits cnt bits fuel sub u
    sub ≤ sub' ∧ bits + sub' ≤ L ∧ (p + 1) * 2 ^ sub' ≤ used (count n lens) (bits + sub') := by
  induction fuel generalizing sub u with
  | zero =>
    have hL : bits + sub = L := by omega
    have hused := hin.complete.used_eq
    refine ⟨le_rfl, hbits, ?_⟩
    rw [sinfl_sub_bits, hL, hused, ← hL, pow_add]
    exact Nat.mul_le_mul_right _ hp
  | succ fuel ih =>
    rw [sinfl_sub_bits, Nat.one_shiftLeft]
    split_ifs with hlt
    · have hnext : bits + (sub + 1) ≤ L := by
        by_contra hcon
        have hL : bits + sub = L := by omega
        have hroom : (p + 1) * 2 ^ sub ≤ 2 ^ L := by
          rw [← hL, pow_add]
          exact Nat.mul_le_mul_right _ hp
        rw [hL, hin.complete.used_eq] at hu
        rw [Nat.add_mul, Nat.one_mul] at hroom
        omega
      have hstep : p * 2 ^ (sub + 1) = 2 * (p * 2 ^ sub) := by rw [pow_succ]; ring
      have hused : used (count n lens) (bits + (sub + 1)) =
          2 * used (count n lens) (bits + sub) + count n lens (bits + (sub + 1)) := by
        rw [← Nat.add_assoc, used_succ]
      obtain ⟨h1, h2, h3⟩ := ih (sub + 1) ((u <<< 1) + read cnt (bits + (sub + 1)))
        hnext (by omega) (by omega) (by
          rw [hin.cnt_eq _ (by omega), Nat.shiftLeft_eq]
          omega)
      exact ⟨by omega, h2, h3⟩
    · refine ⟨le_rfl, hbits, ?_⟩
      rw [Nat.add_mul, Nat.one_mul]
      omega

/-- A range that is filled by some width has no longer words. -/
theorem lens_le_of_filled {m p t : ℕ} (hbits : bits ≤ m)
    (hfill : (p + 1) * 2 ^ (m - bits) ≤ used (count n lens) m)
    (hp : sinfl_prefix_of n lens bits t = p) : lens t ≤ m := by
  by_contra hcon
  have hstart := used_mul_le_first (count n lens) (show m < lens t by omega)
  have hge : (p + 1) * 2 ^ (lens t - bits) ≤ number n lens t := by
    calc (p + 1) * 2 ^ (lens t - bits)
        = (p + 1) * 2 ^ (m - bits) * 2 ^ (lens t - m) := by
          rw [Nat.mul_assoc, ← pow_add]
          congr 2
          omega
      _ ≤ used (count n lens) m * 2 ^ (lens t - m) := Nat.mul_le_mul_right _ hfill
      _ ≤ first (count n lens) (lens t) := hstart
      _ ≤ number n lens t := Nat.le_add_right _ _
  rw [sinfl_prefix_of] at hp
  have hdiv := (Nat.le_div_iff_mul_le (Nat.two_pow_pos (lens t - bits))).mpr hge
  omega

/-! ## Filling a sub-table

A word is entered at every place that ends in it.
-/

theorem read_stride (entry stride tbl_end fuel i : ℕ) (tbl : List ℕ) (hi : i < tbl_end)
    (hstride : 0 < stride) (hfuel : tbl_end ≤ i + fuel) (j : ℕ) :
    read (sinfl_stride entry stride tbl_end fuel i tbl) j =
      if i ≤ j ∧ j < tbl_end ∧ (j - i) % stride = 0 then entry else read tbl j := by
  induction fuel generalizing i tbl with
  | zero => omega
  | succ fuel ih =>
    have hwrite : read (write tbl i entry) j = if j = i then entry else read tbl j := by
      rw [read_write, update_apply]
    rw [sinfl_stride]
    by_cases hnext : i + stride < tbl_end
    · rw [if_pos hnext, ih _ _ hnext (by omega), hwrite]
      by_cases hge : i + stride ≤ j
      · -- the cells from here on are those of the next round
        have hmod : (j - i) % stride = (j - (i + stride)) % stride := by
          rw [Nat.mod_eq_sub_mod (by omega)]
          congr 1
          omega
        rw [hmod]
        simp only [hge, show i ≤ j by omega, true_and, show j ≠ i by omega, if_false]
      · rw [if_neg (fun h => hge h.1)]
        by_cases hji : j = i
        · rw [if_pos hji, if_pos ⟨by omega, by omega, by rw [hji, Nat.sub_self, Nat.zero_mod]⟩]
        · rw [if_neg hji, if_neg]
          intro h
          rw [Nat.mod_eq_of_lt (by omega)] at h
          omega
    · rw [if_neg hnext, hwrite]
      by_cases hji : j = i
      · rw [if_pos hji, if_pos ⟨by omega, by omega, by rw [hji, Nat.sub_self, Nat.zero_mod]⟩]
      · rw [if_neg hji, if_neg]
        intro h
        rw [Nat.mod_eq_of_lt (by omega)] at h
        omega

/-! ## The next word

As in the first table.
-/

/-- Over used up lengths to the next word, which starts where the last one ended. -/
theorem sub_len_spec (hin : TableInput n lens L cnt sort) (fuel : ℕ) (hfuel : L ≤ gen.len + fuel)
    (hlen : gen.len ≤ L) (hat : Cursor n lens gen c) :
    let gen' := sinfl_sub_len cnt (fuel + 1) gen
    let c' := c * 2 ^ (gen'.len - gen.len)
    gen'.cnt ≠ 0 ∧ gen.len ≤ gen'.len ∧ gen'.len ≤ L ∧ Cursor n lens gen' c' ∧
      ∀ s, s < n → Passed n lens gen'.len c' s → Passed n lens gen.len c s := by
  induction fuel generalizing gen c with
  | zero =>
    have hne : gen.cnt ≠ 0 := by
      intro hzero
      have := hat.len_lt hin hlen hzero
      omega
    rw [sinfl_sub_len, if_neg hne]
    simp only [Nat.sub_self, pow_zero, Nat.mul_one]
    exact ⟨hne, le_rfl, hlen, hat, fun s _ hp => hp⟩
  | succ fuel ih =>
    by_cases hzero : gen.cnt = 0
    · have hlt := hat.len_lt hin hlen hzero
      have hnext := hat.next_len hin hzero
      obtain ⟨h1, h2, h3, h4, h5⟩ := ih (by dsimp only; omega) (by dsimp only; omega) hnext
      rw [sinfl_sub_len, if_pos hzero]
      generalize sinfl_sub_len cnt (fuel + 1)
        { gen with len := gen.len + 1, cnt := read cnt (gen.len + 1) } = gen' at h1 h2 h3 h4 h5 ⊢
      dsimp only at h1 h2 h3 h4 h5 ⊢
      have hc : 2 * c * 2 ^ (gen'.len - (gen.len + 1)) = c * 2 ^ (gen'.len - gen.len) := by
        rw [show gen'.len - gen.len = gen'.len - (gen.len + 1) + 1 by omega, pow_succ]
        ring
      rw [hc] at h4 h5
      exact ⟨h1, by omega, h3, h4, fun s hs hp => hat.passed_next_len hzero hs (h5 s hs hp)⟩
    · rw [sinfl_sub_len, if_neg hzero]
      simp only [Nat.sub_self, pow_zero, Nat.mul_one]
      exact ⟨hzero, le_rfl, hlen, hat, fun s _ hp => hp⟩

/-- The symbols are looked at in turn. -/
theorem sub_len_sorted (cnt : List ℕ) (fuel : ℕ) (gen : SinflGen) :
    (sinfl_sub_len cnt fuel gen).sorted = gen.sorted := by
  induction fuel generalizing gen with
  | zero => rfl
  | succ fuel ih =>
    rw [sinfl_sub_len]
    split_ifs
    · exact ih _
    · rfl

theorem below_count (n : ℕ) (lens : ℕ → ℕ) (K : ℕ) :
    below (count n lens) K = Nat.count (fun t => lens t < K) n := by
  induction K with
  | zero => simp [below]
  | succ K ih =>
    rw [below_succ, ih, count]
    clear ih
    induction n with
    | zero => rfl
    | succ n ih =>
      simp only [Nat.count_succ]
      split_ifs <;> omega

/-- There is a symbol for every round. -/
theorem Cursor.sorted_lt (h : Cursor n lens gen c) (hcnt : gen.cnt ≠ 0) : gen.sorted < n := by
  have hc := h.cnt_eq
  have hfirst := h.first_le
  have hbelow : below (count n lens) (gen.len + 1) ≤ n := by
    rw [below_count]
    exact Nat.count_le _
  rw [used_eq_first _ h.pos] at hc
  rw [below_succ] at hbelow
  rw [h.sorted_eq]
  omega

/-! ## What the builder keeps

The words done so far are in the tables, and the current sub-table belongs to the first bits at
hand.
-/

/-- The word of a long symbol is found through the sub-table of `2 ^ sub` cells at `start`. -/
structure Held (n L bits : ℕ) (lens : ℕ → ℕ) (tbl : List ℕ) (start sub t : ℕ) : Prop where
  lens_le : lens t ≤ bits + sub
  sub_le : sub ≤ L - bits
  le_start : 2 ^ bits ≤ start
  pointer : read tbl (rev bits (sinfl_prefix_of n lens bits t)) = sinfl_pointer start sub
  cells : ∀ y, y < 2 ^ sub → y % 2 ^ (lens t - bits) = word n lens t / 2 ^ bits →
    read tbl (start + y) = sinfl_entry t (lens t - bits)

/-- The builder has been to first bits below `k`, of which `k - 1` are open, and the symbols that
satisfy `P` are in place. -/
structure Stage (n L bits : ℕ) (lens : ℕ → ℕ) (s : SinflSub) (k : ℕ) (P : ℕ → Prop) : Prop where
  short : Covers n lens s.tbl bits fun _ => True
  k_le : k ≤ 2 ^ bits
  prefix_eq : s.sub_prefix = if k = 0 then none else some (rev bits (k - 1))
  le_end : 2 ^ bits ≤ s.tbl_end
  end_le : s.tbl_end ≤ 2 ^ bits + k * 2 ^ (L - bits)
  start_le : 0 < k → 2 ^ bits ≤ s.sub_start
  end_eq : 0 < k → s.tbl_end = s.sub_start + 2 ^ s.sub_bits
  sub_le : 0 < k → s.sub_bits ≤ L - bits
  pointer : 0 < k → read s.tbl (rev bits (k - 1)) = sinfl_pointer s.sub_start s.sub_bits
  wide : ∀ t, t < n → bits < lens t → sinfl_prefix_of n lens bits t + 1 = k →
    lens t ≤ bits + s.sub_bits
  prefix_lt : ∀ t, t < n → bits < lens t → P t → sinfl_prefix_of n lens bits t < k
  held : ∀ t, t < n → bits < lens t → P t → ∃ start sub, Held n L bits lens s.tbl start sub t ∧
    if sinfl_prefix_of n lens bits t + 1 = k then start = s.sub_start ∧ sub = s.sub_bits
    else start + 2 ^ sub ≤ s.sub_start

/-- The stage does not depend on the cursor. -/
theorem Stage.withGen {s : SinflSub} {k : ℕ} {P Q : ℕ → Prop} (h : Stage n L bits lens s k P)
    (gen : SinflGen) (hQ : ∀ t, t < n → Q t → P t) :
    Stage n L bits lens { s with gen := gen } k Q where
  short := h.short
  k_le := h.k_le
  prefix_eq := h.prefix_eq
  le_end := h.le_end
  end_le := h.end_le
  start_le := h.start_le
  end_eq := h.end_eq
  sub_le := h.sub_le
  pointer := h.pointer
  wide := h.wide
  prefix_lt := fun t ht hlong hq => h.prefix_lt t ht hlong (hQ t ht hq)
  held := fun t ht hlong hq => h.held t ht hlong (hQ t ht hq)

/-- Every symbol in place ends in front of the end of the table. -/
theorem Stage.end_le_of_held {s : SinflSub} {k start sub t : ℕ} {P : ℕ → Prop}
    (h : Stage n L bits lens s k P) (hk : 0 < k)
    (hif : if sinfl_prefix_of n lens bits t + 1 = k then start = s.sub_start ∧ sub = s.sub_bits
      else start + 2 ^ sub ≤ s.sub_start) : start + 2 ^ sub ≤ s.tbl_end := by
  have hend := h.end_eq hk
  have hroom := Nat.two_pow_pos s.sub_bits
  split_ifs at hif
  · rw [hif.1, hif.2, hend]
  · omega

/-! ## A new sub-table

Its first bits have no entry yet, because the words come in order.
-/

theorem rev_prefix (hat : Cursor n lens gen c) (hlong : bits < gen.len) :
    gen.word &&& ((1 <<< bits) - 1) = rev bits (c / 2 ^ (gen.len - bits)) := by
  have hmod := rev_mod (gen.len - bits) bits c
  rw [Nat.sub_add_cancel (le_of_lt hlong)] at hmod
  rw [Nat.one_shiftLeft, Nat.and_two_pow_sub_one_eq_mod, hat.word_eq, hmod]

theorem Cursor.prefix_lt (hat : Cursor n lens gen c) (hlong : bits < gen.len) :
    c / 2 ^ (gen.len - bits) < 2 ^ bits := by
  rw [Nat.div_lt_iff_lt_mul (Nat.two_pow_pos _), ← pow_add, Nat.add_sub_cancel' (le_of_lt hlong)]
  exact hat.lt

theorem sub_open_gen (cnt : List ℕ) (bits : ℕ) (s : SinflSub) :
    (sinfl_sub_open cnt bits s).gen = s.gen := by
  rw [sinfl_sub_open]
  split_ifs <;> rfl

/-- The first bits of a long word are no short symbol's cell. -/
theorem short_ne_prefix (hin : TableInput n lens L cnt sort) (hat : Cursor n lens gen c)
    (hcnt : gen.cnt ≠ 0) (hlong : bits < gen.len) {t : ℕ} (ht : t < n) (hpos : 0 < lens t)
    (hle : lens t ≤ bits) :
    rev bits (c / 2 ^ (gen.len - bits)) % 2 ^ lens t ≠ word n lens t := by
  obtain ⟨u, hu, hulen, _, huword, _⟩ := hat.exists_symbol hin hcnt
  rw [← rev_prefix hat hlong, ← huword, Nat.one_shiftLeft, Nat.and_two_pow_sub_one_eq_mod,
    Nat.mod_mod_of_dvd _ (Nat.pow_dvd_pow 2 hle)]
  refine hin.complete.fits.word_mod_ne ht hu ?_ hpos (by omega)
  rintro rfl
  omega

/-- **A word with new first bits opens a sub-table**, wide enough for all the words with them. -/
theorem Stage.open {s : SinflSub} {k : ℕ} {P : ℕ → Prop} (hin : TableInput n lens L cnt sort)
    (h : Stage n L bits lens s k P) (hat : Cursor n lens s.gen c) (hcnt : s.gen.cnt ≠ 0)
    (hlong : bits < s.gen.len) (hle : s.gen.len ≤ L)
    (hk : k ≤ c / 2 ^ (s.gen.len - bits) + 1)
    (halign : k ≤ c / 2 ^ (s.gen.len - bits) → c % 2 ^ (s.gen.len - bits) = 0) :
    Stage n L bits lens (sinfl_sub_open cnt bits s) (c / 2 ^ (s.gen.len - bits) + 1) P := by
  have hpre := rev_prefix hat hlong
  have hq := hat.prefix_lt hlong
  have hmod := Nat.div_add_mod c (2 ^ (s.gen.len - bits))
  have hne := fun t ht hpos hw => short_ne_prefix hin hat hcnt hlong (t := t) ht hpos hw
  generalize hqdef : c / 2 ^ (s.gen.len - bits) = q at *
  rw [sinfl_sub_open, hpre]
  rcases Nat.eq_or_lt_of_le hk with rfl | hlt
  · -- the open sub-table is the one
    rw [if_neg]
    · exact h
    · rw [h.prefix_eq, if_neg (by omega), Nat.add_sub_cancel]
      exact not_not.mpr rfl
  -- first bits that are new: no sub-table of before is theirs, and the pointer goes into a free
  -- cell
  · have hlow {p : ℕ} (hp : p < k) : rev bits p ≠ rev bits q := by
      intro heq
      have := rev_inj (by have := h.k_le; omega) hq heq
      omega
    rw [if_pos]
    swap
    · rw [h.prefix_eq]
      split_ifs with hk0
      · simp
      · intro heq
        exact hlow (show k - 1 < k by omega) (Option.some_inj.mp heq)
    have hc : c = q * 2 ^ (s.gen.len - bits) := by
      rw [halign (by omega), Nat.mul_comm] at hmod
      omega
    have hlen : bits + (s.gen.len - bits) = s.gen.len := by omega
    -- wide enough for every word with these first bits
    have hspec := sub_bits_spec hin 16 (s.gen.len - bits) s.gen.cnt q
      (by omega) hq (by have := hin.le; omega) (by rw [hlen, ← hc]; exact hat.le_used)
      (by rw [hlen, ← hc]; exact hat.cnt_eq)
    generalize sinfl_sub_bits cnt bits 16 (s.gen.len - bits) s.gen.cnt = sub at hspec
    obtain ⟨_, hsub, hfill⟩ := hspec
    have hpow : 2 ^ sub ≤ 2 ^ (L - bits) := Nat.pow_le_pow_right (by omega) (by omega)
    have hkq : k * 2 ^ (L - bits) ≤ q * 2 ^ (L - bits) := Nat.mul_le_mul_right _ (by omega)
    have hend := h.end_le
    have hstart := h.le_end
    have hroom := Nat.two_pow_pos sub
    dsimp only
    refine ⟨?_, by omega, ?_, ?_, ?_, fun _ => hstart, fun _ => ?_, fun _ => ?_,
      fun _ => read_write_self _ _ _, ?_, ?_, ?_⟩
    · intro t ht hpos hw _ x hx hword
      rw [read_write_of_ne]
      · exact h.short t ht hpos hw trivial x hx hword
      · rintro rfl
        exact hne t ht hpos hw hword
    · rw [if_neg (by omega), Nat.add_sub_cancel]
    · dsimp only
      omega
    · dsimp only
      rw [Nat.one_shiftLeft, Nat.add_mul, Nat.one_mul]
      omega
    · rw [Nat.one_shiftLeft]
    · dsimp only
      omega
    · intro t _ _ hp
      refine lens_le_of_filled (Nat.le_add_right _ _) ?_
        (show sinfl_prefix_of n lens bits t = q by omega)
      rw [Nat.add_sub_cancel_left]
      exact hfill
    · intro t ht hlt' hP
      have := h.prefix_lt t ht hlt' hP
      omega
    · intro t ht hlt' hP
      have hp := h.prefix_lt t ht hlt' hP
      obtain ⟨start, sub', hheld, hif⟩ := h.held t ht hlt' hP
      have hbelow := h.end_le_of_held (by omega) hif
      refine ⟨start, sub', ⟨hheld.lens_le, hheld.sub_le, hheld.le_start, ?_, ?_⟩, ?_⟩
      · rw [read_write_of_ne _ (hlow hp)]
        exact hheld.pointer
      · intro y hy hword
        have hge := hheld.le_start
        have hlt'' := rev_lt bits q
        rw [read_write_of_ne _ (by omega)]
        exact hheld.cells y hy hword
      · rw [if_neg (by omega)]
        exact hbelow

/-! ## Filling it

One word more.
-/

/-- A cell of a sub-table, with the first bits that lead there, starts with the word. -/
theorem mod_of_parts {t p y : ℕ} (hlong : bits ≤ lens t) (hp : sinfl_prefix_of n lens bits t = p)
    (hy : y % 2 ^ (lens t - bits) = word n lens t / 2 ^ bits) :
    (rev bits p + 2 ^ bits * y) % 2 ^ lens t = word n lens t := by
  have hlt := rev_lt bits p
  have hpow : 2 ^ lens t = 2 ^ bits * 2 ^ (lens t - bits) := by
    rw [← pow_add, Nat.add_sub_cancel' hlong]
  have hlow : (rev bits p + 2 ^ bits * y) % 2 ^ bits = rev bits p := by
    rw [Nat.add_mul_mod_self_left, Nat.mod_eq_of_lt hlt]
  have hhigh : (rev bits p + 2 ^ bits * y) / 2 ^ bits = y := by
    rw [Nat.add_mul_div_left _ _ (Nat.two_pow_pos _), Nat.div_eq_of_lt hlt, Nat.zero_add]
  rw [hpow, Nat.mod_mul, hlow, hhigh, hy, ← hp, ← word_mod_bits hlong, Nat.mod_add_div]

/-- **The words in front of the cursor get their cells**, and no other word loses one. -/
theorem Stage.fill {s : SinflSub} {q : ℕ} (hin : TableInput n lens L cnt sort)
    (h : Stage n L bits lens s (q + 1) (Passed n lens s.gen.len c))
    (hat : Cursor n lens s.gen c) (hcnt : s.gen.cnt ≠ 0) (hlong : bits < s.gen.len)
    (hle : s.gen.len ≤ L) (hq : c / 2 ^ (s.gen.len - bits) = q) :
    Stage n L bits lens (sinfl_sub_fill sort bits s) (q + 1)
      (Passed n lens s.gen.len (c + 1)) := by
  obtain ⟨u, hu, hulen, hunum, huword, hsort⟩ := hat.exists_symbol hin hcnt
  have huq : sinfl_prefix_of n lens bits u = q := by rw [sinfl_prefix_of, hulen, hunum, hq]
  have hwide := h.wide u hu (by omega) (by rw [huq])
  have hend := h.end_eq (Nat.succ_pos q)
  have hstart := h.start_le (Nat.succ_pos q)
  obtain ⟨w, hw⟩ : ∃ w, w = word n lens u / 2 ^ bits := ⟨_, rfl⟩
  have hshift : s.gen.word >>> bits = w := by rw [Nat.shiftRight_eq_div_pow, ← huword, hw]
  have hhigh : w < 2 ^ (s.gen.len - bits) := by
    rw [hw, Nat.div_lt_iff_lt_mul (Nat.two_pow_pos _), ← pow_add,
      Nat.sub_add_cancel (le_of_lt hlong), ← hulen]
    exact word_lt u
  have hstride : 2 ^ (s.gen.len - bits) ≤ 2 ^ s.sub_bits := Nat.pow_le_pow_right (by omega) (by omega)
  have hentry : (read sort s.gen.sorted <<< 16) ||| ((s.gen.len - bits) &&& 0xf) =
      sinfl_entry u (s.gen.len - bits) := by
    rw [hsort, sinfl_entry, show (0xf : ℕ) = 2 ^ 4 - 1 from rfl, Nat.and_two_pow_sub_one_eq_mod,
      Nat.mod_eq_of_lt (by have := hin.le; omega)]
  have hread (j : ℕ) : read (sinfl_sub_fill sort bits s).tbl j =
      if s.sub_start + w ≤ j ∧ j < s.tbl_end ∧
        (j - (s.sub_start + w)) % 2 ^ (s.gen.len - bits) = 0
      then sinfl_entry u (s.gen.len - bits) else read s.tbl j := by
    rw [sinfl_sub_fill]
    dsimp only
    rw [hentry, hshift, Nat.one_shiftLeft, read_stride _ _ _ _ _ _ (by omega) (Nat.two_pow_pos _)
      (by omega)]
  have hlower (j : ℕ) (hj : j < s.sub_start) :
      read (sinfl_sub_fill sort bits s).tbl j = read s.tbl j := by
    rw [hread, if_neg (by omega)]
  -- in the open sub-table, the cells that are written are those of the word
  have hopen (y : ℕ) (hy : y < 2 ^ s.sub_bits) :
      read (sinfl_sub_fill sort bits s).tbl (s.sub_start + y) =
        if y % 2 ^ (s.gen.len - bits) = w
        then sinfl_entry u (s.gen.len - bits) else read s.tbl (s.sub_start + y) := by
    rw [hread]
    refine if_congr ?_ rfl rfl
    rw [Nat.add_le_add_iff_left, Nat.add_sub_add_left]
    constructor
    · rintro ⟨hwy, _, hmod⟩
      have hsplit : y = w + 2 ^ (s.gen.len - bits) * ((y - w) / 2 ^ (s.gen.len - bits)) := by
        have := Nat.div_add_mod (y - w) (2 ^ (s.gen.len - bits))
        omega
      rw [hsplit, Nat.add_mul_mod_self_left, Nat.mod_eq_of_lt hhigh]
    · intro hmod
      have hwy : w ≤ y := hmod ▸ Nat.mod_le _ _
      refine ⟨hwy, by omega, Nat.sub_mod_eq_zero_of_mod_eq ?_⟩
      rw [hmod, Nat.mod_eq_of_lt hhigh]
  refine ⟨?_, h.k_le, h.prefix_eq, h.le_end, h.end_le, h.start_le, h.end_eq, h.sub_le, ?_,
    h.wide, ?_, ?_⟩
  · intro t ht hpos hw _ x hx hword
    rw [hlower x (by omega)]
    exact h.short t ht hpos hw trivial x hx hword
  · intro hk
    have hlt := rev_lt bits (q + 1 - 1)
    rw [hlower _ (by omega)]
    exact h.pointer hk
  · intro t ht hlt hp
    rcases passed_succ hp with hp' | ⟨htlen, htnum⟩
    · exact h.prefix_lt t ht hlt hp'
    · rw [sinfl_prefix_of, htlen, htnum, hq]
      exact Nat.lt_succ_self q
  · intro t ht hlt hp
    rcases passed_succ hp with hp' | ⟨htlen, htnum⟩
    · obtain ⟨start, sub, hheld, hif⟩ := h.held t ht hlt hp'
      have hptr := rev_lt bits (sinfl_prefix_of n lens bits t)
      refine ⟨start, sub, ⟨hheld.lens_le, hheld.sub_le, hheld.le_start, ?_, ?_⟩, hif⟩
      · rw [hlower _ (by omega)]
        exact hheld.pointer
      · intro y hy hword
        split_ifs at hif with hsame
        · obtain ⟨rfl, rfl⟩ := hif
          rw [hopen y hy, if_neg]
          · exact hheld.cells y hy hword
          · intro hy'
            rw [← hulen] at hy'
            have htu : t = u := hin.complete.fits.unique ht hu (by omega) (by omega)
              (mod_of_parts (by omega) (by omega) hword)
              (mod_of_parts (by omega) huq (by rw [hy', hw]))
            rcases hp' with hp' | hp' <;> rw [htu] at hp' <;> omega
        · rw [hlower _ (by omega)]
          exact hheld.cells y hy hword
    · have htu : t = u := by
        have hword : word n lens t = word n lens u := by rw [word, word, htlen, htnum, hulen, hunum]
        exact hin.complete.fits.unique ht hu (by omega) (by omega) (Nat.mod_eq_of_lt (word_lt t))
          (by rw [hword, Nat.mod_eq_of_lt (word_lt u)])
      subst htu
      refine ⟨s.sub_start, s.sub_bits, ⟨hwide, h.sub_le (Nat.succ_pos q), hstart, ?_, ?_⟩, ?_⟩
      · have hptr := rev_lt bits (sinfl_prefix_of n lens bits t)
        have hpointer := h.pointer (Nat.succ_pos q)
        rw [Nat.succ_sub_one] at hpointer
        rw [hlower _ (by omega), huq]
        exact hpointer
      · intro y hy hword
        rw [htlen] at hword
        rw [hopen y hy, if_pos (by rw [hword, hw]), htlen]
      · rw [if_pos (by rw [huq])]
        exact ⟨rfl, rfl⟩

/-! ## All the words

The loop, to the last word of the code.
-/

/-- A place with first bits that are new is at their start. -/
theorem mod_eq_zero_of_div_lt {m : ℕ} (h : c / m < (c + 1) / m) : (c + 1) % m = 0 := by
  rw [Nat.succ_div] at h
  split_ifs at h with hdvd
  · exact Nat.mod_eq_zero_of_dvd hdvd
  · omega

/-- **The sub-tables.** Every long word is found in two steps, and every short one still in one. -/
theorem build_subtbl_loop_spec (hin : TableInput n lens L cnt sort) (fuel : ℕ) {s : SinflSub}
    {k : ℕ} (h : Stage n L bits lens s k (Passed n lens s.gen.len c))
    (hat : Cursor n lens s.gen c) (hcnt : s.gen.cnt ≠ 0) (hlong : bits < s.gen.len)
    (hle : s.gen.len ≤ L) (hk : k ≤ c / 2 ^ (s.gen.len - bits) + 1)
    (halign : k ≤ c / 2 ^ (s.gen.len - bits) → c % 2 ^ (s.gen.len - bits) = 0)
    (hfuel : n ≤ s.gen.sorted + fuel) :
    let tbl := sinfl_build_subtbl_loop sort cnt bits fuel s
    Covers n lens tbl bits (fun _ => True) ∧ ∀ t, t < n → bits < lens t → ∃ start sub,
      Held n L bits lens tbl start sub t ∧ start + 2 ^ sub ≤ 2 ^ bits + 2 ^ L := by
  induction fuel generalizing s k c with
  | zero =>
    have := hat.sorted_lt hcnt
    omega
  | succ fuel ih =>
    have hopen := h.open hin hat hcnt hlong hle hk halign
    have hq := hat.prefix_lt hlong
    have hgen := sub_open_gen cnt bits s
    rw [sinfl_build_subtbl_loop]
    generalize sinfl_sub_open cnt bits s = s₁ at hopen hgen ⊢
    rw [← hgen] at hat hcnt hlong hle hq hfuel hopen
    have hfill := hopen.fill hin hat hcnt hlong hle rfl
    have hfillgen : (sinfl_sub_fill sort bits s₁).gen =
        { s₁.gen with sorted := s₁.gen.sorted + 1 } := rfl
    generalize sinfl_sub_fill sort bits s₁ = s₂ at hfill hfillgen ⊢
    dsimp only
    by_cases hones : c + 1 = 2 ^ s₁.gen.len
    · -- the last word: everything is in place
      rw [if_pos (by rw [hfillgen, hat.word_eq]; exact (word_eq_ones hat.lt).mpr hones)]
      refine ⟨hfill.short, fun t ht hlt => ?_⟩
      obtain ⟨start, sub, hheld, hif⟩ := hfill.held t ht hlt
        (hat.passed_all hin hle hones hcnt ht (by omega))
      refine ⟨start, sub, hheld, ?_⟩
      have hbelow := hfill.end_le_of_held (Nat.succ_pos _) hif
      have hend := hfill.end_le
      have hroom : (c / 2 ^ (s₁.gen.len - bits) + 1) * 2 ^ (L - bits) ≤ 2 ^ L := by
        rw [show 2 ^ L = 2 ^ bits * 2 ^ (L - bits) by rw [← pow_add]; congr 1; omega]
        exact Nat.mul_le_mul_right _ hq
      omega
    · rw [if_neg (by rw [hfillgen, hat.word_eq]; exact fun hw => hones ((word_eq_ones hat.lt).mp hw))]
      have hnext := hat.next hcnt (lt_of_le_of_ne hat.lt hones)
      obtain ⟨hne, hlen, hle', hat', hback⟩ := sub_len_spec hin 15
        (by have := hin.le; dsimp only; omega) (by dsimp only; omega) hnext
      have hsorted := sub_len_sorted cnt 16 { s₁.gen with
        word := sinfl_next_word s₁.gen.word ((1 <<< s₁.gen.len) - 1), cnt := s₁.gen.cnt - 1,
        sorted := s₁.gen.sorted + 1 }
      rw [hfillgen]
      dsimp only at hne hlen hle' hat' hback hsorted ⊢
      generalize sinfl_sub_len cnt 16 { s₁.gen with
        word := sinfl_next_word s₁.gen.word ((1 <<< s₁.gen.len) - 1), cnt := s₁.gen.cnt - 1,
        sorted := s₁.gen.sorted + 1 } = gen' at hne hlen hle' hat' hback hsorted ⊢
      have hpow : 2 ^ (gen'.len - bits) =
          2 ^ (s₁.gen.len - bits) * 2 ^ (gen'.len - s₁.gen.len) := by
        rw [← pow_add]
        congr 1
        omega
      -- the first bits of the next word are those of this one, or the ones after them
      have hfront : (c + 1) * 2 ^ (gen'.len - s₁.gen.len) / 2 ^ (gen'.len - bits) =
          (c + 1) / 2 ^ (s₁.gen.len - bits) := by
        rw [hpow, Nat.mul_div_mul_right _ _ (Nat.two_pow_pos _)]
      refine ih (hfill.withGen gen' fun t ht hp => hback t ht hp) hat' hne (by dsimp only; omega)
        hle' ?_ ?_ ?_
      · dsimp only
        rw [hfront]
        exact Nat.succ_le_succ (Nat.div_le_div_right (Nat.le_succ c))
      · dsimp only
        rw [hfront, hpow, Nat.mul_mod_mul_right]
        intro hlt
        rw [mod_eq_zero_of_div_lt (by omega), Nat.zero_mul]
      · dsimp only
        omega

end Subtable

end Pakka
