/-
The codes of the encoder.

The counts of the tree are handed out to the symbols of the array, so each symbol in use gets a
length and each length as many symbols as the tree has leaves there. The words are then those of
the canonical code with these lengths, in the bit order of the stream (`huff_spec`).

No property of the frequencies is used but which of them are zero, and that they fit their words. So
the code is complete for every text; that it is a short one is not claimed here.
-/
import Pakka.SdeflTree

set_option autoImplicit false

namespace Pakka

open Cells CountingSort CanonicalCode BitString Function

/-! ## Handing out the lengths

The longest lengths go to the front of the array, where the least frequent symbols are.
-/

section GenLens

variable {A len_cnt lens : List ℕ}

/-- The inner loop gives one length to the symbols of some cells. -/
theorem gen_lens_inner (A : List ℕ) (v c i : ℕ) (lens : List ℕ) :
    let r := c.fold (fun _ _ (s : ℕ × List ℕ) =>
      (s.1 + 1, write s.2 (sdefl_sym (read A s.1)) v)) (i, lens)
    r.1 = i + c ∧ (∀ x, i ≤ x → x < i + c → read r.2 (sdefl_sym (read A x)) = v) ∧
      ∀ sym, (∀ x, i ≤ x → x < i + c → sdefl_sym (read A x) ≠ sym) →
        read r.2 sym = read lens sym := by
  induction c with
  | zero => exact ⟨rfl, fun x hx hx' => by omega, fun _ _ => rfl⟩
  | succ c ih =>
    obtain ⟨hfst, hhit, hmiss⟩ := ih
    simp only [Nat.fold_succ]
    generalize c.fold (fun _ _ (s : ℕ × List ℕ) =>
      (s.1 + 1, write s.2 (sdefl_sym (read A s.1)) v)) (i, lens) = r at hfst hhit hmiss ⊢
    refine ⟨by omega, fun x hx hx' => ?_, fun sym hsym => ?_⟩ <;> rw [read_write, hfst]
    · by_cases heq : sdefl_sym (read A x) = sdefl_sym (read A (i + c))
      · rw [heq, update_self]
      · rw [update_of_ne heq]
        refine hhit x hx ?_
        by_contra hcon
        exact heq (by rw [show x = i + c by omega])
    · rw [update_of_ne (Ne.symm (hsym (i + c) (by omega) (by omega)))]
      exact hmiss sym fun x hx hx' => hsym x hx (by omega)

/-- What holds when the lengths above `m` are handed out: they went to the cells in front, each
length to a run of them. -/
structure LensInv (A len_cnt lens : List ℕ) (used m : ℕ) (s : ℕ × List ℕ) : Prop where
  sum : s.1 + below (read len_cnt) (m + 1) = used
  run : ∀ x, x < s.1 → ∃ l, m < l ∧ read s.2 (sdefl_sym (read A x)) = l ∧
    used ≤ x + below (read len_cnt) (l + 1) ∧ x + below (read len_cnt) l < used
  miss : ∀ sym, (∀ x, x < s.1 → sdefl_sym (read A x) ≠ sym) → read s.2 sym = read lens sym

variable {used m : ℕ} {s : ℕ × List ℕ} {live : ℕ → Prop}

theorem LensInv.step (h : LensInv A len_cnt lens used (m + 1) s) (hA : Lists A used live) :
    LensInv A len_cnt lens used m ((read len_cnt (m + 1)).fold (fun _ _ (s : ℕ × List ℕ) =>
      (s.1 + 1, write s.2 (sdefl_sym (read A s.1)) (m + 1))) s) := by
  have hsum := h.sum
  rw [below_succ] at hsum
  obtain ⟨hfst, hhit, hmiss⟩ := gen_lens_inner A (m + 1) (read len_cnt (m + 1)) s.1 s.2
  refine ⟨by rw [hfst]; omega, fun x hx => ?_, fun sym hsym => ?_⟩
  · rw [hfst] at hx
    rcases Nat.lt_or_ge x s.1 with hlt | hge
    · obtain ⟨l, hl, hread, hlo, hhi⟩ := h.run x hlt
      refine ⟨l, by omega, ?_, hlo, hhi⟩
      rw [hmiss _ fun y hy hy' heq => ?_, hread]
      have := hA.inj y x (by omega) (by omega) heq
      omega
    · refine ⟨m + 1, by omega, hhit x hge hx, ?_, by omega⟩
      rw [below_succ]
      omega
  · rw [hfst] at hsym
    rw [hmiss sym fun x hx hx' => hsym x hx', h.miss sym fun x hx => hsym x (by omega)]

theorem gen_lens_inv (lens : List ℕ) (hA : Lists A used live) (max_code_len : ℕ)
    (htotal : below (read len_cnt) (max_code_len + 1) = used) :
    LensInv A len_cnt lens used 0 (sdefl_gen_lens A len_cnt lens max_code_len) := by
  have hrun (k : ℕ) (s : ℕ × List ℕ) (h : LensInv A len_cnt lens used k s) :
      LensInv A len_cnt lens used 0 (k.foldRev (fun l _ s =>
        (read len_cnt (l + 1)).fold (fun _ _ s =>
          (s.1 + 1, write s.2 (sdefl_sym (read A s.1)) (l + 1))) s) s) := by
    induction k generalizing s with
    | zero => exact h
    | succ k ih =>
      rw [Nat.foldRev_succ]
      exact ih _ (h.step hA)
  apply hrun
  exact ⟨by rw [htotal, Nat.zero_add], fun x hx => absurd hx (Nat.not_lt_zero _), fun _ _ => rfl⟩

/-- **Each length gets its symbols**: as many as counted, and every symbol in use has one. -/
theorem gen_lens_spec {n max_code_len : ℕ} (hA : Lists A used live)
    (hlive : ∀ sym, live sym → sym < n) (hzero : read len_cnt 0 = 0)
    (htotal : below (read len_cnt) (max_code_len + 1) = used)
    (hlens : ∀ sym, sym < n → ¬ live sym → read lens sym = 0) :
    let r := (sdefl_gen_lens A len_cnt lens max_code_len).2
    (∀ sym, live sym → 0 < read r sym) ∧ (∀ sym, sym < n → read r sym ≤ max_code_len) ∧
      (∀ sym, sym < n → ¬ live sym → read r sym = 0) ∧
      ∀ l, 0 < l → l ≤ max_code_len → count n (read r) l = read len_cnt l := by
  have hinv := gen_lens_inv lens hA max_code_len htotal
  generalize sdefl_gen_lens A len_cnt lens max_code_len = s at hinv ⊢
  dsimp only
  have hfst : s.1 = used := by
    have h := hinv.sum
    rw [below_succ, hzero] at h
    simpa [below] using h
  have hdead (sym : ℕ) (hsym : sym < n) (hl : ¬ live sym) : read s.2 sym = 0 := by
    rw [hinv.miss sym fun x hx heq => hl (heq ▸ hA.mem x (by omega)), hlens sym hsym hl]
  -- a cell lies in the run of its length, counted from the end of the array
  have hrun (x : ℕ) (hx : x < used) : ∃ l, 0 < l ∧ l ≤ max_code_len ∧
      read s.2 (sdefl_sym (read A x)) = l ∧ used ≤ x + below (read len_cnt) (l + 1) ∧
      x + below (read len_cnt) l < used := by
    obtain ⟨l, hl, hread, hlo, hhi⟩ := hinv.run x (by omega)
    refine ⟨l, hl, ?_, hread, hlo, hhi⟩
    by_contra hcon
    have := below_mono (read len_cnt) (show max_code_len + 1 ≤ l by omega)
    omega
  refine ⟨fun sym hl => ?_, fun sym hsym => ?_, hdead, fun l hl hlm => ?_⟩
  · obtain ⟨x, hx, rfl⟩ := hA.onto sym hl
    obtain ⟨l, hl, -, hread, -⟩ := hrun x hx
    omega
  · by_cases hl : live sym
    · obtain ⟨x, hx, rfl⟩ := hA.onto sym hl
      obtain ⟨l, -, hlm, hread, -⟩ := hrun x hx
      omega
    · rw [hdead sym hsym hl]
      exact Nat.zero_le _
  · -- the symbols of a length are those of its run of cells
    have himage : (Finset.range n).filter (fun sym => read s.2 sym = l) =
        (Finset.Ico (used - below (read len_cnt) (l + 1)) (used - below (read len_cnt) l)).image
          fun x => sdefl_sym (read A x) := by
      ext sym
      simp only [Finset.mem_filter, Finset.mem_range, Finset.mem_image, Finset.mem_Ico]
      constructor
      · rintro ⟨hsym, hread⟩
        have hlv : live sym := by
          by_contra hcon
          rw [hdead sym hsym hcon] at hread
          omega
        obtain ⟨x, hx, rfl⟩ := hA.onto sym hlv
        obtain ⟨l', hl', -, hread', hlo, hhi⟩ := hrun x hx
        obtain rfl : l' = l := by omega
        exact ⟨x, ⟨by omega, by omega⟩, rfl⟩
      · rintro ⟨x, ⟨hlo, hhi⟩, rfl⟩
        obtain ⟨l', hl', -, hread', hlo', hhi'⟩ := hrun x (by omega)
        refine ⟨hlive _ (hA.mem x (by omega)), ?_⟩
        rw [hread']
        rcases Nat.lt_trichotomy l l' with hlt | heq | hgt
        · have := below_mono (read len_cnt) (show l + 1 ≤ l' by omega)
          omega
        · exact heq.symm
        · have := below_mono (read len_cnt) (show l' + 1 ≤ l by omega)
          omega
    have hle := below_mono (read len_cnt) (show l + 1 ≤ max_code_len + 1 by omega)
    rw [count, Nat.count_eq_card_filter_range, himage, Finset.card_image_of_injOn, Nat.card_Ico]
    · rw [below_succ] at hle ⊢
      omega
    · intro x hx y hy hxy
      simp only [Finset.coe_Ico, Set.mem_Ico] at hx hy
      exact hA.inj x y (by omega) (by omega) hxy

end GenLens

/-! ## Numbers

The next number of each length, by the recurrence of the format.
-/

section Numbers

theorem gen_nxt_spec (len_cnt : List ℕ) {max_code_len l : ℕ} (hl : l ≤ max_code_len) :
    read (sdefl_gen_nxt len_cnt max_code_len) l = first (read len_cnt) l := by
  have hrun (k : ℕ) : ∀ l, l ≤ k + 1 →
      read (k.fold (fun i _ nxt =>
        write nxt (i + 2) ((read nxt (i + 1) + read len_cnt (i + 1)) <<< 1)) []) l =
        first (read len_cnt) l := by
    induction k with
    | zero =>
      intro l hl
      obtain rfl | rfl : l = 0 ∨ l = 1 := by omega
      · rfl
      · rfl
    | succ k ih =>
      intro l hl
      rw [Nat.fold_succ, read_write]
      by_cases h : l = k + 2
      · rw [h, update_self, ih (k + 1) le_rfl, ← used_eq_first _ (by omega), first_succ,
          Nat.shiftLeft_eq]
        omega
      · rw [update_of_ne h, ih l (by omega)]
  rw [sdefl_gen_nxt]
  rcases Nat.eq_zero_or_pos l with rfl | hpos
  · exact hrun _ 0 (by omega)
  · exact hrun _ l (by omega)

/-- The counting loop: each symbol takes the next number of its length. -/
theorem gen_numbers (lens nxt A : List ℕ) (n : ℕ) :
    let s := n.fold (fun sym _ (s : List ℕ × List ℕ) =>
      (write s.1 (read lens sym) (read s.1 (read lens sym) + 1),
        write s.2 sym (read s.1 (read lens sym)))) (nxt, A)
    (∀ l, read s.1 l = read nxt l + Nat.count (fun t => read lens t = l) n) ∧
      ∀ sym, sym < n →
        read s.2 sym = read nxt (read lens sym) +
          Nat.count (fun t => read lens t = read lens sym) sym := by
  induction n with
  | zero => exact ⟨fun l => by simp, fun sym hsym => absurd hsym (Nat.not_lt_zero _)⟩
  | succ n ih =>
    obtain ⟨hnxt, hnum⟩ := ih
    simp only [Nat.fold_succ]
    refine ⟨fun l => ?_, fun sym hsym => ?_⟩
    · rw [read_write, Nat.count_succ]
      by_cases h : l = read lens n
      · rw [h, update_self, hnxt, if_pos rfl, Nat.add_assoc]
      · rw [update_of_ne h, hnxt, if_neg (Ne.symm h), Nat.add_zero]
    · rw [read_write]
      by_cases h : sym = n
      · rw [h, update_self, hnxt]
      · rw [update_of_ne h, hnum sym (by omega)]

/-- Numbers from a table of counts that is right up to the greatest length. -/
theorem number_eq {n L sym : ℕ} {lens : ℕ → ℕ} {cnt : ℕ → ℕ}
    (hcnt : ∀ l, 0 < l → l ≤ L → count n lens l = cnt l) (hle : lens sym ≤ L) :
    number n lens sym = first cnt (lens sym) + Nat.count (fun t => lens t = lens sym) sym := by
  rw [number]
  congr 1
  cases hl : lens sym with
  | zero => rfl
  | succ k =>
    rw [first_succ, first_succ, used_congr fun l h0 hlk => hcnt l h0 (by omega)]

end Numbers

/-! ## Reversal by groups

Swapping pairs, then groups of two, of four and of eight bits reverses a word of sixteen.
-/

section Reversal

/-- Swapping the groups of `g` bits among the low sixteen. -/
theorem swap_groups (c : ℕ) {g m m' : ℕ} (hm : m < 2 ^ (16 - g)) (hm' : m' < 2 ^ 16) (hg : g ≤ 16)
    (h : ∀ j, j < 16 →
      (g ≤ j ∧ m.testBit (j - g) = true ∧ m'.testBit (j + g) = false ∧ j ^^^ g = j - g) ∨
        ((g ≤ j → m.testBit (j - g) = false) ∧ m'.testBit (j + g) = true ∧ j ^^^ g = j + g)) (j : ℕ) :
    (((c &&& m) <<< g) ||| ((c &&& m') >>> g)).testBit j =
      (decide (j < 16) && c.testBit (j ^^^ g)) := by
  rw [Nat.testBit_or, Nat.testBit_shiftLeft, Nat.testBit_and, Nat.testBit_shiftRight,
    Nat.testBit_and, Nat.add_comm g j]
  by_cases hj : j < 16
  · rcases h j hj with ⟨hgj, h1, h2, h3⟩ | ⟨h1, h2, h3⟩
    · rw [h1, h2, h3]
      simp [hj, hgj]
    · rw [h2, h3]
      by_cases hgj : g ≤ j
      · rw [h1 hgj]
        simp [hj]
      · simp [hj, hgj]
  · have h1 : m.testBit (j - g) = false :=
      Nat.testBit_eq_false_of_lt (lt_of_lt_of_le hm (Nat.pow_le_pow_right (by decide) (by omega)))
    have h2 : m'.testBit (j + g) = false :=
      Nat.testBit_eq_false_of_lt (lt_of_lt_of_le hm' (Nat.pow_le_pow_right (by decide) (by omega)))
    simp [hj, h1, h2]

theorem testBit_rev {k n : ℕ} (j : ℕ) :
    (rev k n).testBit j = (decide (j < k) && n.testBit (k - 1 - j)) := by
  induction k generalizing n j with
  | zero => simp
  | succ k ih =>
    rw [rev_succ, Nat.add_comm, Nat.mul_comm, Nat.mul_comm (n % 2)]
    by_cases hj : j < k
    · rw [Nat.testBit_two_pow_mul_add _ (rev_lt _ _), if_pos hj, ih,
        show k + 1 - 1 - j = k - 1 - j + 1 by omega, Nat.testBit_succ]
      simp [hj, show j < k + 1 by omega]
    · rw [Nat.testBit_two_pow_mul_add _ (rev_lt _ _), if_neg hj]
      rcases Nat.eq_or_lt_of_le (Nat.le_of_not_lt hj) with rfl | hlt
      · simp [Nat.testBit_zero]
      · have hbig : (n % 2).testBit (j - k) = false :=
          Nat.testBit_eq_false_of_lt (lt_of_lt_of_le (Nat.mod_lt _ (by decide))
            (by rw [show (2 : ℕ) = 2 ^ 1 from rfl]
                exact Nat.pow_le_pow_right (by decide) (by omega)))
        rw [hbig]
        simp [show ¬ j < k + 1 by omega]

/-- **The reversal of a word.** -/
theorem pakka_sdefl_rev_eq (c : ℕ) {n : ℕ} (hn : n ≤ 16) : pakka_sdefl_rev c n = rev n c := by
  have hxor : ∀ j, j < 16 → j ^^^ 8 < 16 ∧ (j ^^^ 8) ^^^ 4 < 16 ∧ ((j ^^^ 8) ^^^ 4) ^^^ 2 < 16 ∧
      (((j ^^^ 8) ^^^ 4) ^^^ 2) ^^^ 1 = 15 - j := by decide
  apply Nat.eq_of_testBit_eq
  intro j
  rw [pakka_sdefl_rev, Nat.testBit_shiftRight, testBit_rev,
    swap_groups _ (g := 8) (m := 0x00FF) (by decide) (by decide) (by decide) (by decide),
    swap_groups _ (g := 4) (m := 0x0F0F) (by decide) (by decide) (by decide) (by decide),
    swap_groups _ (g := 2) (m := 0x3333) (by decide) (by decide) (by decide) (by decide),
    swap_groups _ (g := 1) (m := 0x5555) (by decide) (by decide) (by decide) (by decide)]
  by_cases hj : j < n
  · obtain ⟨h1, h2, h3, h4⟩ := hxor (16 - n + j) (by omega)
    rw [h4, show 15 - (16 - n + j) = n - 1 - j by omega]
    simp [h1, h2, h3, hj, show 16 - n + j < 16 by omega]
  · simp [hj, show ¬ 16 - n + j < 16 by omega]

end Reversal

/-! ## The code of some frequencies

`CodeFor` is what a block needs of a code: lengths within the limit, complete, words for the symbols
in use. A code with a single symbol gets a second one, so that it is complete too.
-/

/-- The lengths and words are a complete code for the symbols in use: theirs are the words of the
canonical code with these lengths. -/
structure CodeFor (n max_code_len : ℕ) (freqs : List ℕ) (r : List ℕ × List ℕ) : Prop where
  complete : Complete n (read r.1) max_code_len
  live : ∀ sym, sym < n → read freqs sym ≠ 0 → 0 < read r.1 sym
  word_eq : ∀ sym, sym < n → 0 < read r.1 sym → read r.2 sym = word n (read r.1) sym

section Huff

variable {n max_code_len : ℕ} {freqs : List ℕ}

theorem CodeFor.word_lt {r : List ℕ × List ℕ} (h : CodeFor n max_code_len freqs r) {sym : ℕ}
    (hsym : sym < n) (hlive : read freqs sym ≠ 0) : read r.2 sym < 2 ^ read r.1 sym := by
  rw [h.word_eq sym hsym (h.live sym hsym hlive)]
  exact CanonicalCode.word_lt sym

/-- The reversing loop at the end. -/
theorem rev_loop (lens A : List ℕ) (n sym : ℕ) :
    read (n.fold (fun c _ A => write A c (pakka_sdefl_rev (read A c) (read lens c))) A) sym =
      if sym < n then pakka_sdefl_rev (read A sym) (read lens sym) else read A sym := by
  induction n generalizing sym with
  | zero => simp
  | succ n ih =>
    rw [Nat.fold_succ, read_write]
    by_cases h : sym = n
    · rw [h, update_self, ih, if_neg (by omega), if_pos (by omega)]
    · rw [update_of_ne h, ih]
      congr 1
      rw [eq_iff_iff]
      omega

/-- Two symbols share a code of one bit. -/
theorem codeFor_pair {A lens : List ℕ} {i : ℕ} (h2 : i < n) (hi : 0 < i) (hpos : 0 < max_code_len)
    (hlens : ∀ sym, sym < n → sym ≠ 0 → sym ≠ i → read lens sym = 0)
    (hfreq : ∀ sym, sym < n → read freqs sym ≠ 0 → sym = 0 ∨ sym = i) :
    CodeFor n max_code_len freqs (write (write lens 0 1) i 1, write (write A 0 0) i 1) := by
  have hread (sym : ℕ) (hsym : sym < n) :
      read (write (write lens 0 1) i 1) sym = if sym = 0 ∨ sym = i then 1 else 0 := by
    rw [read_write, read_write]
    by_cases h1 : sym = i
    · rw [h1, update_self, if_pos (Or.inr rfl)]
    · rw [update_of_ne h1]
      by_cases h0 : sym = 0
      · rw [h0, update_self, if_pos (Or.inl rfl)]
      · rw [update_of_ne h0, if_neg (by omega), hlens sym hsym h0 h1]
  -- two words of one bit, so the code is complete at every width
  have hcount (l : ℕ) (hl : 0 < l) :
      count n (read (write (write lens 0 1) i 1)) l = if l = 1 then 2 else 0 := by
    have hset : (Finset.range n).filter (fun s => read (write (write lens 0 1) i 1) s = l) =
        if l = 1 then {0, i} else ∅ := by
      ext sym
      rw [Finset.mem_filter, Finset.mem_range]
      split_ifs with h1
      · rw [Finset.mem_insert, Finset.mem_singleton]
        constructor
        · rintro ⟨hsym, hr⟩
          rw [hread sym hsym] at hr
          by_contra hcon
          rw [if_neg hcon] at hr
          omega
        · intro hsym
          have hlt : sym < n := by omega
          rw [hread sym hlt, if_pos hsym]
          exact ⟨hlt, h1.symm⟩
      · constructor
        · rintro ⟨hsym, hr⟩
          rw [hread sym hsym] at hr
          split_ifs at hr <;> omega
        · intro hmem
          simp at hmem
    rw [count, Nat.count_eq_card_filter_range, hset]
    split_ifs
    · exact Finset.card_pair (by omega)
    · rfl
  have hused (L : ℕ) (hL : 0 < L) :
      used (count n (read (write (write lens 0 1) i 1))) L = 2 ^ L := by
    induction L with
    | zero => omega
    | succ L ih =>
      rw [used_succ, hcount _ (by omega)]
      rcases Nat.eq_zero_or_pos L with rfl | hL'
      · rfl
      · rw [ih hL', if_neg (by omega), pow_succ]
        omega
  refine ⟨⟨fun sym hsym => ?_, hused _ hpos⟩, fun sym hsym hf => ?_, fun sym hsym hp => ?_⟩
  · rw [hread sym hsym]
    split_ifs <;> omega
  · rw [hread sym hsym, if_pos (hfreq sym hsym hf)]
    exact Nat.one_pos
  · rw [hread sym hsym] at hp
    have hin : sym = 0 ∨ sym = i := by
      by_contra hcon
      rw [if_neg hcon] at hp
      omega
    have hlen : read (write (write lens 0 1) i 1) sym = 1 := by rw [hread sym hsym, if_pos hin]
    -- the words are 0 and 1, in the order of the symbols
    rw [word, number, hlen]
    rcases hin with rfl | rfl
    · rw [read_write, update_of_ne (by omega), read_write, update_self]
      simp [first, used, rev_succ]
    · have hrank : Nat.count (fun t => read (write (write lens 0 1) sym 1) t = 1) sym = 1 := by
        have hset : (Finset.range sym).filter
            (fun t => read (write (write lens 0 1) sym 1) t = 1) = {0} := by
          ext t
          rw [Finset.mem_filter, Finset.mem_range, Finset.mem_singleton]
          constructor
          · rintro ⟨ht, hr⟩
            rw [hread t (by omega)] at hr
            by_contra hcon
            rw [if_neg (by omega)] at hr
            omega
          · rintro rfl
            rw [hread 0 (by omega), if_pos (Or.inl rfl)]
            exact ⟨hi, rfl⟩
        rw [Nat.count_eq_card_filter_range, hset, Finset.card_singleton]
      rw [read_write, update_self, hrank]
      simp [first, used, rev_succ]

/-- **The code construction.** From any frequencies, of which one at least is not zero, the encoder
makes a complete code within the limit, with a word for each symbol in use, and the words are those
of the canonical code, reversed. -/
theorem huff_spec (lens codes freqs : List ℕ) (h2 : 2 ≤ n) (hn : n ≤ 2 ^ 10)
    (hmax : n ≤ 2 ^ max_code_len) (hpos : 0 < max_code_len) (h16 : max_code_len ≤ 16)
    (hused : ∃ sym, sym < n ∧ read freqs sym ≠ 0) :
    CodeFor n max_code_len freqs (pakka_sdefl_huff lens codes freqs n max_code_len) := by
  obtain ⟨hlists, hlens⟩ := sort_sym_lists freqs lens codes (by omega : 0 < n) hn
  rw [pakka_sdefl_huff]
  generalize pakka_sdefl_sort_sym n freqs lens codes = r at hlists hlens ⊢
  obtain ⟨used_syms, A, lens'⟩ := r
  dsimp only at hlists hlens ⊢
  have hdead (sym : ℕ) (hsym : sym < n) (hl : ¬ (sym < n ∧ read freqs sym ≠ 0)) :
      read lens' sym = 0 := by
    rw [hlens, if_pos ⟨hsym, by_contra fun hcon => hl ⟨hsym, hcon⟩⟩]
  have hlive : used_syms ≠ 0 := by
    obtain ⟨sym, hsym⟩ := hused
    obtain ⟨x, hx, -⟩ := hlists.onto sym hsym
    omega
  rw [if_neg hlive]
  -- one symbol in use gets a companion; from two on there is a tree
  split_ifs with h1 hs
  · subst h1
    refine codeFor_pair (hlists.mem 0 (by omega)).1 (by omega) hpos
      (fun sym hsym _ hi => hdead sym hsym ?_) fun sym hsym hf => ?_
    · intro hl
      obtain ⟨x, hx, rfl⟩ := hlists.onto sym hl
      obtain rfl : x = 0 := by omega
      exact hi rfl
    · obtain ⟨x, hx, rfl⟩ := hlists.onto sym ⟨hsym, hf⟩
      obtain rfl : x = 0 := by omega
      exact Or.inr rfl
  · -- the one symbol in use is `0`
    subst h1
    refine codeFor_pair (by omega) Nat.one_pos hpos (fun sym hsym h0 _ => hdead sym hsym ?_)
      fun sym hsym hf => ?_
    · intro hl
      obtain ⟨x, hx, rfl⟩ := hlists.onto sym hl
      obtain rfl : x = 0 := by omega
      omega
    · obtain ⟨x, hx, rfl⟩ := hlists.onto sym ⟨hsym, hf⟩
      obtain rfl : x = 0 := by omega
      omega
  · have hle : used_syms ≤ n := hlists.le fun sym hl => hl.1
    -- tree, counts per length, lengths per symbol, words: each by the lemma of its stage
    obtain ⟨htsym, htree⟩ := build_tree_spec A (by omega : 2 ≤ used_syms)
    obtain ⟨hgsym, hkraft, htotal, hzero⟩ := gen_len_cnt_spec (pakka_sdefl_build_tree A used_syms)
      (used_syms - 2) max_code_len htree (by omega) hpos
    generalize pakka_sdefl_gen_len_cnt (pakka_sdefl_build_tree A used_syms) (used_syms - 2)
      max_code_len = g at hgsym hkraft htotal hzero ⊢
    obtain ⟨B, len_cnt⟩ := g
    dsimp only at hgsym hkraft htotal hzero ⊢
    have hB : Lists B used_syms (fun sym => sym < n ∧ read freqs sym ≠ 0) :=
      hlists.of_sym_eq fun i => by rw [hgsym, htsym]
    have hsum : below (read len_cnt) (max_code_len + 1) = used_syms := by omega
    obtain ⟨hlpos, hlle, -, hcount⟩ := gen_lens_spec hB (fun sym hl => hl.1) hzero hsum hdead
    rw [pakka_sdefl_gen_codes]
    generalize (sdefl_gen_lens B len_cnt lens' max_code_len).2 = lens'' at hlpos hlle hcount ⊢
    dsimp only
    obtain ⟨-, hnum⟩ := gen_numbers lens'' (sdefl_gen_nxt len_cnt max_code_len) B n
    generalize n.fold (fun sym _ (s : List ℕ × List ℕ) =>
      (write s.1 (read lens'' sym) (read s.1 (read lens'' sym) + 1),
        write s.2 sym (read s.1 (read lens'' sym)))) (sdefl_gen_nxt len_cnt max_code_len, B) = q
      at hnum ⊢
    refine ⟨⟨hlle, ?_⟩, fun sym hsym hf => hlpos sym ⟨hsym, hf⟩, fun sym hsym _ => ?_⟩
    · rw [used_congr hcount, hkraft]
    · rw [rev_loop, if_pos hsym, hnum sym hsym, gen_nxt_spec len_cnt (hlle sym hsym),
        ← number_eq hcount (hlle sym hsym), word,
        pakka_sdefl_rev_eq _ (by have := hlle sym hsym; omega)]

/-- Without a symbol in use there are no words. -/
theorem huff_none (lens codes freqs : List ℕ) (hpos : 0 < n) (hn : n ≤ 2 ^ 10)
    (hnone : ∀ sym, sym < n → read freqs sym = 0) (sym : ℕ) (hsym : sym < n) :
    read (pakka_sdefl_huff lens codes freqs n max_code_len).1 sym = 0 := by
  obtain ⟨hlists, hlens⟩ := sort_sym_lists freqs lens codes hpos hn
  rw [pakka_sdefl_huff]
  generalize pakka_sdefl_sort_sym n freqs lens codes = r at hlists hlens ⊢
  obtain ⟨used_syms, A, lens'⟩ := r
  dsimp only at hlists hlens ⊢
  have hzero : used_syms = 0 := by
    by_contra hcon
    have hmem := hlists.mem 0 (by omega)
    exact hmem.2 (hnone _ hmem.1)
  rw [if_pos hzero, hlens, if_pos ⟨hsym, hnone sym hsym⟩]

end Huff

end Pakka
