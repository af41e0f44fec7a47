/-
The decoding tables.

The builder goes through the words in the order of their lengths and numbers, with the next word
in the bit order of the stream. A cursor is such a place: a length and a number. While lengths are
below the width of the table, the table holds for every word passed an entry in each cell that
starts with the word; words that are longer share a sub-table with those that have the same first
bits, and the order puts them side by side, so a sub-table is complete before the next one starts.

The table doubles its width when the words get longer. Doubling repeats the entries, and an entry
for a shorter word stands in every cell that starts with it, so the table is right at each width for
the words passed so far.
-/
import Pakka.Sinfl
import Pakka.Lib.Sorting

set_option autoImplicit false

namespace Pakka

open Cells CountingSort CanonicalCode BitString Function

/-! ## Cursors

The place of a word in the order, and the place after it.
-/

/-- What the builder works on: a complete code, its counts and its symbols in order. -/
structure TableInput (n : ℕ) (lens : ℕ → ℕ) (L : ℕ) (cnt sort : List ℕ) : Prop where
  complete : Complete n lens L
  le : L ≤ 15
  cnt_eq : ∀ l, 0 < l → read cnt l = count n lens l
  sort_eq : ∀ s, s < n → 0 < lens s →
    read sort (below (count n lens) (lens s) + Nat.count (fun t => lens t = lens s) s) = s

/-- The builder stands before number `c` of the length at hand. -/
structure Cursor (n : ℕ) (lens : ℕ → ℕ) (gen : SinflGen) (c : ℕ) : Prop where
  pos : 0 < gen.len
  first_le : first (count n lens) gen.len ≤ c
  le_used : c ≤ used (count n lens) gen.len
  lt : c < 2 ^ gen.len
  cnt_eq : gen.cnt = used (count n lens) gen.len - c
  word_eq : gen.word = rev gen.len c
  sorted_eq : gen.sorted =
    below (count n lens) gen.len + (c - first (count n lens) gen.len)

/-- The symbols whose words are before a place. -/
def Passed (n : ℕ) (lens : ℕ → ℕ) (len c s : ℕ) : Prop :=
  lens s < len ∨ (lens s = len ∧ number n lens s < c)

section Cursors

variable {n L : ℕ} {lens : ℕ → ℕ} {cnt sort : List ℕ} {gen : SinflGen} {c : ℕ}

/-- Counting up in the bit order of the stream. -/
theorem next_word_eq {len c : ℕ} (h : c + 1 < 2 ^ len) :
    sinfl_next_word (rev len c) ((1 <<< len) - 1) = rev len (c + 1) := by
  have hlt : rev len c % 2 ^ (2 ^ len - 1 - rev len c).log2 <
      2 ^ (2 ^ len - 1 - rev len c).log2 := Nat.mod_lt _ (Nat.two_pow_pos _)
  simp only [sinfl_next_word, Nat.one_shiftLeft]
  rw [xor_ones (rev_lt _ _), Nat.and_two_pow_sub_one_eq_mod, Nat.lor_comm, ← rev_next h]
  have hor := Nat.shiftLeft_add_eq_or_of_lt hlt 1
  rw [Nat.shiftLeft_eq, Nat.one_mul] at hor
  rw [← hor, Nat.add_comm]

theorem word_eq_ones {len c : ℕ} (h : c < 2 ^ len) :
    rev len c = (1 <<< len) - 1 ↔ c + 1 = 2 ^ len := by
  rw [Nat.one_shiftLeft]
  constructor
  · intro hw
    rw [← rev_ones] at hw
    have := rev_inj h (by omega) hw
    omega
  · intro hc
    rw [show c = 2 ^ len - 1 by omega, rev_ones]

/-- The symbol in front of a cursor. -/
theorem Cursor.exists_symbol (hin : TableInput n lens L cnt sort) (h : Cursor n lens gen c)
    (hcnt : gen.cnt ≠ 0) : ∃ s, s < n ∧ lens s = gen.len ∧ number n lens s = c ∧
      word n lens s = gen.word ∧ read sort gen.sorted = s := by
  have hc := h.cnt_eq
  obtain ⟨s, hs, hlen, hnum⟩ := exists_number_eq h.pos h.first_le (by omega)
  refine ⟨s, hs, hlen, hnum, by rw [word, hlen, hnum, h.word_eq], ?_⟩
  have hpos := h.pos
  have hrank : c - first (count n lens) gen.len = Nat.count (fun t => lens t = lens s) s := by
    rw [← hnum, number, hlen]
    omega
  have hsort := hin.sort_eq s hs (by omega)
  rw [h.sorted_eq, hrank]
  rw [hlen] at hsort ⊢
  exact hsort

/-- Past one more word of the same length. -/
theorem Cursor.next (h : Cursor n lens gen c) (hcnt : gen.cnt ≠ 0) (hlt : c + 1 < 2 ^ gen.len) :
    Cursor n lens { gen with
      word := sinfl_next_word gen.word ((1 <<< gen.len) - 1), cnt := gen.cnt - 1,
      sorted := gen.sorted + 1 } (c + 1) := by
  have hc := h.cnt_eq
  have hfirst := h.first_le
  refine ⟨h.pos, by dsimp only; omega, by dsimp only; omega, hlt, by dsimp only; omega, ?_, ?_⟩
  · dsimp only
    rw [h.word_eq, next_word_eq hlt]
  · dsimp only
    rw [h.sorted_eq]
    omega

theorem Cursor.eq_used (h : Cursor n lens gen c) (hcnt : gen.cnt = 0) :
    c = used (count n lens) gen.len := by
  have hc := h.cnt_eq
  have hle := h.le_used
  omega

/-- To the next length when one is used up. -/
theorem Cursor.next_len (hin : TableInput n lens L cnt sort) (h : Cursor n lens gen c)
    (hcnt : gen.cnt = 0) :
    Cursor n lens { gen with len := gen.len + 1, cnt := read cnt (gen.len + 1) } (2 * c) := by
  have heq := h.eq_used hcnt
  have hlt := h.lt
  have hpos := h.pos
  refine ⟨by dsimp only; omega, ?_, ?_, ?_, ?_, ?_, ?_⟩ <;> dsimp only
  · rw [first_succ, heq]
  · rw [used_succ, heq]
    omega
  · rw [pow_succ]
    omega
  · rw [hin.cnt_eq _ (by omega), used_succ, heq]
    omega
  · have hrev := rev_mul_two_pow 1 gen.len c
    rw [pow_one, Nat.add_comm, Nat.mul_comm] at hrev
    rw [h.word_eq, hrev]
  · rw [h.sorted_eq, below_succ, first_succ, heq, Nat.sub_self, used_eq_first _ h.pos]
    omega

/-- A length with nothing left over is followed by another one. -/
theorem Cursor.len_lt (hin : TableInput n lens L cnt sort) (h : Cursor n lens gen c)
    (hlen : gen.len ≤ L) (hcnt : gen.cnt = 0) : gen.len < L := by
  have heq := h.eq_used hcnt
  have hlt := h.lt
  by_contra hcon
  have hL : gen.len = L := by omega
  have hused := hin.complete.used_eq
  rw [hL] at heq hlt
  omega

theorem passed_succ {len c s : ℕ} (h : Passed n lens len (c + 1) s) :
    Passed n lens len c s ∨ (lens s = len ∧ number n lens s = c) := by
  rcases h with h | ⟨h, hnum⟩
  · exact Or.inl (Or.inl h)
  · rcases Nat.lt_or_ge (number n lens s) c with hlt | hge
    · exact Or.inl (Or.inr ⟨h, hlt⟩)
    · exact Or.inr ⟨h, by omega⟩

/-- Nothing is between the end of a length and the start of the next. -/
theorem Cursor.passed_next_len (h : Cursor n lens gen c) (hcnt : gen.cnt = 0) {s : ℕ} (hs : s < n)
    (hpassed : Passed n lens (gen.len + 1) (2 * c) s) : Passed n lens gen.len c s := by
  have heq := h.eq_used hcnt
  rcases hpassed with hlt | ⟨hlen, hnum⟩
  · rcases Nat.eq_or_lt_of_le (Nat.le_of_lt_succ hlt) with hlen | hlt'
    · have hpos := h.pos
      have hlt'' : number n lens s < used (count n lens) (lens s) := number_lt_used hs (by omega)
      rw [hlen] at hlt''
      exact Or.inr ⟨hlen, by omega⟩
    · exact Or.inl hlt'
  · rw [number, hlen, first_succ] at hnum
    omega

/-- At the greatest word nothing is left. -/
theorem Cursor.passed_all (hin : TableInput n lens L cnt sort) (h : Cursor n lens gen c)
    (hlen : gen.len ≤ L) (hones : c + 1 = 2 ^ gen.len) (hcnt : gen.cnt ≠ 0) {s : ℕ} (hs : s < n)
    (hpos : 0 < lens s) : Passed n lens gen.len (c + 1) s := by
  have hc := h.cnt_eq
  have hsat : used (count n lens) gen.len = 2 ^ gen.len := by
    have := used_le_two_pow hin.complete.fits.used_le hlen
    omega
  rcases Nat.lt_trichotomy (lens s) gen.len with hlt | heq | hgt
  · exact Or.inl hlt
  · have hlt := number_lt_used hs hpos
    rw [heq] at hlt
    exact Or.inr ⟨heq, by omega⟩
  · -- a longer word has no room
    have hstart := used_mul_le_first (count n lens) hgt
    have hroom := hin.complete.fits.number_lt hs hpos
    rw [hsat, ← pow_add, Nat.add_sub_cancel' (le_of_lt hgt)] at hstart
    rw [number] at hroom
    omega

end Cursors

/-! ## The table

The table is doubled when the words get longer, so that it stays filled for all words passed.
-/

/-- The entry of a symbol in a table: the symbol above, the bits to take below. -/
def sinfl_entry (s len : ℕ) : ℕ := (s <<< 16) ||| len

/-- The cells of a table of `2 ^ w` hold the entries of the symbols in question. -/
def Covers (n : ℕ) (lens : ℕ → ℕ) (tbl : List ℕ) (w : ℕ) (P : ℕ → Prop) : Prop :=
  ∀ s, s < n → 0 < lens s → lens s ≤ w → P s → ∀ x, x < 2 ^ w →
    x % 2 ^ lens s = word n lens s → read tbl x = sinfl_entry s (lens s)

section Table

variable {n L : ℕ} {lens : ℕ → ℕ} {cnt sort : List ℕ} {gen : SinflGen} {c w : ℕ} {tbl : List ℕ}

theorem Covers.mono {P Q : ℕ → Prop} (h : Covers n lens tbl w P)
    (hPQ : ∀ s, s < n → 0 < lens s → lens s ≤ w → Q s → P s) : Covers n lens tbl w Q :=
  fun s hs hpos hle hq => h s hs hpos hle (hPQ s hs hpos hle hq)

theorem read_double (tbl : List ℕ) (m i : ℕ) :
    read (sinfl_double tbl m) i =
      if i < m then read tbl i else if i < 2 * m then read tbl (i - m) else read tbl i := by
  obtain ⟨low, hdef⟩ : ∃ low, low = tbl.take m ++ List.replicate (m - tbl.length) 0 := ⟨_, rfl⟩
  have hlen : low.length = m := by
    rw [hdef, List.length_append, List.length_take, List.length_replicate]
    omega
  have hlow (j : ℕ) (hj : j < m) : low.getD j 0 = tbl.getD j 0 := by
    rw [hdef]
    rcases Nat.lt_or_ge j tbl.length with hlt | hge
    · rw [List.getD_append _ _ _ _ (by rw [List.length_take]; omega), List.getD_eq_getElem?_getD,
        List.getElem?_take_of_lt hj, ← List.getD_eq_getElem?_getD]
    · rw [List.getD_append_right _ _ _ _ (by rw [List.length_take]; omega),
        List.getD_eq_default _ _ hge, List.getD_replicate _ (by rw [List.length_take]; omega)]
  have hlen2 : (low ++ low).length = 2 * m := by
    rw [List.length_append, hlen]
    omega
  rw [sinfl_double, ← hdef]
  show (low ++ low ++ tbl.drop (2 * m)).getD i 0 = _
  split_ifs with h1 h2
  · rw [List.getD_append _ _ _ _ (by omega), List.getD_append _ _ _ _ (by omega), hlow i h1]
    rfl
  · rw [List.getD_append _ _ _ _ (by omega), List.getD_append_right _ _ _ _ (by omega), hlen,
      hlow _ (by omega)]
    rfl
  · rw [List.getD_append_right _ _ _ _ (by omega), hlen2, List.getD_eq_getElem?_getD,
      List.getElem?_drop, show 2 * m + (i - 2 * m) = i by omega, ← List.getD_eq_getElem?_getD]
    rfl

/-- Doubling the table makes every entry one for two cells. -/
theorem Covers.double {P : ℕ → Prop} (h : Covers n lens tbl w P)
    (hP : ∀ s, s < n → 0 < lens s → P s → lens s ≤ w) :
    Covers n lens (sinfl_double tbl (1 <<< w)) (w + 1) P := by
  intro s hs hpos _ hp x hx hword
  have hle := hP s hs hpos hp
  rw [Nat.one_shiftLeft, read_double]
  rw [pow_succ] at hx
  split_ifs with h1 h2
  · exact h s hs hpos hle hp x h1 hword
  · apply h s hs hpos hle hp _ (by omega)
    rw [← hword]
    have hsplit : x = (x - 2 ^ w) + 2 ^ lens s * 2 ^ (w - lens s) := by
      rw [← pow_add, Nat.add_sub_cancel' hle]
      omega
    conv_rhs => rw [hsplit, Nat.add_mul_mod_self_left]
  · omega

/-- Writing the entry of the symbol at the cursor. -/
theorem Covers.write (hin : TableInput n lens L cnt sort) (hat : Cursor n lens gen c)
    (hcnt : gen.cnt ≠ 0) (h : Covers n lens tbl gen.len (Passed n lens gen.len c)) :
    Covers n lens (write tbl gen.word ((read sort gen.sorted <<< 16) ||| gen.len)) gen.len
      (Passed n lens gen.len (c + 1)) := by
  obtain ⟨t, ht, htlen, htnum, htword, hsort⟩ := hat.exists_symbol hin hcnt
  intro s hs hpos hle hp x hx hword
  rw [read_write, hsort]
  by_cases hst : s = t
  · have hxw : x = gen.word := by
      rw [hst, htlen, Nat.mod_eq_of_lt hx, htword] at hword
      exact hword
    rw [hxw, update_self, hst, htlen, sinfl_entry]
  · have hne : x ≠ gen.word := by
      rintro rfl
      apply hin.complete.fits.word_mod_ne hs ht hst hpos (by omega)
      rw [htword, hword]
    rw [update_of_ne hne]
    refine h s hs hpos hle ?_ x hx hword
    rcases passed_succ hp with hp' | ⟨hlen, hnum⟩
    · exact hp'
    · refine absurd ?_ hne
      rw [word, hlen, hnum, Nat.mod_eq_of_lt hx] at hword
      rw [hword, hat.word_eq]

/-- **One length.** Either the greatest word is reached, and the table has every symbol, or the
words of the length run out, and the cursor stands at its end. -/
theorem fill_spec (hin : TableInput n lens L cnt sort) {len : ℕ} (hgen : gen.len = len)
    (hlen : len ≤ L) (hat : Cursor n lens gen c) (hcnt : gen.cnt ≠ 0)
    (h : Covers n lens tbl len (Passed n lens len c)) :
    let r := sinfl_fill sort len gen.cnt (gen, tbl)
    r.2.1.len = len ∧
      ((r.1 = true ∧ (∀ s, s < n → 0 < lens s → lens s ≤ len) ∧
          Covers n lens r.2.2 len fun _ => True) ∨
        (r.1 = false ∧ r.2.1.cnt = 0 ∧ ∃ c', Cursor n lens r.2.1 c' ∧
          Covers n lens r.2.2 len (Passed n lens len c'))) := by
  generalize hk : gen.cnt = k at hcnt ⊢
  induction k generalizing gen c tbl with
  | zero => exact absurd rfl hcnt
  | succ k ih =>
    subst hgen
    have hwrite := h.write hin hat (by omega)
    rw [sinfl_fill]
    dsimp only
    by_cases hones : c + 1 = 2 ^ gen.len
    · rw [if_pos (by rw [hat.word_eq]; exact (word_eq_ones hat.lt).mpr hones)]
      have hall {s : ℕ} (hs : s < n) (hpos : 0 < lens s) : Passed n lens gen.len (c + 1) s :=
        hat.passed_all hin hlen hones (by omega) hs hpos
      refine ⟨rfl, Or.inl ⟨rfl, fun s hs hpos => ?_, hwrite.mono fun s hs hpos _ _ => hall hs hpos⟩⟩
      rcases hall hs hpos with hp | hp <;> omega
    · have hlt : c + 1 < 2 ^ gen.len := lt_of_le_of_ne hat.lt hones
      have hnext := hat.next (by omega) hlt
      rw [hk, Nat.add_sub_cancel] at hnext
      rw [if_neg (by rw [hat.word_eq]; exact fun hw => hones ((word_eq_ones hat.lt).mp hw))]
      rcases Nat.eq_zero_or_pos k with rfl | hk0
      · exact ⟨rfl, Or.inr ⟨rfl, rfl, c + 1, hnext, hwrite⟩⟩
      · exact ih rfl hnext hwrite rfl (by omega)

/-- **The next length.** The table grows along, up to its width. -/
theorem next_len_spec (hin : TableInput n lens L cnt sort) (fuel : ℕ) {tbl_bits : ℕ}
    (hfuel : L ≤ gen.len + fuel) (hlen : gen.len ≤ L) (hat : Cursor n lens gen c)
    (hcnt : gen.cnt = 0) (h : Covers n lens tbl (min gen.len tbl_bits) (Passed n lens gen.len c)) :
    let r := sinfl_next_len cnt tbl_bits fuel (gen, tbl)
    let c' := first (count n lens) r.1.len
    r.1.cnt ≠ 0 ∧ gen.len < r.1.len ∧ r.1.len ≤ L ∧ Cursor n lens r.1 c' ∧
      (∀ s, s < n → Passed n lens r.1.len c' s → Passed n lens gen.len c s) ∧
      Covers n lens r.2 (min r.1.len tbl_bits) (Passed n lens r.1.len c') := by
  have hlt := hat.len_lt hin hlen hcnt
  induction fuel generalizing gen c tbl with
  | zero => omega
  | succ fuel ih =>
    have hnext := hat.next_len hin hcnt
    have hpassed : Covers n lens
        (if gen.len + 1 ≤ tbl_bits then sinfl_double tbl (1 <<< gen.len) else tbl)
        (min (gen.len + 1) tbl_bits) (Passed n lens (gen.len + 1) (2 * c)) := by
      split_ifs with hgrow
      · rw [Nat.min_eq_left hgrow]
        rw [Nat.min_eq_left (by omega)] at h
        refine Covers.double (h.mono fun s hs _ _ hp => hat.passed_next_len hcnt hs hp)
          fun s hs _ hp => ?_
        rcases hat.passed_next_len hcnt hs hp with hp' | hp' <;> omega
      · rw [Nat.min_eq_right (by omega)]
        rw [Nat.min_eq_right (by omega)] at h
        exact h.mono fun s hs _ _ hp => hat.passed_next_len hcnt hs hp
    rw [sinfl_next_len]
    dsimp only
    generalize (if gen.len + 1 ≤ tbl_bits then sinfl_double tbl (1 <<< gen.len) else tbl) = tbl'
      at hpassed ⊢
    by_cases hzero : read cnt (gen.len + 1) = 0
    · rw [if_pos hzero]
      have hlt' := hnext.len_lt hin (by dsimp only; omega) hzero
      obtain ⟨h1, h2, h3, h4, h5, h6⟩ := ih (by dsimp only; omega) (by dsimp only; omega) hnext hzero
        hpassed hlt'
      dsimp only at h2
      exact ⟨h1, by omega, h3, h4, fun s hs hp => hat.passed_next_len hcnt hs (h5 s hs hp), h6⟩
    · rw [if_neg hzero]
      have hc : 2 * c = first (count n lens) (gen.len + 1) := by
        rw [first_succ, hat.eq_used hcnt]
      rw [hc] at hnext hpassed
      refine ⟨hzero, by dsimp only; omega, by dsimp only; omega, hnext, fun s hs hp => ?_, hpassed⟩
      rw [← hc] at hp
      exact hat.passed_next_len hcnt hs hp

/-- Filling up a table that every symbol is in. -/
theorem covers_fold_double {len m : ℕ} (h : Covers n lens tbl len fun _ => True)
    (hle : ∀ s, s < n → 0 < lens s → lens s ≤ len) :
    Covers n lens (m.fold (fun i _ tbl => sinfl_double tbl (1 <<< (len + i))) tbl) (len + m)
      fun _ => True := by
  induction m with
  | zero => exact h
  | succ m ih =>
    rw [Nat.fold_succ, ← Nat.add_assoc]
    refine ih.double fun s hs hpos _ => ?_
    have := hle s hs hpos
    omega

/-- **The table up to its width.** Either every symbol is in it, or the cursor stands before the
words that are longer, with every other in the table. -/
theorem build_tbl_loop_spec (hin : TableInput n lens L cnt sort) (fuel tbl_bits : ℕ)
    (tbl : List ℕ)
    (hfuel : L < gen.len + fuel) (hlen : gen.len ≤ L)
    (hat : Cursor n lens gen (first (count n lens) gen.len)) (hcnt : gen.cnt ≠ 0)
    (h : Covers n lens tbl (min gen.len tbl_bits)
      (Passed n lens gen.len (first (count n lens) gen.len)))
    (hskip : tbl_bits < gen.len → ∀ s, s < n → lens s < gen.len → lens s ≤ tbl_bits) :
    let r := sinfl_build_tbl_loop sort cnt tbl_bits fuel (gen, tbl)
    Covers n lens r.2.2 tbl_bits (fun _ => True) ∧
      ((r.1 = true ∧ ∀ s, s < n → 0 < lens s → lens s ≤ tbl_bits) ∨
        (r.1 = false ∧ tbl_bits < r.2.1.len ∧ r.2.1.len ≤ L ∧ r.2.1.cnt ≠ 0 ∧
          Cursor n lens r.2.1 (first (count n lens) r.2.1.len) ∧
          ∀ s, s < n → lens s < r.2.1.len → lens s ≤ tbl_bits)) := by
  induction fuel generalizing gen tbl with
  | zero => omega
  | succ fuel ih =>
    rw [sinfl_build_tbl_loop]
    by_cases hle : gen.len ≤ tbl_bits
    · rw [if_pos hle]
      rw [Nat.min_eq_left hle] at h
      obtain ⟨hlen', hcase⟩ := fill_spec hin rfl hlen hat hcnt h
      generalize sinfl_fill sort gen.len gen.cnt (gen, tbl) = r at hlen' hcase ⊢
      obtain ⟨flag, gen', tbl'⟩ := r
      dsimp only at hlen' hcase
      -- either that was the last word, or the table is doubled up to the next length
      rcases hcase with ⟨rfl, hall, hcov⟩ | ⟨rfl, hzero, c', hat', hcov⟩
      · dsimp only
        have hfull := covers_fold_double (m := tbl_bits - gen.len) hcov hall
        rw [Nat.add_sub_cancel' hle, ← hlen'] at hfull
        refine ⟨hfull, Or.inl ⟨rfl, fun s hs hpos => ?_⟩⟩
        have := hall s hs hpos
        omega
      · dsimp only
        rw [← hlen'] at hcov
        have hwide : Covers n lens tbl' (min gen'.len tbl_bits) (Passed n lens gen'.len c') := by
          rwa [Nat.min_eq_left (by omega)]
        obtain ⟨hne, hlt, hle', hcur, hback, hcov'⟩ := next_len_spec hin 16
          (by have := hin.le; omega) (by omega) hat' hzero hwide
        generalize sinfl_next_len cnt tbl_bits 16 (gen', tbl') = q at hne hlt hle' hcur hback hcov' ⊢
        obtain ⟨gen'', tbl''⟩ := q
        refine ih tbl'' (by dsimp only at hlt; omega) hle' hcur hne hcov' fun _ s hs hlts => ?_
        rcases hback s hs (Or.inl hlts) with hp | hp <;> omega
    -- the next word is too long for this table
    · rw [if_neg hle]
      rw [Nat.min_eq_right (by omega)] at h
      have hlt := Nat.lt_of_not_le hle
      exact ⟨h.mono fun s _ _ hw _ => Or.inl (by omega),
        Or.inr ⟨rfl, hlt, hlen, hcnt, hat, hskip hlt⟩⟩

end Table

end Pakka
