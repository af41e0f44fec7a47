/-
The decoder's tables decode.

`pakka_sinfl_build` sorts the symbols by the lengths of their words and hands them to the two
builders. For a complete code what it leaves is a table in which every word is found, and
`pakka_sinfl_decode` takes exactly the word that the stream starts with.

The conditions are those that `IsTable` needs of a code: complete, and within the limit on lengths.
The encoder's codes meet them. What was in the table before does not matter, so the tables of one
block may be built over those of another.
-/
import Pakka.SinflReader
import Pakka.SinflSubtable

set_option autoImplicit false

namespace Pakka

open Cells CountingSort CanonicalCode BitString ByteImage Function

/-! ## Counting and sorting

Symbols by length, and in their order within a length.
-/

section Sorted

variable (lens : List ℕ) (n : ℕ)

theorem build_counts (l : ℕ) :
    read (n.fold (fun i _ cnt => write cnt (read lens i) (read cnt (read lens i) + 1)) []) l =
      count n (read lens) l := by
  induction n generalizing l with
  | zero => simp [count]
  | succ n ih =>
    rw [Nat.fold_succ, read_write, count, Nat.count_succ, ← count]
    by_cases h : l = read lens n
    · rw [h, update_self, ih, if_pos rfl]
    · rw [update_of_ne h, ih, if_neg (Ne.symm h), Nat.add_zero]

/-- The loop over the lengths: where each length starts, and what is used up. -/
theorem build_offs {cnt : List ℕ} (hcnt : ∀ l, read cnt l = count n (read lens) l) (m : ℕ) :
    let r := m.fold (fun i _ (s : List ℕ × ℕ) =>
      (write s.1 (i + 2) (read s.1 (i + 1) + read cnt (i + 1)), (s.2 <<< 1) + read cnt (i + 1)))
      (write [] 1 (read cnt 0), 0)
    r.2 = used (count n (read lens)) m ∧
      ∀ j, j ≤ m + 1 → read r.1 j = if j = 0 then 0 else below (count n (read lens)) j := by
  induction m with
  | zero =>
    refine ⟨rfl, fun j hj => ?_⟩
    rw [Nat.fold_zero, read_write]
    rcases Nat.eq_zero_or_pos j with rfl | hpos
    · rfl
    · rw [show j = 1 by omega, update_self, hcnt, if_neg (by omega)]
      simp [below]
  | succ m ih =>
    obtain ⟨hused, hoff⟩ := ih
    rw [Nat.fold_succ]
    refine ⟨?_, fun j hj => ?_⟩
    · dsimp only at hused ⊢
      rw [hused, hcnt, used_succ, Nat.shiftLeft_eq]
      omega
    · dsimp only at hoff ⊢
      rw [read_write]
      by_cases hj' : j = m + 2
      · rw [hj', update_self, hoff _ le_rfl, if_neg (by omega), if_neg (by omega), hcnt, ← below_succ]
      · rw [update_of_ne hj', hoff j (by omega)]

/-- The loop over the symbols is a counting sort. -/
theorem build_sort (off : List ℕ) :
    n.fold (fun i _ (s : List ℕ × List ℕ) =>
      (write s.1 (read lens i) (read s.1 (read lens i) + 1), write s.2 (read s.1 (read lens i)) i))
      (off, []) = scatter (fun i => some (read lens i)) id n (off, []) := by
  induction n with
  | zero => rfl
  | succ n ih =>
    rw [Nat.fold_succ, ih]
    rfl

theorem freq_some (lens : List ℕ) (n l : ℕ) :
    freq (fun i => some (read lens i)) n l = Nat.count (fun i => read lens i = l) n := by
  simp only [freq, Option.some_inj]

variable {lens n}

/-- **The symbols in the order of their words.** -/
theorem sort_spec {L : ℕ} {cnt off : List ℕ} (hcomplete : Complete n (read lens) L) (hL : L ≤ 15)
    (hcnt : ∀ l, read cnt l = count n (read lens) l)
    (hoff : ∀ j, j ≤ L → read off j = if j = 0 then 0 else below (count n (read lens)) j) :
    let r := scatter (fun i => some (read lens i)) id n (off, [])
    read r.1 0 = count n (read lens) 0 ∧ TableInput n (read lens) L cnt r.2 := by
  have hfreq : freq (fun i => some (read lens i)) n = count n (read lens) := by
    funext l
    exact freq_some lens n l
  have hrun (k : ℕ) (hk : k < L + 1) : read off k = below (count n (read lens)) k := by
    rw [hoff k (by omega)]
    split_ifs with h0
    · rw [h0]
      rfl
    · rfl
  refine ⟨?_, hcomplete, hL, fun l _ => hcnt l, fun s hs hpos => ?_⟩
  · rw [scatter_off, hfreq, hrun 0 (by omega)]
    simp [below]
  · have hapart : Apart (fun i => some (read lens i)) off n := by
      apply apart_below (K := L + 1)
      · intro k hk _
        rw [hrun k hk, hfreq]
      · intro i k hi hk
        have := hcomplete.le i hi
        rw [Option.some_inj] at hk
        omega
    have hcell : read (scatter (fun i => some (read lens i)) id n (off, [])).2
        (cell (fun i => some (read lens i)) off (read lens s) s) = s := hapart.scatter_cell hs rfl
    have hle := hcomplete.le s hs
    rwa [cell, hrun _ (by omega), freq_some] at hcell

end Sorted

/-! ## The table of a code

Both builders, and what is left when they are done.
-/

/-- In `tbl` the word of every symbol is found, in one step or in two. -/
structure IsTable (n : ℕ) (lens : ℕ → ℕ) (L bits : ℕ) (tbl : List ℕ) : Prop where
  le : ∀ s, s < n → lens s ≤ L
  short : Covers n lens tbl bits fun _ => True
  long : ∀ s, s < n → bits < lens s → ∃ start sub,
    Held n L bits lens tbl start sub s ∧ start + 2 ^ sub ≤ 2 ^ bits + 2 ^ L

section Build

variable {n L bits : ℕ} {lens : ℕ → ℕ} {cnt sort : List ℕ}

theorem first_len_spec (cnt : List ℕ) (fuel len : ℕ) :
    let r := sinfl_first_len cnt fuel len
    len ≤ r ∧ (∀ j, len ≤ j → j < r → read cnt j = 0) ∧ (read cnt r ≠ 0 ∨ r = len + fuel) := by
  induction fuel generalizing len with
  | zero => exact ⟨le_rfl, fun j hj hlt => absurd hlt (Nat.not_lt.mpr hj), Or.inr rfl⟩
  | succ fuel ih =>
    rw [sinfl_first_len]
    split_ifs with hzero
    · obtain ⟨hle, hskip, hend⟩ := ih (len + 1)
      refine ⟨by omega, fun j hj hlt => ?_, hend.imp_right fun h => by omega⟩
      rcases Nat.eq_or_lt_of_le hj with rfl | hlt'
      · exact hzero
      · exact hskip j hlt' hlt
    · exact ⟨le_rfl, fun j hj hlt => absurd hlt (Nat.not_lt.mpr hj), Or.inl hzero⟩

/-- The builder starts before the first word. -/
theorem first_cursor (hin : TableInput n lens L cnt sort) (hcnt : read cnt 0 = count n lens 0) :
    let len := sinfl_first_len cnt 16 1
    let gen : SinflGen := ⟨len, read cnt len, 0, read cnt 0⟩
    len ≤ L ∧ read cnt len ≠ 0 ∧ Cursor n lens gen (first (count n lens) len) ∧
      ∀ s, s < n → lens s < len → lens s = 0 := by
  obtain ⟨hle, hskip, hend⟩ := first_len_spec cnt 16 1
  generalize sinfl_first_len cnt 16 1 = len at hle hskip hend
  have hnone (l : ℕ) (h0 : 0 < l) (hlt : l < len) : count n lens l = 0 := by
    rw [← hin.cnt_eq l h0]
    exact hskip l h0 hlt
  have hL : len ≤ L := by
    by_contra hcon
    have hused := hin.complete.used_eq
    rw [used_eq_zero fun l h0 hl => hnone l h0 (by omega)] at hused
    have := Nat.two_pow_pos L
    omega
  have hne : read cnt len ≠ 0 := by
    refine hend.resolve_right fun h => ?_
    have := hin.le
    omega
  have hfirst : first (count n lens) len = 0 := by
    rw [first_eq_mul (show 0 < len by omega) fun k h0 hlt => hnone k h0 hlt, used_zero, Nat.zero_mul]
  have hbelow : below (count n lens) len = count n lens 0 := by
    obtain ⟨k, rfl⟩ : ∃ k, len = k + 1 := ⟨len - 1, by omega⟩
    clear hL hne hend hskip hle hfirst
    induction k with
    | zero => simp [below]
    | succ k ih =>
      rw [below_succ _ (k + 1), ih fun l h0 hlt => hnone l h0 (by omega),
        hnone (k + 1) (by omega) (by omega), Nat.add_zero]
  refine ⟨hL, hne, ?_, fun s hs hlt => ?_⟩
  · rw [hfirst]
    refine ⟨by dsimp only; omega, by rw [hfirst], Nat.zero_le _, Nat.two_pow_pos _, ?_, ?_, ?_⟩
    · dsimp only
      rw [hin.cnt_eq _ (by omega), used_eq_first _ (by omega), hfirst]
      omega
    · dsimp only
      have hzero := rev_mul_two_pow len 0 0
      rw [Nat.zero_mul, rev_zero] at hzero
      exact hzero.symm
    · dsimp only
      rw [hfirst, hbelow, hcnt, Nat.sub_zero, Nat.add_zero]
  · by_contra hpos
    have := hnone (lens s) (by omega) hlt
    have hcount : 0 < count n lens (lens s) := count_pos hs
    omega

/-- **The two builders together.** -/
theorem build_tables (hin : TableInput n lens L cnt sort) (hcnt : read cnt 0 = count n lens 0)
    (tbl : List ℕ) (bits : ℕ) :
    IsTable n lens L bits
      (match pakka_sinfl_build_tbl sort cnt ⟨1, 0, 0, read cnt 0⟩ tbl bits with
      | (true, _, tbl) => tbl
      | (false, gen, tbl) => pakka_sinfl_build_subtbl sort cnt gen tbl bits n) := by
  obtain ⟨hL, hne, hat, hzero⟩ := first_cursor hin hcnt
  rw [pakka_sinfl_build_tbl]
  dsimp only
  generalize sinfl_first_len cnt 16 1 = len at hL hne hat hzero
  have hspec := build_tbl_loop_spec hin 16 bits tbl
    (by have := hin.le; dsimp only; omega) hL hat hne
    (fun s hs hpos _ hp => by
      exfalso
      rcases hp with hlt | ⟨heq, hlt⟩
      · have := hzero s hs hlt
        omega
      · rw [number, heq] at hlt
        dsimp only at hlt
        omega)
    (fun _ s hs hlt => by rw [hzero s hs hlt]; exact Nat.zero_le _)
  generalize sinfl_build_tbl_loop sort cnt bits 16 (⟨len, read cnt len, 0, read cnt 0⟩, tbl) = r
    at hspec
  obtain ⟨flag, gen, tbl'⟩ := r
  dsimp only at hspec
  obtain ⟨hshort, hcase⟩ := hspec
  -- either all words are in the first table, or the second builder goes on from the word at hand
  rcases hcase with ⟨rfl, hall⟩ | ⟨rfl, hlong, hle, hne', hat', hskip⟩
  · refine ⟨hin.complete.le, hshort, fun s hs hlt => ?_⟩
    have := hall s hs (by omega)
    omega
  · -- no word has a length between the width of the table and the length at hand
    have hgap (m : ℕ) (hm : bits < m) (hlt : m < gen.len) : count n lens m = 0 := by
      rw [count, Nat.count_iff_forall_not.mpr]
      intro s hs hlen
      have := hskip s hs (by omega)
      omega
    have hpassed (s : ℕ) (hs : s < n) (hlt : bits < lens s)
        (hp : Passed n lens gen.len (first (count n lens) gen.len) s) : False := by
      rcases hp with hlt' | ⟨heq, hlt'⟩
      · have := hskip s hs hlt'
        omega
      · rw [number, heq] at hlt'
        omega
    dsimp only
    rw [pakka_sinfl_build_subtbl]
    have hstage : Stage n L bits lens ⟨gen, 0, 0, none, 1 <<< bits, tbl'⟩ 0
        (Passed n lens gen.len (first (count n lens) gen.len)) := by
      refine ⟨hshort, Nat.zero_le _, rfl, ?_, ?_, ?_, ?_, ?_, ?_, ?_, ?_, ?_⟩
      · exact le_of_eq (Nat.one_shiftLeft bits).symm
      · rw [Nat.zero_mul]
        exact le_of_eq (Nat.one_shiftLeft bits)
      · exact fun h => absurd h (Nat.lt_irrefl 0)
      · exact fun h => absurd h (Nat.lt_irrefl 0)
      · exact fun h => absurd h (Nat.lt_irrefl 0)
      · exact fun h => absurd h (Nat.lt_irrefl 0)
      · exact fun s _ _ h => absurd h (Nat.succ_ne_zero _)
      · exact fun s hs hlt hp => (hpassed s hs hlt hp).elim
      · exact fun s hs hlt hp => (hpassed s hs hlt hp).elim
    obtain ⟨hshort', hlong'⟩ := build_subtbl_loop_spec hin n hstage hat' hne' hlong hle
      (Nat.zero_le _)
      (fun _ => by
        dsimp only
        rw [first_eq_mul hlong fun k hk hlt => hgap k hk hlt, Nat.mul_mod_left])
      (Nat.le_add_left _ _)
    exact ⟨hin.complete.le, hshort', hlong'⟩

end Build

/-- **Every complete code gets a table.** -/
theorem build_isTable {lens : List ℕ} {maxlen n : ℕ} (h : Complete n (read lens) maxlen)
    (hpos : 0 < maxlen) (hmax : maxlen ≤ 15) (tbl : List ℕ) (bits : ℕ) :
    IsTable n (read lens) maxlen bits (pakka_sinfl_build tbl lens bits maxlen n) := by
  obtain ⟨m, rfl⟩ : ∃ m, maxlen = m + 1 := ⟨maxlen - 1, by omega⟩
  have hcnt := build_counts lens n
  rw [pakka_sinfl_build]
  dsimp only
  generalize n.fold (fun i _ cnt => write cnt (read lens i) (read cnt (read lens i) + 1)) [] = cnt
    at hcnt ⊢
  obtain ⟨hused, hoff⟩ := build_offs lens n hcnt m
  rw [Nat.add_sub_cancel]
  generalize m.fold (fun i _ (s : List ℕ × ℕ) =>
      (write s.1 (i + 2) (read s.1 (i + 1) + read cnt (i + 1)), (s.2 <<< 1) + read cnt (i + 1)))
      (write [] 1 (read cnt 0), 0) = r at hused hoff ⊢
  obtain ⟨off, used'⟩ := r
  dsimp only at hused hoff ⊢
  obtain ⟨hzero, hin⟩ := sort_spec h hmax hcnt hoff
  rw [build_sort]
  generalize scatter (fun i => some (read lens i)) id n (off, []) = q at hzero hin ⊢
  obtain ⟨off', sort⟩ := q
  dsimp only at hzero hin ⊢
  have hfull : (used' <<< 1) + read cnt (m + 1) = 2 ^ (m + 1) := by
    have hsucc := h.used_eq
    rw [used_succ] at hsucc
    rw [hused, hcnt, Nat.shiftLeft_eq]
    omega
  rw [hfull, Nat.one_shiftLeft, if_neg (Nat.lt_irrefl _), hzero, ← hcnt]
  exact build_tables hin (hcnt 0) tbl bits

/-! ## Decoding a word

In one step or in two.
-/

/-- The parts of an entry. -/
theorem entry_parts {s len : ℕ} (hs : s < 4096) (hlen : len < 16) :
    sinfl_entry s len &&& 0x10 = 0 ∧ sinfl_entry s len &&& 0x0f = len ∧
      (sinfl_entry s len >>> 16) &&& 0x0fff = s := by
  have hval : sinfl_entry s len = s * 65536 + len := by
    rw [sinfl_entry, ← Nat.shiftLeft_add_eq_or_of_lt (by omega), Nat.shiftLeft_eq]
  refine ⟨?_, ?_, ?_⟩
  · rw [show (0x10 : ℕ) = 2 ^ 4 from rfl, Nat.and_two_pow, Nat.testBit_eq_decide_div_mod_eq, hval,
      decide_eq_false (by omega)]
    rfl
  · rw [show (0x0f : ℕ) = 2 ^ 4 - 1 from rfl, Nat.and_two_pow_sub_one_eq_mod, hval]
    omega
  · rw [show (0x0fff : ℕ) = 2 ^ 12 - 1 from rfl, Nat.and_two_pow_sub_one_eq_mod,
      Nat.shiftRight_eq_div_pow, hval]
    omega

/-- The parts of a cell that leads to a sub-table. -/
theorem pointer_parts {start sub : ℕ} (hstart : start < 65536) (hsub : sub < 16) :
    sinfl_pointer start sub &&& 0x10 ≠ 0 ∧ sinfl_pointer start sub &&& 0x0f = sub ∧
      (sinfl_pointer start sub >>> 16) &&& 0xffff = start := by
  have hval : sinfl_pointer start sub = start * 65536 + (16 + sub) := by
    have hmask : sub &&& 0xf = sub := by
      rw [show (0xf : ℕ) = 2 ^ 4 - 1 from rfl, Nat.and_two_pow_sub_one_eq_mod,
        Nat.mod_eq_of_lt (by omega)]
    have hlow : (0x10 : ℕ) ||| sub = 16 + sub :=
      (Nat.shiftLeft_add_eq_or_of_lt (show sub < 2 ^ 4 by omega) 1).symm
    rw [sinfl_pointer, hmask, Nat.lor_assoc, hlow, ← Nat.shiftLeft_add_eq_or_of_lt (by omega),
      Nat.shiftLeft_eq]
  refine ⟨?_, ?_, ?_⟩
  · rw [show (0x10 : ℕ) = 2 ^ 4 from rfl, Nat.and_two_pow, Nat.testBit_eq_decide_div_mod_eq, hval,
      decide_eq_true (by omega)]
    decide
  · rw [show (0x0f : ℕ) = 2 ^ 4 - 1 from rfl, Nat.and_two_pow_sub_one_eq_mod, hval]
    omega
  · rw [show (0xffff : ℕ) = 2 ^ 16 - 1 from rfl, Nat.and_two_pow_sub_one_eq_mod,
      Nat.shiftRight_eq_div_pow, hval]
    omega

section Decode

variable {n L bits : ℕ} {lens : ℕ → ℕ} {tbl : List ℕ} {inp : Bytes} {s : Sinfl}
  {stream rest : List Bool} {sym : ℕ}

/-- A word in one step. -/
theorem IsTable.decode_short (h : IsTable n lens L bits tbl) (hread : Reading inp s stream)
    (hsym : sym < n) (hpos : 0 < lens sym) (hword : toNat stream % 2 ^ lens sym = word n lens sym)
    (hle : lens sym ≤ bits) (hL : L ≤ 15) (hn : n ≤ 4096) (hbits : bits ≤ 15)
    (hcnt : 15 ≤ s.bitcnt) :
    ∃ s', pakka_sinfl_decode s tbl bits = some (sym, s') ∧
      Reading inp s' (stream.drop (lens sym)) ∧ s'.bitcnt = s.bitcnt - lens sym := by
  have hlen := h.le sym hsym
  have hmod : toNat stream % 2 ^ bits % 2 ^ lens sym = word n lens sym := by
    rw [Nat.mod_mod_of_dvd _ (Nat.pow_dvd_pow 2 hle), hword]
  have hkey := h.short sym hsym hpos hle trivial _ (Nat.mod_lt _ (Nat.two_pow_pos _)) hmod
  obtain ⟨hflag, htake, hvalue⟩ := entry_parts (s := sym) (by omega) (show lens sym < 16 by omega)
  obtain ⟨s', heat, hread', hleft⟩ := hread.eat (show lens sym ≤ s.bitcnt by omega)
  refine ⟨s', ?_, hread', hleft⟩
  rw [pakka_sinfl_decode, hread.peek (by omega) (by omega)]
  show (if read tbl (toNat stream % 2 ^ bits) &&& 0x10 ≠ 0 then _ else _) = _
  rw [hkey, if_neg (not_not.mpr hflag), htake, heat, hvalue]
  rfl

/-- A word in two steps: its first bits lead to the sub-table. -/
theorem IsTable.decode_long (h : IsTable n lens L bits tbl) (hread : Reading inp s stream)
    (hsym : sym < n) (hword : toNat stream % 2 ^ lens sym = word n lens sym)
    (hlong : bits < lens sym) (hL : L ≤ 15) (hn : n ≤ 4096) (hcnt : 15 ≤ s.bitcnt) :
    ∃ s', pakka_sinfl_decode s tbl bits = some (sym, s') ∧
      Reading inp s' (stream.drop (lens sym)) ∧ s'.bitcnt = s.bitcnt - lens sym := by
  have hlen := h.le sym hsym
  obtain ⟨start, sub, hheld, hend⟩ := h.long sym hsym hlong
  have hsub := hheld.sub_le
  have hlens := hheld.lens_le
  have hbits : 2 ^ bits ≤ 2 ^ 15 := Nat.pow_le_pow_right (by omega) (by omega)
  have hroom : 2 ^ L ≤ 2 ^ 15 := Nat.pow_le_pow_right (by omega) hL
  have hcells := Nat.two_pow_pos sub
  have hpow : 2 ^ lens sym = 2 ^ bits * 2 ^ (lens sym - bits) := by
    rw [← pow_add]
    congr 1
    omega
  have hfirst : toNat stream % 2 ^ bits = rev bits (sinfl_prefix_of n lens bits sym) := by
    rw [← word_mod_bits (le_of_lt hlong), ← hword,
      Nat.mod_mod_of_dvd _ (Nat.pow_dvd_pow 2 (by omega))]
  obtain ⟨hflag, hwidth, hbase⟩ := pointer_parts (show start < 65536 by omega)
    (show sub < 16 by omega)
  obtain ⟨s₁, heat₁, hread₁, hleft₁⟩ := hread.eat (show bits ≤ s.bitcnt by omega)
  have hindex : toNat (stream.drop bits) % 2 ^ sub % 2 ^ (lens sym - bits) =
      word n lens sym / 2 ^ bits := by
    rw [Nat.mod_mod_of_dvd _ (Nat.pow_dvd_pow 2 (by omega)), toNat_drop, ← hword, hpow,
      Nat.mod_mul_right_div_self]
  have hkey := hheld.cells _ (Nat.mod_lt _ hcells) hindex
  obtain ⟨_, htake, hvalue⟩ := entry_parts (s := sym) (by omega) (show lens sym - bits < 16 by omega)
  obtain ⟨s₂, heat₂, hread₂, hleft₂⟩ := hread₁.eat (show lens sym - bits ≤ s₁.bitcnt by omega)
  rw [List.drop_drop, Nat.add_sub_cancel' (le_of_lt hlong)] at hread₂
  refine ⟨s₂, ?_, hread₂, by omega⟩
  rw [pakka_sinfl_decode, hread.peek (by omega) (by omega)]
  show (if read tbl (toNat stream % 2 ^ bits) &&& 0x10 ≠ 0 then _ else _) = _
  rw [hfirst, hheld.pointer, if_pos hflag, heat₁]
  show (pakka_sinfl_peek s₁ (sinfl_pointer start sub &&& 0x0f)).bind _ = _
  rw [hwidth, hread₁.peek (by omega) (by omega)]
  show (pakka_sinfl_eat s₁ (read tbl (((sinfl_pointer start sub >>> 16) &&& 0xffff) +
    toNat (stream.drop bits) % 2 ^ sub) &&& 0x0f)).bind _ = _
  rw [hbase, hkey, htake, heat₂, hvalue]
  rfl

/-- **Decoding takes the word that the stream starts with.** -/
theorem IsTable.decode (h : IsTable n lens L bits tbl)
    (hread : Reading inp s (ofNat (word n lens sym) (lens sym) ++ rest)) (hsym : sym < n)
    (hpos : 0 < lens sym) (hL : L ≤ 15) (hn : n ≤ 4096) (hbits : bits ≤ 15)
    (hcnt : 15 ≤ s.bitcnt) :
    ∃ s', pakka_sinfl_decode s tbl bits = some (sym, s') ∧ Reading inp s' rest ∧
      s'.bitcnt = s.bitcnt - lens sym := by
  obtain ⟨hword, hdrop⟩ := toNat_field (show word n lens sym < 2 ^ lens sym from word_lt sym) rest
  rcases Nat.lt_or_ge bits (lens sym) with hlong | hle
  · obtain ⟨s', hdec, hread', hleft⟩ := h.decode_long hread hsym hword hlong hL hn hcnt
    rw [hdrop] at hread'
    exact ⟨s', hdec, hread', hleft⟩
  · obtain ⟨s', hdec, hread', hleft⟩ :=
      h.decode_short hread hsym hpos hword hle hL hn hbits hcnt
    rw [hdrop] at hread'
    exact ⟨s', hdec, hread', hleft⟩

end Decode

end Pakka
