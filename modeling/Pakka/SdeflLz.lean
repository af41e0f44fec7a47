/-
The sequences of a block spell it.

The tables of the match finder are hints. Whatever position a chain leads to is in front of the one
at hand, and a match is compared letter by letter before it is taken, so a match is right whatever
the tables hold. The assertions of the finder and of the loop over a block cannot fail; what can
fail is the one that bounds the number of sequences.

So the result does not depend on the hash function, the chains or the level. What it does depend on
is that a distance never reaches behind the start of the input or beyond the window, and this is
what the loop conditions of the search are used for.
-/
import Pakka.DeflateTokens

set_option autoImplicit false

namespace Pakka

open Cells BitString ByteImage Lz77 Function

/-! ## The match finder

What a search returns, if it returns anything, agrees with the text for its whole length.
-/

/-- A match at `p`, or none. -/
def Found (inp : Bytes) (p max_match : ℕ) (m : SdeflMatch) : Prop :=
  m.len = 0 ∨ (0 < m.off ∧ m.off ≤ p ∧ m.off ≤ 32768 ∧ 4 ≤ m.len ∧ m.len ≤ max_match ∧
    ∀ k, k < m.len → inp.getD (p - m.off + k) 0 = inp.getD (p + k) 0)

section Finder

variable {inp : Bytes} {max_match p e : ℕ}

/-- Four letters are compared at once. -/
theorem uload32_inj {i p : ℕ} (h : pakka_sdefl_uload32 inp i = pakka_sdefl_uload32 inp p) {k : ℕ}
    (hk : k < 4) : inp.getD (i + k) 0 = inp.getD (p + k) 0 := by
  have hval (j : ℕ) : pakka_sdefl_uload32 inp j = (inp.getD j 0).toNat +
      256 * ((inp.getD (j + 1) 0).toNat + 256 * ((inp.getD (j + 2) 0).toNat +
        256 * (inp.getD (j + 3) 0).toNat)) := by
    have h0 := UInt8.toNat_lt (inp.getD j 0)
    have h1 := UInt8.toNat_lt (inp.getD (j + 1) 0)
    have h2 := UInt8.toNat_lt (inp.getD (j + 2) 0)
    rw [pakka_sdefl_uload32]
    generalize (inp.getD j 0).toNat = a at h0 ⊢
    generalize (inp.getD (j + 1) 0).toNat = b at h1 ⊢
    generalize (inp.getD (j + 2) 0).toNat = c at h2 ⊢
    generalize (inp.getD (j + 3) 0).toNat = d
    rw [Nat.lor_comm a, ← Nat.shiftLeft_add_eq_or_of_lt (show a < 2 ^ 8 by omega),
      Nat.lor_comm (b <<< 8 + a), ← Nat.shiftLeft_add_eq_or_of_lt
        (show b <<< 8 + a < 2 ^ 16 by rw [Nat.shiftLeft_eq]; omega), Nat.lor_comm,
      ← Nat.shiftLeft_add_eq_or_of_lt
        (show c <<< 16 + (b <<< 8 + a) < 2 ^ 24 by simp only [Nat.shiftLeft_eq]; omega)]
    simp only [Nat.shiftLeft_eq]
    omega
  rw [hval, hval] at h
  have h0 := UInt8.toNat_lt (inp.getD i 0)
  have h0' := UInt8.toNat_lt (inp.getD p 0)
  have h1 := UInt8.toNat_lt (inp.getD (i + 1) 0)
  have h1' := UInt8.toNat_lt (inp.getD (p + 1) 0)
  have h2 := UInt8.toNat_lt (inp.getD (i + 2) 0)
  have h2' := UInt8.toNat_lt (inp.getD (p + 2) 0)
  have hk' : k = 0 ∨ k = 1 ∨ k = 2 ∨ k = 3 := by omega
  apply UInt8.toNat_inj.mp
  rcases hk' with rfl | rfl | rfl | rfl
  · rw [Nat.add_zero, Nat.add_zero]
    omega
  all_goals omega

/-- Comparing on. -/
theorem extend_spec {i : ℕ} (hi : i < p) (hroom : p + max_match ≤ e) (fuel n : ℕ)
    (hn : n ≤ max_match)
    (hsame : ∀ k, k < n → inp.getD (i + k) 0 = inp.getD (p + k) 0) :
    ∃ n', sdefl_extend inp max_match i p e fuel n = some n' ∧ n ≤ n' ∧ n' ≤ max_match ∧
      ∀ k, k < n' → inp.getD (i + k) 0 = inp.getD (p + k) 0 := by
  induction fuel generalizing n with
  | zero => exact ⟨n, rfl, le_rfl, hn, hsame⟩
  | succ fuel ih =>
    rw [sdefl_extend]
    split_ifs with h hbound
    · obtain ⟨hlt, heq⟩ := h
      obtain ⟨n', hext, hle, hmax, hall⟩ := ih (n + 1) (by omega) fun k hk => by
        rcases Nat.eq_or_lt_of_le (Nat.le_of_lt_succ hk) with rfl | hk'
        · exact heq
        · exact hsame k hk'
      exact ⟨n', hext, by omega, hmax, hall⟩
    · omega
    · exact ⟨n, rfl, le_rfl, hn, hsame⟩

/-- One position of a chain. -/
theorem try_spec {i : ℕ} {m : SdeflMatch} (hi : i < p) (hwin : p ≤ i + 32768)
    (hroom : p + max_match ≤ e) (hmax : 4 < max_match) (hlt : m.len < max_match)
    (h : Found inp p max_match m) :
    ∃ stop m', sdefl_try inp max_match i p e m = some (stop, m') ∧ Found inp p max_match m' ∧
      (stop = false → m'.len < max_match) := by
  rw [sdefl_try, if_pos (by dsimp only [PAKKA_SDEFL_MIN_MATCH]; omega)]
  split_ifs with hload
  · obtain ⟨n, hext, h4, hle, hall⟩ := extend_spec hi hroom max_match 4 (by omega)
      fun k hk => uload32_inj hload.2 hk
    rw [hext]
    show ∃ stop m', (if n > m.len then some (decide (n = max_match), (⟨p - i, n⟩ : SdeflMatch))
      else some (false, m)) = some (stop, m') ∧ _
    split_ifs with hlonger
    · refine ⟨_, _, rfl, Or.inr ⟨?_, ?_, ?_, h4, hle, ?_⟩, fun hstop => ?_⟩
      · dsimp only
        omega
      · exact Nat.sub_le _ _
      · dsimp only
        omega
      · dsimp only
        rw [Nat.sub_sub_self (le_of_lt hi)]
        exact hall
      · have := of_decide_eq_false hstop
        dsimp only
        omega
    · exact ⟨_, _, rfl, h, fun _ => hlt⟩
  · exact ⟨_, _, rfl, h, fun _ => hlt⟩

/-- A chain. -/
theorem fnd_loop_spec {prv : ℕ → ℤ} {limit : ℤ} (hprv : ∀ k, prv k ≤ 0 ∨ prv k < p)
    (hroom : p + max_match ≤ e) (hmax : 4 < max_match) (hlimit : -1 ≤ limit)
    (hwin : (p : ℤ) - 32768 ≤ limit) (chain_len : ℕ) {i : ℤ} {m : SdeflMatch} (hi : i < p)
    (hlt : m.len < max_match) (h : Found inp p max_match m) :
    ∃ m', sdefl_fnd_loop prv inp max_match p e limit chain_len i m = some m' ∧
      Found inp p max_match m' := by
  induction chain_len generalizing i m with
  | zero => exact ⟨m, rfl, h⟩
  | succ chain_len ih =>
    rw [sdefl_fnd_loop]
    split_ifs with hin
    · obtain ⟨stop, m₁, htry, hfound, hnext⟩ := try_spec (show i.toNat < p by omega)
        (show p ≤ i.toNat + 32768 by omega) hroom hmax hlt h
      rw [htry]
      show ∃ m', (if stop then some m₁ else sdefl_fnd_loop prv inp max_match p e limit chain_len
        (prv (i.toNat &&& PAKKA_SDEFL_WIN_MSK)) m₁) = some m' ∧ _
      cases stop with
      | true => exact ⟨m₁, rfl, hfound⟩
      | false =>
        refine ih ?_ (hnext rfl) hfound
        rcases hprv (i.toNat &&& PAKKA_SDEFL_WIN_MSK) with hp | hp <;> omega
    · exact ⟨m, rfl, h⟩

/-- The tables hold positions in front. -/
structure InFront (s : Sdefl) (p : ℕ) : Prop where
  tbl : ∀ h, s.tbl h < p
  prv : ∀ k, s.prv k ≤ 0 ∨ s.prv k < p

theorem InFront.mono {s : Sdefl} {p q : ℕ} (h : InFront s p) (hle : p ≤ q) : InFront s q :=
  ⟨fun k => by have := h.tbl k; omega, fun k => by rcases h.prv k with hk | hk <;> omega⟩

/-- **What is found is a match**, and the finder's assertions hold. -/
theorem fnd_spec (inp : Bytes) (e : ℕ) {s : Sdefl} (h : InFront s p) (hroom : p + max_match ≤ e)
    (hmax : 4 < max_match)
    (chain_len : ℕ) :
    ∃ m, pakka_sdefl_fnd s chain_len max_match inp p e = some m ∧ Found inp p max_match m := by
  rw [pakka_sdefl_fnd]
  rw [if_pos ⟨by omega, hroom⟩]
  refine fnd_loop_spec h.prv hroom hmax ?_ ?_ chain_len (h.tbl _) (by dsimp only; omega) (Or.inl rfl)
  · dsimp only [PAKKA_SDEFL_NIL]
    split_ifs <;> omega
  · have hsiz : ((PAKKA_SDEFL_WIN_SIZ : ℕ) : ℤ) = 32768 := rfl
    dsimp only [PAKKA_SDEFL_NIL]
    split_ifs <;> omega

end Finder

/-! ## Counting the symbols

Every symbol that will be written has been counted, so it gets a word.
-/

theorem TokenLive.mono {freqLit freqOff freqLit' freqOff' : List ℕ} {t : Token UInt8}
    (h : TokenLive freqLit freqOff t)
    (hlit : ∀ sym, read freqLit sym ≠ 0 → read freqLit' sym ≠ 0)
    (hoff : ∀ sym, read freqOff sym ≠ 0 → read freqOff' sym ≠ 0) : TokenLive freqLit' freqOff' t := by
  cases t with
  | lit b => exact hlit _ h
  | copy dist len =>
    refine ⟨h.1, fun c hc => ?_⟩
    obtain ⟨h1, h2⟩ := h.2 c hc
    exact ⟨hlit _ h1, hoff _ h2⟩

/-- The symbols of a token in the code for literals and lengths. -/
def sdefl_lit_syms : Token UInt8 → List ℕ
  | .lit b => [b.toNat]
  | .copy dist len => ((pakka_sdefl_match_codes dist len).map (·.lc)).toList

/-- The symbols of a token in the code for distances. -/
def sdefl_off_syms : Token UInt8 → List ℕ
  | .lit _ => []
  | .copy dist len => ((pakka_sdefl_match_codes dist len).map (·.dc)).toList

theorem read_incr (A : List ℕ) (i j : ℕ) :
    read (write A i (read A i + 1)) j = if j = i then read A i + 1 else read A j := by
  rw [read_write, update_apply]

theorem incr_ne_zero {A : List ℕ} (i : ℕ) {j : ℕ} (h : read A j ≠ 0) :
    read (write A i (read A i + 1)) j ≠ 0 := by
  rw [read_incr]
  split_ifs
  · omega
  · exact h

theorem incr_self_ne_zero (A : List ℕ) (i : ℕ) : read (write A i (read A i + 1)) i ≠ 0 := by
  rw [read_incr, if_pos rfl]
  omega

theorem incr_count (A : List ℕ) (i j : ℕ) :
    read (write A i (read A i + 1)) j = read A j + [i].count j := by
  rw [read_incr, List.count_singleton, beq_eq_decide]
  by_cases h : j = i
  · rw [if_pos h, decide_eq_true h.symm, h]
    rfl
  · rw [if_neg h, decide_eq_false (Ne.symm h)]
    rfl

/-- **Counting a match.** -/
theorem reg_match_spec (s : Sdefl) {off len : ℕ} (hpos : 0 < off) (hoff : off ≤ 32768)
    (h3 : 3 ≤ len) (hlen : len ≤ 258) :
    ∃ freqLit freqOff, pakka_sdefl_reg_match s off len =
        some { s with freqLit := freqLit, freqOff := freqOff } ∧
      (∀ sym, read freqLit sym = read s.freqLit sym + (sdefl_lit_syms (.copy off len)).count sym) ∧
      (∀ sym, read freqOff sym = read s.freqOff sym + (sdefl_off_syms (.copy off len)).count sym) ∧
      TokenLive freqLit freqOff (.copy off len) := by
  obtain ⟨c, hc, hcoded⟩ := match_codes_spec hpos hoff h3 hlen
  have hls := hcoded.ls_le
  have hlc := hcoded.lc_eq
  have hdc := hcoded.dc_lt
  refine ⟨write s.freqLit c.lc (read s.freqLit c.lc + 1),
    write s.freqOff c.dc (read s.freqOff c.dc + 1), ?_, fun sym => ?_, fun sym => ?_,
    ⟨hpos, hoff, h3, hlen⟩, fun c' hc' => ?_⟩
  · rw [pakka_sdefl_reg_match, hc]
    exact if_pos ⟨by dsimp only [PAKKA_SDEFL_SYM_MAX]; omega, by
      dsimp only [PAKKA_SDEFL_OFF_MAX]; omega⟩
  · rw [incr_count, sdefl_lit_syms, hc]
    rfl
  · rw [incr_count, sdefl_off_syms, hc]
    rfl
  · rw [hc] at hc'
    obtain rfl := Option.some_inj.mp hc'
    exact ⟨incr_self_ne_zero _ _, incr_self_ne_zero _ _⟩

/-! ## In a block

The invariant: the sequences so far spell the block so far, literals that are pending aside.
-/

/-- The encoder in the block that starts at `start`: the sequences so far spell the block up to the
literals that are pending, and everything is counted. -/
structure LzInv (inp : Bytes) (start : ℕ) (w : SdeflBits) (cod : SdeflCod) (z : SdeflLz) : Prop where
  w_eq : z.s.w = w
  cod_eq : z.s.cod = cod
  run_le : start + z.litlen ≤ z.i
  i_le : z.i ≤ inp.length
  spells : Spells inp start (z.s.seq.flatMap (sdefl_seq_tokens inp)) (z.i - z.litlen)
  live : ∀ t ∈ z.s.seq.flatMap (sdefl_seq_tokens inp), TokenLive z.s.freqLit z.s.freqOff t
  lits : ∀ j, z.i - z.litlen ≤ j → j < z.i → read z.s.freqLit (inp.getD j 0).toNat ≠ 0
  lit_count : ∀ sym, read z.s.freqLit sym =
    ((z.s.seq.flatMap (sdefl_seq_tokens inp)).flatMap sdefl_lit_syms ++
      ((inp.drop (z.i - z.litlen)).take z.litlen).map UInt8.toNat).count sym
  off_count : ∀ sym, read z.s.freqOff sym =
    ((z.s.seq.flatMap (sdefl_seq_tokens inp)).flatMap sdefl_off_syms).count sym
  front : InFront z.s z.i

/-- Every two sequences take five letters at least. -/
def Few (start : ℕ) (z : SdeflLz) : Prop := 5 * z.s.seq.length ≤ 2 * (z.i - z.litlen - start)

section Block

variable {inp : Bytes} {start blk_end : ℕ} {w : SdeflBits} {cod : SdeflCod} {z : SdeflLz}

/-- Entering positions changes the tables only. -/
theorem enter_spec {inc : ℕ} (hinc : 0 < inc) (run : ℕ) {z : SdeflLz} (hfront : InFront z.s z.i)
    (hend : z.i + run * inc ≤ blk_end) :
    ∃ tbl prv, sdefl_enter inp inc blk_end run z =
        some ⟨{ z.s with tbl := tbl, prv := prv }, z.i + run * inc, z.litlen⟩ ∧
      InFront { z.s with tbl := tbl, prv := prv } (z.i + run * inc) := by
  induction run generalizing z with
  | zero =>
    rw [Nat.zero_mul, Nat.add_zero]
    exact ⟨z.s.tbl, z.s.prv, rfl, hfront⟩
  | succ run ih =>
    have hmul : (run + 1) * inc = inc + run * inc := by rw [Nat.succ_mul, Nat.add_comm]
    rw [hmul] at hend ⊢
    rw [sdefl_enter]
    dsimp only
    rw [if_pos (by omega)]
    have hnext : InFront { z.s with
        prv := update z.s.prv (z.i &&& PAKKA_SDEFL_WIN_MSK) (z.s.tbl (pakka_sdefl_hash32 inp z.i))
        tbl := update z.s.tbl (pakka_sdefl_hash32 inp z.i) z.i } (z.i + inc) := by
      constructor
      · intro k
        dsimp only
        rw [update_apply]
        have := hfront.tbl k
        split_ifs <;> omega
      · intro k
        dsimp only
        rw [update_apply]
        have := hfront.tbl (pakka_sdefl_hash32 inp z.i)
        have := hfront.prv k
        split_ifs <;> omega
    obtain ⟨tbl, prv, henter, hfront'⟩ := ih (z := ⟨{ z.s with
        prv := update z.s.prv (z.i &&& PAKKA_SDEFL_WIN_MSK) (z.s.tbl (pakka_sdefl_hash32 inp z.i))
        tbl := update z.s.tbl (pakka_sdefl_hash32 inp z.i) z.i }, z.i + inc, z.litlen⟩) hnext
      (by dsimp only; omega)
    dsimp only at henter hfront'
    rw [Nat.add_assoc] at henter hfront'
    exact ⟨tbl, prv, henter, hfront'⟩

theorem advance_spec (inp : Bytes) (run blk_end : ℕ) {inc : ℕ} (hinc : 0 < inc) {z : SdeflLz}
    (hfront : InFront z.s z.i)
    (hend : z.i + run * inc ≤ blk_end) :
    ∃ tbl prv, sdefl_advance inp run inc blk_end z =
        some ⟨{ z.s with tbl := tbl, prv := prv }, z.i + run * inc, z.litlen⟩ ∧
      InFront { z.s with tbl := tbl, prv := prv } (z.i + run * inc) := by
  rw [sdefl_advance]
  split_ifs
  · exact enter_spec hinc run hfront hend
  · exact ⟨z.s.tbl, z.s.prv, rfl, hfront.mono (Nat.le_add_right _ _)⟩

/-- The literals that are pending, as tokens. -/
theorem mem_slice {b : UInt8} {a n : ℕ} (h : b ∈ (inp.drop a).take n) :
    ∃ j, a ≤ j ∧ j < a + n ∧ b = inp.getD j 0 := by
  obtain ⟨k, hk, rfl⟩ := List.getElem_of_mem h
  rw [List.length_take, List.length_drop] at hk
  refine ⟨a + k, by omega, by omega, ?_⟩
  rw [List.getElem_take, List.getElem_drop, List.getD_eq_getElem _ _ (by omega)]

/-- The pending literals become a sequence. -/
theorem seq_lits_spec (h : LzInv inp start w cod z) :
    (sdefl_seq_lits z = none ∧ PAKKA_SDEFL_SEQ_SIZ ≤ z.s.seq.length + 2) ∨
      ∃ z', sdefl_seq_lits z = some z' ∧ LzInv inp start w cod z' ∧ z'.i = z.i ∧ z'.litlen = 0 ∧
        z'.s.seq.length ≤ z.s.seq.length + min z.litlen 1 := by
  have hrun := h.run_le
  have hile := h.i_le
  rw [sdefl_seq_lits, pakka_sdefl_seq]
  split_ifs with hne hfull
  · right
    refine ⟨_, rfl, ?_, rfl, rfl, ?_⟩
    -- the pending letters, as one run at its place in the input
    · have htokens : sdefl_seq_tokens inp ⟨(z.i : ℤ) - z.litlen, z.litlen⟩ =
          ((inp.drop (z.i - z.litlen)).take z.litlen).map Token.lit := by
        rw [sdefl_seq_tokens, if_pos (by dsimp only; omega)]
        dsimp only
        rw [show ((z.i : ℤ) - z.litlen).toNat = z.i - z.litlen by omega]
      have hslice : Spells inp (z.i - z.litlen)
          (((inp.drop (z.i - z.litlen)).take z.litlen).map Token.lit) (z.i - 0) := by
        have hs := spells_slice (x := inp) (p := z.i - z.litlen) z.litlen (by omega)
        rwa [show z.i - z.litlen + z.litlen = z.i - 0 by omega] at hs
      refine ⟨h.w_eq, h.cod_eq, by dsimp only; omega, h.i_le, ?_, ?_,
        fun j hj hj' => absurd hj' (by dsimp only at hj ⊢; omega), fun sym => ?_, fun sym => ?_,
        ⟨h.front.tbl, h.front.prv⟩⟩
      · dsimp only
        rw [List.flatMap_append, List.flatMap_singleton, htokens]
        exact h.spells.append hslice
      · dsimp only
        rw [List.flatMap_append, List.flatMap_singleton, htokens]
        intro t ht
        rcases List.mem_append.mp ht with ht | ht
        · exact h.live t ht
        · obtain ⟨b, hb, rfl⟩ := List.mem_map.mp ht
          obtain ⟨j, hj, hj', rfl⟩ := mem_slice hb
          exact h.lits j hj (by omega)
      · dsimp only
        rw [h.lit_count, List.flatMap_append, List.flatMap_singleton, htokens, List.flatMap_append,
          List.take_zero, List.map_nil, List.append_nil, List.flatMap_map]
        congr 2
        exact List.map_eq_flatMap
      · dsimp only
        have hnone : (((inp.drop (z.i - z.litlen)).take z.litlen).map Token.lit).flatMap
            sdefl_off_syms = [] :=
          List.flatMap_eq_nil_iff.mpr fun t ht => by
            obtain ⟨b, -, rfl⟩ := List.mem_map.mp ht
            rfl
        rw [h.off_count, List.flatMap_append, List.flatMap_singleton, htokens, List.flatMap_append,
          hnone, List.append_nil]
    · dsimp only
      rw [List.length_append, List.length_singleton]
      omega
  · exact Or.inl ⟨rfl, by omega⟩
  · exact Or.inr ⟨z, rfl, h, rfl, by omega, by omega⟩

/-- A look at the next position may drop a match. -/
theorem wait_spec (lvl chain : ℕ) {max_match nice_match : ℕ} {m : SdeflMatch}
    (hfront : InFront z.s z.i) (hroom : z.i + max_match ≤ inp.length) (hnice : nice_match ≤ max_match)
    (hfound : Found inp z.i max_match m) :
    ∃ m', (if lvl ≥ 5 ∧ m.len ≥ PAKKA_SDEFL_MIN_MATCH ∧ m.len + 1 < nice_match then do
        let m2 ← pakka_sdefl_fnd z.s chain (m.len + 1) inp (z.i + 1) inp.length
        pure { m with len := if m2.len > m.len then 0 else m.len }
      else pure m : Option SdeflMatch) = some m' ∧ Found inp z.i max_match m' := by
  split_ifs with h
  · obtain ⟨-, h4, hnext⟩ := h
    obtain ⟨m2, hm2, -⟩ := fnd_spec inp inp.length
      (hfront.mono (Nat.le_add_right z.i 1)) (show z.i + 1 + (m.len + 1) ≤ inp.length by omega)
      (show 4 < m.len + 1 by dsimp only [PAKKA_SDEFL_MIN_MATCH] at h4; omega) chain
    rw [hm2]
    refine ⟨_, rfl, ?_⟩
    split_ifs
    · exact Or.inl rfl
    · exact hfound
  · exact ⟨m, rfl, hfound⟩

/-- What is found, right away or after a look at the next position, is a match. -/
theorem best_spec (lvl : ℕ) {max_match nice_match : ℕ} (hfront : InFront z.s z.i)
    (hroom : z.i + max_match ≤ inp.length) (hnice : nice_match ≤ max_match) :
    ∃ m, sdefl_best inp lvl max_match nice_match z = some m ∧ Found inp z.i max_match m := by
  rw [sdefl_best]
  dsimp only
  generalize (if lvl < 8 then 1 <<< (lvl + 1) else 1 <<< 13) = chain
  by_cases h : max_match > PAKKA_SDEFL_MIN_MATCH
  · obtain ⟨m, hm, hfound⟩ := fnd_spec inp inp.length hfront hroom h chain
    rw [if_pos h, hm]
    exact wait_spec lvl chain hfront hroom hnice hfound
  · rw [if_neg h]
    exact wait_spec lvl chain hfront hroom hnice (Or.inl rfl)

/-- The sequence of a match, counted. -/
theorem copy_spec (s : Sdefl) {off len : ℕ} (hpos : 0 < off) (hoff : off ≤ 32768) (h3 : 3 ≤ len)
    (hlen : len ≤ 258) :
    (pakka_sdefl_seq s (-(off : ℤ)) len = none ∧ PAKKA_SDEFL_SEQ_SIZ ≤ s.seq.length + 2) ∨
      ∃ freqLit freqOff, (pakka_sdefl_seq s (-(off : ℤ)) len).bind
          (fun s => pakka_sdefl_reg_match s off len) = some { s with
            seq := s.seq ++ [⟨-(off : ℤ), len⟩], freqLit := freqLit, freqOff := freqOff } ∧
        (∀ sym, read freqLit sym = read s.freqLit sym + (sdefl_lit_syms (.copy off len)).count sym) ∧
        (∀ sym, read freqOff sym = read s.freqOff sym + (sdefl_off_syms (.copy off len)).count sym) ∧
        TokenLive freqLit freqOff (.copy off len) := by
  rw [pakka_sdefl_seq]
  split_ifs with hfull
  · obtain ⟨freqLit, freqOff, hreg, hlit, hoffs, hlive⟩ := reg_match_spec
      { s with seq := s.seq ++ [⟨-(off : ℤ), len⟩] } hpos hoff h3 hlen
    exact Or.inr ⟨freqLit, freqOff, hreg, hlit, hoffs, hlive⟩
  · exact Or.inl ⟨rfl, by omega⟩

/-- Behind a match, however its positions are entered. -/
theorem LzInv.after_copy (h : LzInv inp start w cod z) (h0 : z.litlen = 0) {max_match : ℕ}
    {m : SdeflMatch} (hfound : Found inp z.i max_match m) (h4 : 4 ≤ m.len)
    (hend : z.i + m.len ≤ blk_end) (hblk : blk_end ≤ inp.length) {freqLit freqOff : List ℕ}
    (hlit : ∀ sym, read freqLit sym =
      read z.s.freqLit sym + (sdefl_lit_syms (.copy m.off m.len)).count sym)
    (hoff : ∀ sym, read freqOff sym =
      read z.s.freqOff sym + (sdefl_off_syms (.copy m.off m.len)).count sym)
    (hlive : TokenLive freqLit freqOff (.copy m.off m.len)) {run inc : ℕ} (hinc : 0 < inc)
    (hmul : run * inc = m.len) :
    ∃ z', sdefl_advance inp run inc blk_end { z with s := { z.s with
        seq := z.s.seq ++ [⟨-(m.off : ℤ), m.len⟩], freqLit := freqLit, freqOff := freqOff } } =
          some z' ∧
      LzInv inp start w cod z' ∧ z'.i = z.i + m.len ∧ z'.litlen = 0 ∧
      z'.s.seq.length = z.s.seq.length + 1 := by
  obtain ⟨hpos, hle, hsame⟩ : 0 < m.off ∧ m.off ≤ z.i ∧
      ∀ k, k < m.len → inp.getD (z.i - m.off + k) 0 = inp.getD (z.i + k) 0 := by
    rcases hfound with hzero | ⟨hpos, hle, -, -, -, hsame⟩
    · omega
    · exact ⟨hpos, hle, hsame⟩
  have hrun := h.run_le
  -- a negative offset is a copy
  have htokens : sdefl_seq_tokens inp ⟨-(m.off : ℤ), m.len⟩ = [.copy m.off m.len] := by
    rw [sdefl_seq_tokens, if_neg (by dsimp only; omega)]
    dsimp only
    rw [show (- -(m.off : ℤ)).toNat = m.off by omega]
  have hspells := h.spells
  rw [h0, Nat.sub_zero] at hspells
  obtain ⟨tbl, prv, hadv, hfront⟩ := advance_spec inp run blk_end
    (z := { z with s := { z.s with
      seq := z.s.seq ++ [⟨-(m.off : ℤ), m.len⟩], freqLit := freqLit, freqOff := freqOff } }) hinc
    ⟨h.front.tbl, h.front.prv⟩ (by rw [hmul]; exact hend)
  rw [hmul] at hadv hfront
  refine ⟨_, hadv, ⟨h.w_eq, h.cod_eq, ?_, ?_, ?_, ?_, fun j hj hj' => absurd hj' ?_, fun sym => ?_,
    fun sym => ?_, hfront⟩, rfl, h0, ?_⟩
  · dsimp only
    omega
  · dsimp only
    omega
  · dsimp only
    rw [h0, Nat.sub_zero, List.flatMap_append, List.flatMap_singleton, htokens]
    exact hspells.append (.copy hpos hle (by omega) hsame (.nil (by omega)))
  · dsimp only
    rw [List.flatMap_append, List.flatMap_singleton, htokens]
    intro t ht
    rcases List.mem_append.mp ht with ht | ht
    · exact (h.live t ht).mono (fun sym hsym => by rw [hlit]; omega)
        fun sym hsym => by rw [hoff]; omega
    · rw [List.mem_singleton.mp ht]
      exact hlive
  · dsimp only at hj ⊢
    omega
  · dsimp only
    rw [hlit, h.lit_count, h0, List.take_zero, List.take_zero, List.map_nil, List.append_nil,
      List.append_nil, List.flatMap_append, List.flatMap_singleton, htokens, List.flatMap_append,
      List.flatMap_singleton, List.count_append]
  · dsimp only
    rw [hoff, h.off_count, List.flatMap_append, List.flatMap_singleton, htokens,
      List.flatMap_append, List.flatMap_singleton, List.count_append]
  · dsimp only
    rw [List.length_append, List.length_singleton]

/-- Behind a literal that waits. -/
theorem LzInv.after_lit (h : LzInv inp start w cod z) (hlt : z.i < blk_end)
    (hblk : blk_end ≤ inp.length) :
    ∃ z', sdefl_advance inp 1 1 blk_end { z with
        s := { z.s with
          freqLit := write z.s.freqLit (inp.getD z.i 0).toNat
            (read z.s.freqLit (inp.getD z.i 0).toNat + 1) }
        litlen := z.litlen + 1 } = some z' ∧
      LzInv inp start w cod z' ∧ z'.i = z.i + 1 ∧ z'.litlen = z.litlen + 1 ∧
      z'.s.seq = z.s.seq := by
  have hrun := h.run_le
  have hsame : z.i + 1 * 1 - (z.litlen + 1) = z.i - z.litlen := by omega
  obtain ⟨tbl, prv, hadv, hfront⟩ := advance_spec inp 1 blk_end
    (z := { z with
      s := { z.s with
        freqLit := write z.s.freqLit (inp.getD z.i 0).toNat
          (read z.s.freqLit (inp.getD z.i 0).toNat + 1) }
      litlen := z.litlen + 1 }) (Nat.succ_pos 0) ⟨h.front.tbl, h.front.prv⟩ hlt
  refine ⟨_, hadv, ⟨h.w_eq, h.cod_eq, ?_, ?_, ?_, ?_, fun j hj hj' => ?_, fun sym => ?_, h.off_count,
    hfront⟩, rfl, rfl, rfl⟩
  · dsimp only
    omega
  · dsimp only
    omega
  · dsimp only
    rw [hsame]
    exact h.spells
  · exact fun t ht => (h.live t ht).mono (fun sym => incr_ne_zero _) (fun sym hsym => hsym)
  · dsimp only at hj hj' ⊢
    rcases Nat.eq_or_lt_of_le (Nat.le_of_lt_succ hj') with rfl | hlt
    · exact incr_self_ne_zero _ _
    · exact incr_ne_zero _ (h.lits j (by omega) hlt)
  · have hnext : (inp.drop (z.i - z.litlen)).take (z.litlen + 1) =
        (inp.drop (z.i - z.litlen)).take z.litlen ++ [inp.getD z.i 0] := by
      rw [List.take_add_one, List.getElem?_drop, Nat.sub_add_cancel (by omega),
        List.getElem?_eq_getElem (by omega), List.getD_eq_getElem _ _ (by omega)]
      rfl
    dsimp only
    rw [incr_count, h.lit_count, hsame, hnext, List.map_append, ← List.append_assoc,
      List.count_append, List.count_append, List.count_append]
    rfl

/-- **A round** of the loop over a block goes on, unless there are too many sequences. -/
theorem lz_round_spec (lvl : ℕ) (h : LzInv inp start w cod z) (hlt : z.i < blk_end)
    (hend : blk_end ≤ inp.length) :
    (sdefl_lz_round inp lvl blk_end z = none ∧ PAKKA_SDEFL_SEQ_SIZ ≤ z.s.seq.length + 3) ∨
      ∃ z', sdefl_lz_round inp lvl blk_end z = some z' ∧ LzInv inp start w cod z' ∧ z.i < z'.i ∧
        z'.i ≤ blk_end ∧ (Few start z → Few start z') := by
  have hrun := h.run_le
  rw [sdefl_lz_round]
  dsimp only
  -- the limits of the search: the end of the block, and what a length can say
  obtain ⟨max_match, hmax, hroom, h258⟩ : ∃ k, k = (if blk_end - z.i > PAKKA_SDEFL_MAX_MATCH then
      PAKKA_SDEFL_MAX_MATCH else blk_end - z.i) ∧ z.i + k ≤ blk_end ∧ k ≤ 258 := by
    refine ⟨_, rfl, ?_, ?_⟩ <;> dsimp only [PAKKA_SDEFL_MAX_MATCH] <;> split_ifs <;> omega
  rw [← hmax]
  obtain ⟨nice_match, hnice, hnicele⟩ : ∃ k, k = (if sdefl_pref.getD lvl 0 < max_match then
      sdefl_pref.getD lvl 0 else max_match) ∧ k ≤ max_match := by
    refine ⟨_, rfl, ?_⟩
    split_ifs <;> omega
  rw [← hnice]
  obtain ⟨m, hbest, hfound⟩ := best_spec lvl h.front (show z.i + max_match ≤ inp.length by omega)
    hnicele
  rw [hbest, Option.bind_eq_bind, Option.bind_some]
  by_cases h4 : m.len ≥ PAKKA_SDEFL_MIN_MATCH
  · rw [if_pos h4]
    rw [PAKKA_SDEFL_MIN_MATCH] at h4
    obtain ⟨hpos, hwin, hmaxlen⟩ : 0 < m.off ∧ m.off ≤ 32768 ∧ m.len ≤ max_match := by
      rcases hfound with hzero | ⟨hpos, -, hwin, -, hmaxlen, -⟩
      · omega
      · exact ⟨hpos, hwin, hmaxlen⟩
    -- a match: the pending letters go out first, then the copy; either may find the table full
    rcases seq_lits_spec h with ⟨hnone, hfull⟩ | ⟨z₁, hseq, hinv, hi, hlit0, hcnt⟩
    · rw [hnone]
      exact Or.inl ⟨rfl, by omega⟩
    rw [hseq, Option.bind_eq_bind, Option.bind_some]
    rcases copy_spec z₁.s hpos hwin (show 3 ≤ m.len by omega) (show m.len ≤ 258 by omega) with
      ⟨hnone, hfull⟩ | ⟨freqLit, freqOff, hcopy, hlit, hoff, hlive⟩
    · rw [hnone]
      exact Or.inl ⟨rfl, by omega⟩
    rw [← hi] at hfound
    right
    rw [Option.bind_eq_bind]
    show ∃ z', ((pakka_sdefl_seq z₁.s (-(m.off : ℤ)) m.len).bind fun s =>
      (pakka_sdefl_reg_match s m.off m.len).bind fun s => if lvl < 2 ∧ m.len ≥ nice_match then
        sdefl_advance inp 1 m.len blk_end { z₁ with s := s }
      else sdefl_advance inp m.len 1 blk_end { z₁ with s := s }) = some z' ∧ _
    rw [← Option.bind_assoc, hcopy, Option.bind_some]
    -- the fast levels skip the positions inside the match; it comes to the same place
    obtain ⟨run, inc, hinc, hmul, hadv⟩ : ∃ run inc, 0 < inc ∧ run * inc = m.len ∧ ∀ z,
        (if lvl < 2 ∧ m.len ≥ nice_match then sdefl_advance inp 1 m.len blk_end z
          else sdefl_advance inp m.len 1 blk_end z) = sdefl_advance inp run inc blk_end z := by
      by_cases hfast : lvl < 2 ∧ m.len ≥ nice_match
      · exact ⟨1, m.len, by omega, Nat.one_mul _, fun z => by rw [if_pos hfast]⟩
      · exact ⟨m.len, 1, Nat.one_pos, Nat.mul_one _, fun z => by rw [if_neg hfast]⟩
    rw [hadv]
    obtain ⟨z', hz', hinv', hi', hlit', hlen'⟩ := hinv.after_copy hlit0 hfound h4
      (show z₁.i + m.len ≤ blk_end by omega) hend hlit hoff hlive hinc hmul
    refine ⟨z', hz', hinv', by omega, by omega, fun hfew => ?_⟩
    rw [Few] at hfew ⊢
    omega
  · rw [if_neg h4]
    right
    obtain ⟨z', hz', hinv', hi', hlit', hseq'⟩ := h.after_lit hlt hend
    refine ⟨z', hz', hinv', by omega, by omega, fun hfew => ?_⟩
    rw [Few] at hfew ⊢
    rw [hseq', hi', hlit']
    omega

/-- **The sequences of a block.** -/
theorem lz_loop_spec (lvl fuel : ℕ) (h : LzInv inp start w cod z) (hle : z.i ≤ blk_end)
    (hend : blk_end ≤ inp.length) (hfuel : blk_end ≤ z.i + fuel) :
    (sdefl_lz_loop inp lvl blk_end fuel z = none ∧
        (Few start z → 5 * PAKKA_SDEFL_SEQ_SIZ ≤ 2 * (blk_end - start) + 15)) ∨
      ∃ z', sdefl_lz_loop inp lvl blk_end fuel z = some z' ∧ LzInv inp start w cod z' ∧
        z'.i = blk_end ∧ (Few start z → Few start z') := by
  induction fuel generalizing z with
  | zero => exact Or.inr ⟨z, rfl, h, by omega, fun hfew => hfew⟩
  | succ fuel ih =>
    rw [sdefl_lz_loop]
    split_ifs with hlt
    · rcases lz_round_spec lvl h hlt hend with ⟨hnone, hfull⟩ | ⟨z₁, hround, hinv, hgo, hle₁, hkeep⟩
      · rw [hnone]
        refine Or.inl ⟨rfl, fun hfew => ?_⟩
        rw [Few] at hfew
        omega
      · rw [hround]
        rcases ih hinv hle₁ (by omega) with ⟨hnone, hfull⟩ | ⟨z', hloop, hinv', hi', hkeep'⟩
        · exact Or.inl ⟨hnone, fun hfew => hfull (hkeep hfew)⟩
        · exact Or.inr ⟨z', hloop, hinv', hi', fun hfew => hkeep' (hkeep hfew)⟩
    · exact Or.inr ⟨z, rfl, h, by omega, fun hfew => hfew⟩

end Block

end Pakka
