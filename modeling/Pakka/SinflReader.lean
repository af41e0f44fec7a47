/-
The reader of the decoder.

A reader stands for the bits that are still to come. The bits it promises are the first of them;
those above the promise are either not loaded or right already, so loading them again does no
harm. At the end of the input a refill promises more than there is: what is missing reads as
zeros, and only a stored block, which counts its bytes back from the promise, sees the difference.

A refill may load bytes that are in the buffer already. They are the same bytes, so the word does
not change where it was right, and this is why the number of promised bits is all that the state
needs to keep.
-/
import Pakka.Sinfl
import Pakka.Lib.BitString
import Mathlib.Tactic.IntervalCases

set_option autoImplicit false

namespace Pakka

open BitString ByteImage

/-! ## Loading a word

Eight bytes as a number, and what is read of the last few.
-/

/-- A bit of a byte string. -/
theorem getD_ofBytes (b : Bytes) (q : ℕ) {r : ℕ} (hr : r < 8) :
    (ofBytes b).getD (8 * q + r) false = (b.getD q 0).toNat.testBit r := by
  induction b generalizing q with
  | nil => simp
  | cons x b ih =>
    rw [ofBytes_cons]
    cases q with
    | zero =>
      rw [List.getD_append _ _ _ _ (by rw [length_ofNat]; omega), ← testBit_toNat,
        toNat_ofNat_lt (UInt8.toNat_lt x), Nat.mul_zero, Nat.zero_add, List.getD_cons_zero]
    | succ q =>
      rw [List.getD_append_right _ _ _ _ (by rw [length_ofNat]; omega), length_ofNat,
        show 8 * (q + 1) + r - 8 = 8 * q + r by omega, ih, List.getD_cons_succ]

theorem testBit_byte_shift (x : UInt8) (i q : ℕ) {r : ℕ} (hr : r < 8) :
    (x.toNat <<< (8 * i)).testBit (8 * q + r) = (decide (q = i) && x.toNat.testBit r) := by
  rw [Nat.testBit_shiftLeft]
  rcases Nat.lt_trichotomy q i with hlt | rfl | hgt
  · rw [decide_eq_false (by omega), decide_eq_false (by omega)]
    rfl
  · rw [decide_eq_true (by omega), decide_eq_true rfl, show 8 * q + r - 8 * q = r by omega]
  · have hhigh : x.toNat.testBit (8 * q + r - 8 * i) = false := by
      apply Nat.testBit_lt_two_pow
      calc x.toNat < 2 ^ 8 := UInt8.toNat_lt x
        _ ≤ 2 ^ (8 * q + r - 8 * i) := Nat.pow_le_pow_right (by omega) (by omega)
    rw [hhigh, decide_eq_false (show ¬ q = i by omega), Bool.and_false, Bool.false_and]

/-- The word that is loaded holds the next 64 bits. -/
theorem testBit_read64 (b : Bytes) {k : ℕ} (hk : k < 64) :
    (pakka_sinfl_read64 b).testBit k = (ofBytes b).getD k false := by
  obtain ⟨q, r, hr, rfl⟩ : ∃ q r, r < 8 ∧ k = 8 * q + r :=
    ⟨k / 8, k % 8, Nat.mod_lt _ (by omega), by omega⟩
  have hq : q < 8 := by omega
  have h0 := testBit_byte_shift (b.getD 0 0) 0 q hr
  have h1 := testBit_byte_shift (b.getD 1 0) 1 q hr
  have h2 := testBit_byte_shift (b.getD 2 0) 2 q hr
  have h3 := testBit_byte_shift (b.getD 3 0) 3 q hr
  have h4 := testBit_byte_shift (b.getD 4 0) 4 q hr
  have h5 := testBit_byte_shift (b.getD 5 0) 5 q hr
  have h6 := testBit_byte_shift (b.getD 6 0) 6 q hr
  have h7 := testBit_byte_shift (b.getD 7 0) 7 q hr
  norm_num only [Nat.shiftLeft_zero] at h0 h1 h2 h3 h4 h5 h6 h7
  rw [getD_ofBytes b q hr, pakka_sinfl_read64]
  simp only [Nat.testBit_or, h0, h1, h2, h3, h4, h5, h6, h7]
  interval_cases q <;> simp

/-- Bytes that are missing are zeros, as they are in the stub. -/
theorem read64_stub (b : Bytes) (k : ℕ) :
    pakka_sinfl_read64 (b ++ List.replicate k 0) = pakka_sinfl_read64 b := by
  have hbyte (i : ℕ) : (b ++ List.replicate k 0).getD i 0 = b.getD i 0 := by
    rcases Nat.lt_or_ge i b.length with h | h
    · exact List.getD_append _ _ _ _ h
    · rw [List.getD_append_right _ _ _ _ h, List.getD_eq_default _ _ h]
      rcases Nat.lt_or_ge (i - b.length) k with h' | h'
      · exact List.getD_replicate _ h'
      · exact List.getD_eq_default _ _ (by rw [List.length_replicate]; exact h')
  rw [pakka_sinfl_read64, pakka_sinfl_read64]
  simp only [hbyte]

/-! ## What a reader stands for

`Reading` relates the reader's buffer, count and place to the bits that are left.
-/

/-- The reader over `inp` has the bits `rest` to come. -/
structure Reading (inp : Bytes) (s : Sinfl) (rest : List Bool) : Prop where
  suffix : rest <:+ ofBytes inp
  bits : ∀ j, j < s.bitcnt → s.bitbuf.testBit j = rest.getD j false
  ahead : ∀ j, s.bitbuf.testBit j = true → rest.getD j false = true
  cnt_le : s.bitcnt ≤ 63
  ptr_le : s.bitptr ≤ inp.length
  behind : rest.length - s.bitcnt = 8 * (inp.length - s.bitptr)
  real : 56 ≤ rest.length → s.bitcnt ≤ rest.length
  align : 0 < rest.length → s.bitcnt % 8 = rest.length % 8

section Reading

variable {inp : Bytes} {s : Sinfl} {rest : List Bool}

/-- A stream that is a whole number of bytes from the end. -/
theorem eq_ofBytes_drop {k : ℕ} (h : rest <:+ ofBytes inp) (hlen : rest.length = 8 * k) :
    rest = ofBytes (inp.drop (inp.length - k)) := by
  have hle := h.length_le
  rw [length_ofBytes] at hle
  rw [List.suffix_iff_eq_drop.mp h, length_ofBytes, hlen, ← Nat.mul_sub, ofBytes_drop]

theorem reading_start (inp : Bytes) : Reading inp ⟨0, 0, 0⟩ (ofBytes inp) where
  suffix := List.suffix_refl _
  bits := fun j hj => absurd hj (Nat.not_lt_zero j)
  ahead := by simp
  cnt_le := Nat.zero_le _
  ptr_le := Nat.zero_le _
  behind := by simp
  real := fun _ => Nat.zero_le _
  align := fun _ => by simp

/-- The bits behind the promise are those of the bytes that were not loaded. -/
theorem Reading.drop_eq (h : Reading inp s rest) :
    rest.drop s.bitcnt = ofBytes (inp.drop s.bitptr) := by
  have hlen : (rest.drop s.bitcnt).length = 8 * (inp.length - s.bitptr) := by
    rw [List.length_drop, h.behind]
  rw [eq_ofBytes_drop ((List.drop_suffix _ _).trans h.suffix) hlen]
  have hptr := h.ptr_le
  congr 2
  omega

/-- The word that a refill loads. -/
theorem refill_word (inp : Bytes) (s : Sinfl) :
    (if inp.length - s.bitptr ≥ 8 then pakka_sinfl_read64 (inp.drop s.bitptr)
      else pakka_sinfl_read64 (inp.drop s.bitptr ++ List.replicate (8 - (inp.length - s.bitptr)) 0)) =
      pakka_sinfl_read64 (inp.drop s.bitptr) := by
  split_ifs
  · rfl
  · exact read64_stub _ _

theorem or_56 {b : ℕ} (h : b ≤ 63) : b ||| 56 = b % 8 + 56 := by
  interval_cases b <;> rfl

/-- **A refill promises 56 bits** and leaves the stream as it is. -/
theorem Reading.refill (h : Reading inp s rest) :
    Reading inp (pakka_sinfl_refill inp s) rest ∧ 56 ≤ (pakka_sinfl_refill inp s).bitcnt := by
  have hcnt := h.cnt_le
  have hptr := h.ptr_le
  have hbehind := h.behind
  have hreal := h.real
  have hor := or_56 hcnt
  have hadv : (63 - s.bitcnt) >>> 3 = (63 - s.bitcnt) / 8 := Nat.shiftRight_eq_div_pow _ 3
  have hnew (j : ℕ) (hj : j < 64) (hge : s.bitcnt ≤ j) :
      (pakka_sinfl_read64 (inp.drop s.bitptr)).testBit (j - s.bitcnt) = rest.getD j false := by
    rw [testBit_read64 _ (by omega), ← h.drop_eq, List.getD_eq_getElem?_getD, List.getElem?_drop,
      Nat.add_sub_cancel' hge, ← List.getD_eq_getElem?_getD]
  rw [pakka_sinfl_refill]
  dsimp only
  rw [refill_word, hor, hadv]
  refine ⟨⟨h.suffix, fun j (hj : j < s.bitcnt % 8 + 56) => ?_, fun j hj => ?_, ?_, ?_, ?_, ?_, ?_⟩,
    ?_⟩
  · dsimp only
    rw [Nat.testBit_mod_two_pow, Nat.testBit_or, Nat.testBit_shiftLeft,
      decide_eq_true (show j < 64 by omega), Bool.true_and]
    rcases Nat.lt_or_ge j s.bitcnt with hlt | hge
    · rw [decide_eq_false (show ¬ j ≥ s.bitcnt by omega), Bool.false_and, Bool.or_false, h.bits j hlt]
    · rw [decide_eq_true hge, Bool.true_and, hnew j (by omega) hge]
      -- what was loaded ahead is loaded again
      rcases hold : s.bitbuf.testBit j with _ | _
      · rw [Bool.false_or]
      · rw [Bool.true_or, h.ahead j hold]
  · dsimp only at hj
    rw [Nat.testBit_mod_two_pow, Nat.testBit_or, Nat.testBit_shiftLeft] at hj
    simp only [Bool.and_eq_true, Bool.or_eq_true, decide_eq_true_eq] at hj
    obtain ⟨hlt, hold | ⟨hge, hword⟩⟩ := hj
    · exact h.ahead j hold
    · rwa [hnew j hlt hge] at hword
  · dsimp only
    omega
  · dsimp only
    split_ifs <;> omega
  · dsimp only
    split_ifs <;> omega
  · intro hlen
    have := hreal hlen
    dsimp only
    omega
  · intro hlen
    have := h.align hlen
    dsimp only
    omega
  · omega

/-! ## Taking bits

One lemma for each operation, in the form in which they compose.
-/

/-- The next bits, as a number. -/
theorem Reading.peek (h : Reading inp s rest) {cnt : ℕ} (hcnt : cnt ≤ s.bitcnt) (hle : cnt ≤ 56) :
    pakka_sinfl_peek s cnt = some (toNat rest % 2 ^ cnt) := by
  rw [pakka_sinfl_peek, if_pos ⟨hle, hcnt⟩, Nat.one_shiftLeft, Nat.and_two_pow_sub_one_eq_mod]
  congr 1
  apply Nat.eq_of_testBit_eq
  intro j
  rw [Nat.testBit_mod_two_pow, Nat.testBit_mod_two_pow, testBit_toNat]
  by_cases hj : j < cnt
  · rw [h.bits j (by omega)]
  · rw [decide_eq_false hj, Bool.false_and, Bool.false_and]

theorem Reading.eat (h : Reading inp s rest) {cnt : ℕ} (hcnt : cnt ≤ s.bitcnt) :
    ∃ s', pakka_sinfl_eat s cnt = some s' ∧ Reading inp s' (rest.drop cnt) ∧
      s'.bitcnt = s.bitcnt - cnt := by
  have hle := h.cnt_le
  have hbehind := h.behind
  have hreal := h.real
  have hget (j : ℕ) : (rest.drop cnt).getD j false = rest.getD (cnt + j) false := by
    rw [List.getD_eq_getElem?_getD, List.getElem?_drop, ← List.getD_eq_getElem?_getD]
  refine ⟨_, if_pos hcnt, ⟨(List.drop_suffix _ _).trans h.suffix, fun j hj => ?_, fun j hj => ?_, ?_,
    h.ptr_le, ?_, ?_, ?_⟩, rfl⟩
  · dsimp only at hj ⊢
    rw [Nat.testBit_shiftRight, hget, h.bits _ (by omega)]
  · rw [Nat.testBit_shiftRight] at hj
    rw [hget, h.ahead _ hj]
  · dsimp only
    omega
  · rw [List.length_drop]
    dsimp only
    omega
  · rw [List.length_drop]
    dsimp only
    omega
  · intro hlen
    rw [List.length_drop] at hlen ⊢
    have := h.align (by omega)
    dsimp only
    omega

/-- **A field of the stream.** -/
theorem Reading.get {v cnt : ℕ} (h : Reading inp s (ofNat v cnt ++ rest)) (hv : v < 2 ^ cnt)
    (hcnt : cnt ≤ s.bitcnt) (hle : cnt ≤ 56) :
    ∃ s', pakka_sinfl__get s cnt = some (v, s') ∧ Reading inp s' rest ∧
      s'.bitcnt = s.bitcnt - cnt := by
  obtain ⟨hfield, hdrop⟩ := toNat_field hv rest
  obtain ⟨s', heat, hread, hleft⟩ := h.eat hcnt
  rw [hdrop] at hread
  refine ⟨s', ?_, hread, hleft⟩
  rw [pakka_sinfl__get, h.peek hcnt hle, heat, hfield]
  rfl

/-- A field after a refill. -/
theorem Reading.refill_get {v cnt : ℕ} (h : Reading inp s (ofNat v cnt ++ rest)) (hv : v < 2 ^ cnt)
    (hle : cnt ≤ 56) :
    ∃ s', pakka_sinfl_get inp s cnt = some (v, s') ∧ Reading inp s' rest ∧ 56 - cnt ≤ s'.bitcnt := by
  obtain ⟨hread, hcnt⟩ := h.refill
  obtain ⟨s', hget, hread', hleft⟩ := hread.get hv (by omega) hle
  exact ⟨s', hget, hread', by omega⟩

end Reading

end Pakka
