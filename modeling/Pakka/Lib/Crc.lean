/-
Reflected cyclic redundancy checks: the shift register that takes a message bit by bit, and its
implementation by a table that takes a byte at a time.

`feed` is the definition: the register moves one place, and the polynomial is added when the bit
that falls out differs from the message's. Without a message `shift` is linear, so message bits may
as well be added beforehand, and eight places at once are a table entry for the low byte and the
other bytes moved down.

Width and polynomial are parameters. The linearity of the register is what makes the table work: the
eight moves for a byte can be done at once for the byte that falls out, and the rest of the register
is only shifted.
-/
import Mathlib.Data.List.Basic

set_option autoImplicit false

namespace Crc

variable {w : ℕ} (poly : BitVec w)

/-- One message bit. -/
def feed (reg : BitVec w) (b : Bool) : BitVec w :=
  if xor (reg.getLsbD 0) b then (reg >>> 1) ^^^ poly else reg >>> 1

/-- The low `n` bits of a byte, the lowest first. -/
def feedBits (c : BitVec 8) : ℕ → BitVec w → BitVec w
  | 0, reg => reg
  | n + 1, reg => feed poly (feedBits c n reg) (c.getLsbD n)

/-- A byte. -/
def feedByte (reg : BitVec w) (c : BitVec 8) : BitVec w := feedBits poly c 8 reg

/-- A step of the register without a message. -/
def shift (reg : BitVec w) : BitVec w := feed poly reg false

/-- `n` steps without a message. -/
def shifts : ℕ → BitVec w → BitVec w
  | 0, reg => reg
  | n + 1, reg => shift poly (shifts n reg)

/-! ## Linearity

The register is a vector of bits, and moving it is linear.
-/

theorem shift_xor (x y : BitVec w) : shift poly (x ^^^ y) = shift poly x ^^^ shift poly y := by
  unfold shift feed
  simp only [BitVec.getLsbD_xor, BitVec.ushiftRight_xor_distrib, Bool.xor_false]
  have hswap : ∀ a b p : BitVec w, a ^^^ b ^^^ p = a ^^^ (b ^^^ p) := BitVec.xor_assoc
  have hcancel : ∀ a b : BitVec w, a ^^^ b = a ^^^ poly ^^^ (b ^^^ poly) := by
    intro a b
    rw [BitVec.xor_comm b poly, BitVec.xor_assoc a poly, ← BitVec.xor_assoc poly poly,
      BitVec.xor_self, BitVec.zero_xor]
  cases x.getLsbD 0 <;> cases y.getLsbD 0
  · rfl
  · exact hswap _ _ _
  · show (x >>> 1) ^^^ (y >>> 1) ^^^ poly = (x >>> 1) ^^^ poly ^^^ (y >>> 1)
    rw [BitVec.xor_assoc, BitVec.xor_comm (y >>> 1), ← BitVec.xor_assoc]
  · exact hcancel _ _

theorem shifts_xor (n : ℕ) (x y : BitVec w) :
    shifts poly n (x ^^^ y) = shifts poly n x ^^^ shifts poly n y := by
  induction n with
  | zero => rfl
  | succ n ih => rw [shifts, shifts, shifts, ih, shift_xor]

/-- A register whose low bits are clear just moves down. -/
theorem shifts_of_low_clear {x : BitVec w} {n : ℕ} (h : ∀ i < n, x.getLsbD i = false) :
    shifts poly n x = x >>> n := by
  induction n with
  | zero => rw [shifts, BitVec.ushiftRight_zero]
  | succ n ih =>
    have hlow : (x >>> n).getLsbD 0 = false := by
      rw [BitVec.getLsbD_ushiftRight]
      exact h n (Nat.lt_succ_self n)
    rw [shifts, ih fun i hi => h i (Nat.lt_succ_of_lt hi), shift, feed, hlow,
      BitVec.shiftRight_add]
    rfl

/-! ## Messages beforehand

A byte of the message can be added to the register before it moves.
-/

/-- A message bit is one at the bottom of the register. -/
theorem feed_eq_shift (hw : 0 < w) (reg : BitVec w) (b : Bool) :
    feed poly reg b = shift poly (reg ^^^ (BitVec.ofBool b).setWidth w) := by
  unfold shift feed
  have hbit : ((BitVec.ofBool b).setWidth w).getLsbD 0 = b := by
    rw [BitVec.getLsbD_setWidth]
    simp [hw]
  have hgone : ((BitVec.ofBool b).setWidth w) >>> 1 = 0#w := by
    apply BitVec.eq_of_getLsbD_eq
    intro i hi
    rw [BitVec.getLsbD_ushiftRight, BitVec.getLsbD_setWidth, BitVec.getLsbD_of_ge _ _ (by omega)]
    simp
  rw [BitVec.getLsbD_xor, hbit, BitVec.ushiftRight_xor_distrib, hgone, BitVec.xor_zero,
    Bool.xor_false]

/-- The low `n` bits of a byte, in a register. -/
def low (w : ℕ) (c : BitVec 8) (n : ℕ) : BitVec w := (c.setWidth n).setWidth w

theorem getLsbD_low {c : BitVec 8} {n i : ℕ} (hi : i < w) :
    (low w c n).getLsbD i = (decide (i < n) && c.getLsbD i) := by
  rw [low, BitVec.getLsbD_setWidth, BitVec.getLsbD_setWidth]
  simp [hi]

/-- **The bits of a byte** can be added to the register before it moves. -/
theorem feedBits_eq_shifts (c : BitVec 8) {n : ℕ} (hn : n ≤ w) (reg : BitVec w) :
    feedBits poly c n reg = shifts poly n (reg ^^^ low w c n) := by
  induction n with
  | zero =>
    have hlow : low w c 0 = 0#w := by
      apply BitVec.eq_of_getLsbD_eq
      intro i hi
      simp [getLsbD_low hi]
    rw [feedBits, shifts, hlow, BitVec.xor_zero]
  | succ n ih =>
    -- the next bit has `n` places to go before it is at the bottom
    have hbit : shifts poly n ((BitVec.ofBool (c.getLsbD n)).setWidth w <<< n) =
        (BitVec.ofBool (c.getLsbD n)).setWidth w := by
      rw [shifts_of_low_clear]
      · apply BitVec.eq_of_getLsbD_eq
        intro i hi
        rw [BitVec.getLsbD_ushiftRight, BitVec.getLsbD_shiftLeft, BitVec.getLsbD_setWidth,
          BitVec.getLsbD_setWidth, BitVec.getLsbD_ofBool, BitVec.getLsbD_ofBool]
        by_cases hz : i = 0
        · subst hz
          simp only [Nat.add_zero, Nat.lt_irrefl, decide_false, Bool.not_false, Nat.sub_self,
            decide_true, Bool.true_and]
          simp only [show n < w by omega, show 0 < w by omega, decide_true, Bool.true_and]
        · simp [hz]
      · intro i hi
        simp [BitVec.getLsbD_shiftLeft, hi]
    have hnext : low w c (n + 1) =
        low w c n ^^^ (BitVec.ofBool (c.getLsbD n)).setWidth w <<< n := by
      apply BitVec.eq_of_getLsbD_eq
      intro i hi
      rw [getLsbD_low hi, BitVec.getLsbD_xor, getLsbD_low hi, BitVec.getLsbD_shiftLeft,
        BitVec.getLsbD_setWidth, BitVec.getLsbD_ofBool]
      rcases Nat.lt_trichotomy i n with hlt | heq | hgt
      · simp [hlt, Nat.lt_succ_of_lt hlt]
      · subst heq
        simp [hi]
        omega
      · simp [show ¬ i < n by omega, show ¬ i < n + 1 by omega, show i - n ≠ 0 by omega]
    rw [feedBits, ih (by omega), feed_eq_shift poly (by omega), hnext, ← BitVec.xor_assoc,
      shifts, shifts_xor poly n (reg ^^^ low w c n), hbit]

/-! ## Tables

Eight moves, by a table over bytes.
-/

/-- A byte in a register. -/
theorem low_eight (c : BitVec 8) : low w c 8 = c.setWidth w := by
  rw [low, BitVec.setWidth_eq]

/-- **A byte at a time.** `table` holds for every byte what eight steps make of it; then a message
byte picks an entry by the low byte of the register, and the other bytes move down. -/
theorem feedByte_eq_table (hw : 8 ≤ w) {table : BitVec 8 → BitVec w}
    (htable : ∀ i, table i = shifts poly 8 (i.setWidth w)) (reg : BitVec w) (c : BitVec 8) :
    feedByte poly reg c =
      table ((reg ^^^ c.setWidth w).setWidth 8) ^^^ (reg >>> 8) := by
  have hsplit : reg ^^^ c.setWidth w =
      (((reg ^^^ c.setWidth w).setWidth 8).setWidth w) ^^^ (reg >>> 8) <<< 8 := by
    apply BitVec.eq_of_getLsbD_eq
    intro i hi
    rw [BitVec.getLsbD_xor, BitVec.getLsbD_xor, BitVec.getLsbD_setWidth, BitVec.getLsbD_setWidth,
      BitVec.getLsbD_setWidth, BitVec.getLsbD_xor, BitVec.getLsbD_setWidth,
      BitVec.getLsbD_shiftLeft, BitVec.getLsbD_ushiftRight]
    by_cases h8 : i < 8
    · simp [hi, h8]
    · have hc : c.getLsbD i = false := BitVec.getLsbD_of_ge _ _ (by omega)
      simp [hi, h8, hc, show 8 + (i - 8) = i by omega]
  have hhigh : shifts poly 8 ((reg >>> 8) <<< 8) = reg >>> 8 := by
    rw [shifts_of_low_clear]
    · apply BitVec.eq_of_getLsbD_eq
      intro i hi
      rw [BitVec.getLsbD_ushiftRight, BitVec.getLsbD_shiftLeft, BitVec.getLsbD_ushiftRight]
      by_cases hin : 8 + i < w
      · simp [hin]
      · have htop : reg.getLsbD (8 + i) = false := BitVec.getLsbD_of_ge _ _ (by omega)
        simp [hin, htop]
    · intro i hi
      simp [BitVec.getLsbD_shiftLeft, hi]
  calc feedByte poly reg c = shifts poly 8 (reg ^^^ c.setWidth w) := by
        rw [feedByte, feedBits_eq_shifts poly c hw, low_eight]
    _ = shifts poly 8 ((((reg ^^^ c.setWidth w).setWidth 8).setWidth w) ^^^ (reg >>> 8) <<< 8) :=
        congrArg _ hsplit
    _ = table ((reg ^^^ c.setWidth w).setWidth 8) ^^^ (reg >>> 8) := by
        rw [shifts_xor, hhigh, htable]

/-- A message. -/
def feedBytes (reg : BitVec w) (bs : List (BitVec 8)) : BitVec w := bs.foldl (feedByte poly) reg

end Crc
