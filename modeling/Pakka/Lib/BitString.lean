/-
Bit strings, least bit first, and the numbers they spell.

A bit string read as a number has zeros behind its end, so a number is also a bit string with
no end: taking bits from the front is a remainder, dropping them a quotient. Reversing the low
bits of a number is the other reading of a word, highest bit first.

A DEFLATE stream is read bit by bit and written field by field, and both ends keep some bits in a
word. So most of the lemmas are about moving between the two views: what a field of a number is as a
list, and what a part of a list is as a number. Codes are written with their bits reversed, which is
why reversal has lemmas of its own.
-/
import Pakka.Lib.ByteImage
import Mathlib.Data.List.GetD
import Mathlib.Data.Nat.Bitwise
import Mathlib.Tactic.Ring

set_option autoImplicit false

namespace BitString

open ByteImage

/-! ## Strings and numbers

The two directions and what they do to sums and joins.
-/

/-- The low `k` bits of a number. -/
def ofNat : ℕ → ℕ → List Bool
  | _, 0 => []
  | n, k + 1 => (n % 2 = 1) :: ofNat (n / 2) k

/-- The number that a string spells. -/
def toNat : List Bool → ℕ
  | [] => 0
  | b :: bs => b.toNat + 2 * toNat bs

@[simp] theorem ofNat_zero (n : ℕ) : ofNat n 0 = [] := rfl

theorem ofNat_succ (n k : ℕ) : ofNat n (k + 1) = (n % 2 = 1 : Bool) :: ofNat (n / 2) k := rfl

@[simp] theorem toNat_nil : toNat [] = 0 := rfl

@[simp] theorem toNat_cons (b : Bool) (bs : List Bool) :
    toNat (b :: bs) = b.toNat + 2 * toNat bs := rfl

@[simp] theorem length_ofNat (n k : ℕ) : (ofNat n k).length = k := by
  induction k generalizing n with
  | zero => rfl
  | succ k ih => rw [ofNat_succ, List.length_cons, ih]

theorem toNat_lt (bs : List Bool) : toNat bs < 2 ^ bs.length := by
  induction bs with
  | nil => simp
  | cons b bs ih =>
    have hb := Bool.toNat_le b
    rw [toNat_cons, List.length_cons, pow_succ]
    omega

theorem toNat_append (as bs : List Bool) :
    toNat (as ++ bs) = toNat as + 2 ^ as.length * toNat bs := by
  induction as with
  | nil => simp
  | cons a as ih =>
    rw [List.cons_append, toNat_cons, ih, toNat_cons, List.length_cons, pow_succ]
    ring

theorem toNat_ofNat (n k : ℕ) : toNat (ofNat n k) = n % 2 ^ k := by
  induction k generalizing n with
  | zero => simp [Nat.mod_one]
  | succ k ih =>
    have hbit : (decide (n % 2 = 1)).toNat = n % 2 := by
      rcases Nat.mod_two_eq_zero_or_one n with h | h <;> simp [h]
    rw [ofNat_succ, toNat_cons, ih, hbit, pow_succ, Nat.mul_comm (2 ^ k) 2, Nat.mod_mul]

theorem toNat_ofNat_lt {n k : ℕ} (h : n < 2 ^ k) : toNat (ofNat n k) = n := by
  rw [toNat_ofNat, Nat.mod_eq_of_lt h]

/-- A string is known from its length and its number. -/
theorem eq_of_toNat_eq {as bs : List Bool} (hlen : as.length = bs.length)
    (h : toNat as = toNat bs) : as = bs := by
  induction as generalizing bs with
  | nil =>
    rw [List.length_nil, eq_comm, List.length_eq_zero_iff] at hlen
    rw [hlen]
  | cons a as ih =>
    cases bs with
    | nil => simp at hlen
    | cons b bs =>
      rw [toNat_cons, toNat_cons] at h
      rw [List.length_cons, List.length_cons, Nat.add_right_cancel_iff] at hlen
      have hhead : a = b := by
        cases a <;> cases b <;> simp only [Bool.toNat_true, Bool.toNat_false] at h <;>
          first | rfl | omega
      rw [hhead, ih hlen (by rw [hhead] at h; omega)]

theorem ofNat_toNat (bs : List Bool) : ofNat (toNat bs) bs.length = bs :=
  eq_of_toNat_eq (length_ofNat _ _) (toNat_ofNat_lt (toNat_lt bs))

/-- Two numbers put side by side. -/
theorem ofNat_append {a j : ℕ} (b k : ℕ) (ha : a < 2 ^ j) :
    ofNat a j ++ ofNat b k = ofNat (a + 2 ^ j * b) (j + k) := by
  apply eq_of_toNat_eq
  · simp
  · rw [toNat_append, toNat_ofNat_lt ha, length_ofNat, toNat_ofNat, toNat_ofNat, pow_add,
      Nat.mod_mul, Nat.add_mul_mod_self_left, Nat.mod_eq_of_lt ha,
      Nat.add_mul_div_left _ _ (Nat.two_pow_pos j), Nat.div_eq_of_lt ha, Nat.zero_add]

theorem ofNat_mod (n k : ℕ) : ofNat (n % 2 ^ k) k = ofNat n k := by
  apply eq_of_toNat_eq
  · simp
  · rw [toNat_ofNat, toNat_ofNat, Nat.mod_mod]

theorem ofNat_add (n j k : ℕ) : ofNat n (j + k) = ofNat n j ++ ofNat (n / 2 ^ j) k := by
  rw [← ofNat_mod n j, ofNat_append _ _ (Nat.mod_lt _ (Nat.two_pow_pos j)), Nat.mod_add_div]

@[simp] theorem ofNat_of_zero (k : ℕ) : ofNat 0 k = List.replicate k false := by
  induction k with
  | zero => rfl
  | succ k ih => rw [ofNat_succ, Nat.zero_div, ih, List.replicate_succ]; rfl

/-! ## The front of a string

Fields are remainders of quotients.
-/

theorem toNat_drop (bs : List Bool) (k : ℕ) : toNat (bs.drop k) = toNat bs / 2 ^ k := by
  rcases Nat.le_total k bs.length with h | h
  · have hlen : (bs.take k).length = k := List.length_take_of_le h
    have hlt := toNat_lt (bs.take k)
    rw [hlen] at hlt
    have happ := toNat_append (bs.take k) (bs.drop k)
    rw [List.take_append_drop, hlen] at happ
    rw [happ, Nat.add_mul_div_left _ _ (Nat.two_pow_pos k), Nat.div_eq_of_lt hlt, Nat.zero_add]
  · rw [List.drop_eq_nil_of_le h, toNat_nil,
      Nat.div_eq_of_lt (lt_of_lt_of_le (toNat_lt bs) (Nat.pow_le_pow_right (by decide) h))]

/-- Reading a field that stands at the front. -/
theorem toNat_field {n k : ℕ} (h : n < 2 ^ k) (rest : List Bool) :
    toNat (ofNat n k ++ rest) % 2 ^ k = n ∧ (ofNat n k ++ rest).drop k = rest := by
  constructor
  · rw [toNat_append, toNat_ofNat_lt h, length_ofNat, Nat.add_mul_mod_self_left,
      Nat.mod_eq_of_lt h]
  · rw [List.drop_append_of_le_length (by simp), List.drop_eq_nil_of_le (by simp), List.nil_append]

theorem testBit_toNat (bs : List Bool) (j : ℕ) : (toNat bs).testBit j = bs.getD j false := by
  induction bs generalizing j with
  | nil => simp
  | cons b bs ih =>
    cases j with
    | zero =>
      rw [toNat_cons, Nat.testBit_zero, List.getD_cons_zero, Nat.add_mul_mod_self_left]
      cases b <;> rfl
    | succ j =>
      have hdiv : (b.toNat + 2 * toNat bs) / 2 = toNat bs := by
        have hb := Bool.toNat_le b
        have hlt := Bool.toNat_lt b
        omega
      rw [toNat_cons, Nat.testBit_succ, hdiv, ih, List.getD_cons_succ]

/-! ## Reversal

Of the low bits of a number, with the increment it turns the usual one into.
-/

/-- The low `k` bits of a number, read from the highest down. -/
def rev (k n : ℕ) : ℕ := toNat (ofNat n k).reverse

theorem rev_lt (k n : ℕ) : rev k n < 2 ^ k := by
  have h := toNat_lt (ofNat n k).reverse
  rwa [List.length_reverse, length_ofNat] at h

@[simp] theorem rev_zero (n : ℕ) : rev 0 n = 0 := rfl

theorem ofNat_rev (k n : ℕ) : ofNat (rev k n) k = (ofNat n k).reverse := by
  have h := ofNat_toNat (ofNat n k).reverse
  rwa [List.length_reverse, length_ofNat] at h

theorem rev_rev {k n : ℕ} (h : n < 2 ^ k) : rev k (rev k n) = n := by
  rw [rev, ofNat_rev, List.reverse_reverse, toNat_ofNat_lt h]

theorem rev_inj {k m n : ℕ} (hm : m < 2 ^ k) (hn : n < 2 ^ k) (h : rev k m = rev k n) : m = n := by
  rw [← rev_rev hm, h, rev_rev hn]

/-- The first bits of a reversed number are its highest. -/
theorem rev_mod (j k n : ℕ) : rev (j + k) n % 2 ^ k = rev k (n / 2 ^ j) := by
  rw [rev, ofNat_add, List.reverse_append, toNat_append, List.length_reverse, length_ofNat,
    Nat.add_mul_mod_self_left, ← rev, Nat.mod_eq_of_lt (rev_lt k _)]

theorem rev_succ (k n : ℕ) : rev (k + 1) n = rev k (n / 2) + 2 ^ k * (n % 2) := by
  have hbit : toNat [(n % 2 = 1 : Bool)] = n % 2 := by
    rcases Nat.mod_two_eq_zero_or_one n with h | h <;> simp [h]
  rw [rev, ofNat_succ, List.reverse_cons, toNat_append, List.length_reverse, length_ofNat, hbit]
  rfl

/-- Low zeros of a number are high zeros of its reversal. -/
theorem rev_mul_two_pow (j k n : ℕ) : rev (j + k) (n * 2 ^ j) = rev k n := by
  induction j with
  | zero => simp
  | succ j ih =>
    have hmul : n * 2 ^ (j + 1) = 2 * (n * 2 ^ j) := by rw [pow_succ]; ring
    rw [show j + 1 + k = j + k + 1 by omega, rev_succ, hmul, Nat.mul_div_cancel_left _ (by decide),
      Nat.mul_mod_right, ih, Nat.mul_zero, Nat.add_zero]

theorem rev_ones (k : ℕ) : rev k (2 ^ k - 1) = 2 ^ k - 1 := by
  induction k with
  | zero => rfl
  | succ k ih =>
    have hpos := Nat.two_pow_pos k
    have hdiv : (2 ^ (k + 1) - 1) / 2 = 2 ^ k - 1 := by rw [pow_succ]; omega
    have hmod : (2 ^ (k + 1) - 1) % 2 = 1 := by rw [pow_succ]; omega
    rw [rev_succ, hdiv, hmod, ih, pow_succ]
    omega

/-- Flipping the low bits of a number that has no others. -/
theorem xor_ones {k w : ℕ} (h : w < 2 ^ k) : w ^^^ (2 ^ k - 1) = 2 ^ k - 1 - w := by
  apply Nat.eq_of_testBit_eq
  intro i
  rw [show 2 ^ k - 1 - w = 2 ^ k - (w + 1) by omega, Nat.testBit_two_pow_sub_succ h,
    Nat.testBit_xor, Nat.testBit_two_pow_sub_one]
  by_cases hi : i < k
  · simp [hi]
  · have hw : w.testBit i = false :=
      Nat.testBit_eq_false_of_lt (lt_of_lt_of_le h (Nat.pow_le_pow_right (by decide) (by omega)))
    simp [hi, hw]

/-- **Counting up in reverse.** The reversal of the next number keeps the bits below the highest
zero, has that bit, and nothing above it. -/
theorem rev_next {k c : ℕ} (h : c + 1 < 2 ^ k) :
    rev k c % 2 ^ (2 ^ k - 1 - rev k c).log2 + 2 ^ (2 ^ k - 1 - rev k c).log2 = rev k (c + 1) := by
  induction k generalizing c with
  | zero => simp at h
  | succ k ih =>
    have hpow : 2 ^ (k + 1) = 2 * 2 ^ k := by rw [pow_succ]; ring
    have hlow := rev_lt k (c / 2)
    rcases Nat.mod_two_eq_zero_or_one c with hc | hc
    · -- the highest bit is free
      have hdiv : (c + 1) / 2 = c / 2 := by omega
      have hmod : (c + 1) % 2 = 1 := by omega
      have hlog : (2 ^ (k + 1) - 1 - rev k (c / 2)).log2 = k := by
        rw [Nat.log2_eq_iff (by omega)]
        omega
      rw [rev_succ, rev_succ, hdiv, hmod, hc, Nat.mul_zero, Nat.add_zero, Nat.mul_one, hlog,
        Nat.mod_eq_of_lt hlow]
    · -- it is taken, and the carry goes on below it
      have hdiv : (c + 1) / 2 = c / 2 + 1 := by omega
      have hmod : (c + 1) % 2 = 0 := by omega
      have hsub : 2 ^ (k + 1) - 1 - (rev k (c / 2) + 2 ^ k * 1) = 2 ^ k - 1 - rev k (c / 2) := by
        omega
      have hnext := ih (c := c / 2) (by omega)
      have hne : 2 ^ k - 1 - rev k (c / 2) ≠ 0 := by
        intro hz
        have hones : rev k (c / 2) = rev k (2 ^ k - 1) := by rw [rev_ones]; omega
        have := rev_inj (by omega) (by omega) hones
        omega
      have hlog : (2 ^ k - 1 - rev k (c / 2)).log2 < k := by
        rw [Nat.log2_lt hne]
        omega
      have hdvd : 2 ^ (2 ^ k - 1 - rev k (c / 2)).log2 ∣ 2 ^ k * 1 := by
        rw [Nat.mul_one]
        exact Nat.pow_dvd_pow 2 (le_of_lt hlog)
      rw [rev_succ, rev_succ, hdiv, hmod, hc, hsub, Nat.mul_zero, Nat.add_zero, ← hnext]
      congr 1
      obtain ⟨q, hq⟩ := hdvd
      rw [hq, Nat.add_mul_mod_self_left]

/-! ## Bytes

A byte string as the bits of its bytes.
-/

/-- The bits of some bytes, each with its lowest first. -/
def ofBytes (bs : Bytes) : List Bool := bs.flatMap fun b => ofNat b.toNat 8

@[simp] theorem ofBytes_nil : ofBytes [] = [] := rfl

theorem ofBytes_cons (b : UInt8) (bs : Bytes) :
    ofBytes (b :: bs) = ofNat b.toNat 8 ++ ofBytes bs := rfl

theorem ofBytes_append (as bs : Bytes) : ofBytes (as ++ bs) = ofBytes as ++ ofBytes bs :=
  List.flatMap_append

@[simp] theorem length_ofBytes (bs : Bytes) : (ofBytes bs).length = 8 * bs.length := by
  induction bs with
  | nil => rfl
  | cons b bs ih =>
    rw [ofBytes_cons, List.length_append, length_ofNat, ih, List.length_cons]
    omega

theorem ofBytes_drop (bs : Bytes) (k : ℕ) : (ofBytes bs).drop (8 * k) = ofBytes (bs.drop k) := by
  rcases Nat.le_total k bs.length with h | h
  · have happ : ofBytes bs = ofBytes (bs.take k) ++ ofBytes (bs.drop k) := by
      rw [← ofBytes_append, List.take_append_drop]
    have hlen : (ofBytes (bs.take k)).length = 8 * k := by
      rw [length_ofBytes, List.length_take_of_le h]
    rw [happ, ← hlen, List.drop_left]
  · rw [List.drop_eq_nil_of_le h, List.drop_eq_nil_of_le (by rw [length_ofBytes]; omega),
      ofBytes_nil]

theorem ofBytes_inj {as bs : Bytes} (h : ofBytes as = ofBytes bs) : as = bs := by
  induction as generalizing bs with
  | nil =>
    have hlen := congrArg List.length h
    rw [length_ofBytes, length_ofBytes] at hlen
    exact (List.length_eq_zero_iff.mp (by simpa using hlen.symm)).symm
  | cons a as ih =>
    cases bs with
    | nil => simpa using congrArg List.length h
    | cons b bs =>
      rw [ofBytes_cons, ofBytes_cons] at h
      obtain ⟨hab, hrest⟩ := List.append_inj h (by simp)
      have hnum : a.toNat = b.toNat := by
        have hn := congrArg toNat hab
        rwa [toNat_ofNat_lt a.toNat_lt, toNat_ofNat_lt b.toNat_lt] at hn
      rw [UInt8.toNat_inj.mp hnum, ih hrest]

end BitString
