/-
Little-endian words of two and four bytes, written and read with shifts and
masks as portable C does it, and the round trip of each.

Reading is total: a list that is too short reads as zero. Callers that need the
distinction read the bytes with `ByteImage.readExact` first.

The lemmas are stated for a word with anything behind it, which is the form a header is read in.

Both directions are stated on machine words, so that a caller need not leave them. What is read
depends on the first bytes only, and this is stated as well, because headers are read out of longer
buffers.
-/
import Pakka.Lib.ByteImage
import Mathlib.Data.Nat.Bitwise

set_option autoImplicit false

namespace LittleEndian

open ByteImage

/-! ## Writing and reading

With the lengths of what is written.
-/

/-- The four bytes of a word, low byte first. -/
def put32 (v : UInt32) : Bytes :=
  [v.toUInt8, (v >>> 8).toUInt8, (v >>> 16).toUInt8, (v >>> 24).toUInt8]

/-- The two bytes of a half word, low byte first. -/
def put16 (v : UInt16) : Bytes := [v.toUInt8, (v >>> 8).toUInt8]

/-- The word that four bytes spell. -/
def get32 : Bytes → UInt32
  | b0 :: b1 :: b2 :: b3 :: _ =>
    b0.toUInt32 ||| (b1.toUInt32 <<< 8) ||| (b2.toUInt32 <<< 16) ||| (b3.toUInt32 <<< 24)
  | _ => 0

/-- The half word that two bytes spell. -/
def get16 : Bytes → UInt16
  | b0 :: b1 :: _ => b0.toUInt16 ||| (b1.toUInt16 <<< 8)
  | _ => 0

@[simp] theorem length_put16 (v : UInt16) : (put16 v).length = 2 := rfl

@[simp] theorem length_put32 (v : UInt32) : (put32 v).length = 4 := rfl

theorem drop_put32 (v : UInt32) {n : ℕ} (h : 4 ≤ n) : (put32 v).drop n = [] :=
  List.drop_eq_nil_of_le h

theorem drop_put16 (v : UInt16) {n : ℕ} (h : 2 ≤ n) : (put16 v).drop n = [] :=
  List.drop_eq_nil_of_le h

/-! ## Round trips

Splitting into bytes and putting together again, on machine words.
-/

/-- A number below `2^16` is its low byte and its high byte put together. -/
private theorem reassemble16 (n : ℕ) (h : n < 2 ^ 16) :
    n % 2 ^ 8 ||| (((n >>> 8) % 2 ^ 8) <<< 8) % 2 ^ 16 = n := by
  apply Nat.eq_of_testBit_eq
  intro i
  simp only [Nat.testBit_or, Nat.testBit_mod_two_pow, Nat.testBit_shiftLeft,
    Nat.testBit_shiftRight]
  rcases Nat.lt_or_ge i 8 with h8 | h8
  · simp [h8, show ¬ 8 ≤ i by omega]
  rcases Nat.lt_or_ge i 16 with h16 | h16
  · have hi : 8 + (i - 8) = i := by omega
    simp [h8, h16, hi, show ¬ i < 8 by omega, show i - 8 < 8 by omega]
  · have hn : n.testBit i = false :=
      Nat.testBit_eq_false_of_lt (lt_of_lt_of_le h (Nat.pow_le_pow_right (by decide) h16))
    simp [hn, show ¬ i < 16 by omega]

/-- A number below `2^32` is its four bytes put together. -/
private theorem reassemble32 (n : ℕ) (h : n < 2 ^ 32) :
    n % 2 ^ 8 ||| (((n >>> 8) % 2 ^ 8) <<< 8) % 2 ^ 32 |||
      (((n >>> 16) % 2 ^ 8) <<< 16) % 2 ^ 32 ||| (((n >>> 24) % 2 ^ 8) <<< 24) % 2 ^ 32 = n := by
  apply Nat.eq_of_testBit_eq
  intro i
  simp only [Nat.testBit_or, Nat.testBit_mod_two_pow, Nat.testBit_shiftLeft,
    Nat.testBit_shiftRight]
  -- each bit belongs to exactly one of the four bytes
  rcases Nat.lt_or_ge i 8 with h8 | h8
  · simp [h8, show ¬ 8 ≤ i by omega, show ¬ 16 ≤ i by omega, show ¬ 24 ≤ i by omega]
  rcases Nat.lt_or_ge i 16 with h16 | h16
  · have hi : 8 + (i - 8) = i := by omega
    simp [h8, hi, show ¬ i < 8 by omega, show i < 32 by omega, show i - 8 < 8 by omega,
      show ¬ 16 ≤ i by omega, show ¬ 24 ≤ i by omega]
  rcases Nat.lt_or_ge i 24 with h24 | h24
  · have hi : 16 + (i - 16) = i := by omega
    simp [h16, hi, show ¬ i < 8 by omega, show i < 32 by omega, show ¬ i - 8 < 8 by omega,
      show i - 16 < 8 by omega, show ¬ 24 ≤ i by omega]
  rcases Nat.lt_or_ge i 32 with h32 | h32
  · have hi : 24 + (i - 24) = i := by omega
    simp [h24, h32, hi, show ¬ i < 8 by omega, show ¬ i - 8 < 8 by omega,
      show ¬ i - 16 < 8 by omega, show i - 24 < 8 by omega]
  · have hn : n.testBit i = false :=
      Nat.testBit_eq_false_of_lt (lt_of_lt_of_le h (Nat.pow_le_pow_right (by decide) h32))
    simp [hn, show ¬ i < 32 by omega, show ¬ i < 8 by omega]

/-- **A word reads back**, whatever follows it. -/
@[simp] theorem get32_put32_append (v : UInt32) (rest : Bytes) :
    get32 (put32 v ++ rest) = v := by
  simp only [put32, get32, List.cons_append, List.nil_append]
  apply UInt32.toNat_inj.mp
  simp only [UInt32.toNat_or, UInt32.toNat_shiftLeft, UInt8.toNat_toUInt32,
    UInt32.toNat_toUInt8, UInt32.toNat_shiftRight]
  exact reassemble32 v.toNat (UInt32.toNat_lt v)

/-- **A half word reads back**, whatever follows it. -/
@[simp] theorem get16_put16_append (v : UInt16) (rest : Bytes) :
    get16 (put16 v ++ rest) = v := by
  simp only [put16, get16, List.cons_append, List.nil_append]
  apply UInt16.toNat_inj.mp
  simp only [UInt16.toNat_or, UInt16.toNat_shiftLeft, UInt8.toNat_toUInt16,
    UInt16.toNat_toUInt8, UInt16.toNat_shiftRight]
  exact reassemble16 v.toNat (UInt16.toNat_lt v)

@[simp] theorem get32_put32 (v : UInt32) : get32 (put32 v) = v := by
  have h := get32_put32_append v []
  rwa [List.append_nil] at h

@[simp] theorem get16_put16 (v : UInt16) : get16 (put16 v) = v := by
  have h := get16_put16_append v []
  rwa [List.append_nil] at h

/-! ## Only the bytes of the word count

What is behind the word may differ.
-/

/-- A word is read from its first four bytes. -/
theorem get32_take {l : Bytes} {n : ℕ} (h : 4 ≤ n) : get32 (l.take n) = get32 l := by
  obtain ⟨m, rfl⟩ := Nat.exists_eq_add_of_le h
  rw [Nat.add_comm]
  match l with
  | [] => rfl
  | [_] => rfl
  | [_, _] => rfl
  | [_, _, _] => rfl
  | _ :: _ :: _ :: _ :: _ => rfl

/-- A half word is read from its first two bytes. -/
theorem get16_take {l : Bytes} {n : ℕ} (h : 2 ≤ n) : get16 (l.take n) = get16 l := by
  obtain ⟨m, rfl⟩ := Nat.exists_eq_add_of_le h
  rw [Nat.add_comm]
  match l with
  | [] => rfl
  | [_] => rfl
  | _ :: _ :: _ => rfl

/-- A word inside a range is the word at that place of the file. -/
theorem get32_drop_slice {f : Bytes} {off n i : ℕ} (h : i + 4 ≤ n) :
    get32 ((slice f off n).drop i) = get32 (f.drop (off + i)) := by
  unfold slice
  rw [List.drop_take, List.drop_drop, get32_take (by omega)]

theorem get16_drop_slice {f : Bytes} {off n i : ℕ} (h : i + 2 ≤ n) :
    get16 ((slice f off n).drop i) = get16 (f.drop (off + i)) := by
  unfold slice
  rw [List.drop_take, List.drop_drop, get16_take (by omega)]

end LittleEndian
