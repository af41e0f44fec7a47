/-
UTF-8 as a set of byte strings.

A sequence is the encoding of one scalar value, and `Char` has just these: no surrogate, nothing
above U+10FFFF. As a value has one encoding, the shortest, no overlong form is a sequence. A byte
string is well formed if it is a concatenation of sequences.

A decoder sees bytes, not values. So each length has its rule in terms of the bytes: what the lead
byte and the tail bytes may be, and which values the payload bits may make up.

The rules by bytes are proved equivalent to the definition by values for each length. So a decoder
that tests bytes can be compared with the rules, and what is said of it is about scalar values.
-/
import Mathlib.Data.List.Basic

set_option autoImplicit false

namespace Utf8

/-! ## Sequences

By values, and by bytes for each of the four lengths.
-/

/-- The bytes of one scalar value. -/
def Sequence (s : List UInt8) : Prop := ∃ c : Char, s = String.utf8EncodeChar c

/-- A byte that only continues a sequence. -/
def Tail (b : UInt8) : Prop := 0x80 ≤ b.toNat ∧ b.toNat < 0xC0

/-- The payload of three bytes. -/
def code3 (a b c : UInt8) : ℕ := a.toNat % 16 * 4096 + b.toNat % 64 * 64 + c.toNat % 64

/-- The payload of four bytes. -/
def code4 (a b c d : UInt8) : ℕ :=
  a.toNat % 8 * 262144 + b.toNat % 64 * 4096 + c.toNat % 64 * 64 + d.toNat % 64

/-- Three bytes: neither overlong nor a surrogate. -/
structure Three (a b c : UInt8) : Prop where
  lead : 0xE0 ≤ a.toNat ∧ a.toNat < 0xF0
  second : Tail b
  third : Tail c
  long : 0x800 ≤ code3 a b c
  scalar : ¬ (0xD800 ≤ code3 a b c ∧ code3 a b c ≤ 0xDFFF)

/-- Four bytes: neither overlong nor above the last scalar value. -/
structure Four (a b c d : UInt8) : Prop where
  lead : 0xF0 ≤ a.toNat ∧ a.toNat < 0xF8
  second : Tail b
  third : Tail c
  fourth : Tail d
  long : 0x10000 ≤ code4 a b c d
  scalar : code4 a b c d ≤ 0x10FFFF

/-- A number that is no surrogate and not too large is a scalar value. -/
theorem exists_char {n : ℕ} (h : n < 0xD800 ∨ 0xDFFF < n ∧ n < 0x110000) :
    ∃ c : Char, c.val.toNat = n := by
  refine ⟨Char.ofNat n, ?_⟩
  have hvalid : n.isValidChar := h
  unfold Char.ofNat
  rw [dif_pos hvalid]
  rfl

/-- **The shapes of a sequence.** -/
theorem sequence_cases {s : List UInt8} (h : Sequence s) :
    (∃ a, s = [a] ∧ a.toNat < 0x80) ∨
    (∃ a b, s = [a, b] ∧ 0xC2 ≤ a.toNat ∧ a.toNat < 0xE0 ∧ Tail b) ∨
    (∃ a b c, s = [a, b, c] ∧ Three a b c) ∨
    ∃ a b c d, s = [a, b, c, d] ∧ Four a b c d := by
  obtain ⟨ch, rfl⟩ := h
  have hvalid : ch.val.toNat < 0xD800 ∨ 0xDFFF < ch.val.toNat ∧ ch.val.toNat < 0x110000 := ch.valid
  unfold String.utf8EncodeChar
  simp only
  generalize ch.val.toNat = v at hvalid
  split_ifs with h1 h2 h3
  · refine Or.inl ⟨_, rfl, ?_⟩
    rw [UInt8.toNat_ofNat']
    omega
  · refine Or.inr (Or.inl ⟨_, _, rfl, ?_⟩)
    simp only [Tail, UInt8.toNat_ofNat']
    omega
  · refine Or.inr (Or.inr (Or.inl ⟨_, _, _, rfl, ?_⟩))
    constructor <;> simp only [Tail, code3, UInt8.toNat_ofNat'] <;> omega
  · refine Or.inr (Or.inr (Or.inr ⟨_, _, _, _, rfl, ?_⟩))
    constructor <;> simp only [Tail, code4, UInt8.toNat_ofNat'] <;> omega

theorem sequence_one {a : UInt8} (h : a.toNat < 0x80) : Sequence [a] := by
  obtain ⟨c, hc⟩ := exists_char (n := a.toNat) (by omega)
  refine ⟨c, ?_⟩
  unfold String.utf8EncodeChar
  simp only [hc]
  rw [if_pos (by omega), UInt8.ofNat_toNat]

/-- A byte is the one with its number. -/
theorem eq_ofNat {a : UInt8} {n : ℕ} (h : a.toNat = n) : a = UInt8.ofNat n := by
  rw [← h, UInt8.ofNat_toNat]

theorem sequence_two {a b : UInt8} (ha : 0xC2 ≤ a.toNat ∧ a.toNat < 0xE0) (hb : Tail b) :
    Sequence [a, b] := by
  unfold Tail at hb
  obtain ⟨c, hc⟩ := exists_char (n := a.toNat % 32 * 64 + b.toNat % 64) (by omega)
  refine ⟨c, ?_⟩
  unfold String.utf8EncodeChar
  simp only [hc]
  rw [if_neg (by omega), if_pos (by omega), List.cons.injEq, List.cons.injEq]
  refine ⟨eq_ofNat ?_, eq_ofNat ?_, rfl⟩
  · omega
  · omega

theorem Three.sequence {a b c : UInt8} (h : Three a b c) : Sequence [a, b, c] := by
  obtain ⟨ha, hb, hc, hlong, hscalar⟩ := h
  unfold Tail at hb hc
  unfold code3 at hlong hscalar
  obtain ⟨ch, hch⟩ := exists_char
    (n := a.toNat % 16 * 4096 + b.toNat % 64 * 64 + c.toNat % 64) (by omega)
  refine ⟨ch, ?_⟩
  unfold String.utf8EncodeChar
  simp only [hch]
  rw [if_neg (by omega), if_neg (by omega), if_pos (by omega)]
  simp only [List.cons.injEq, and_true]
  refine ⟨eq_ofNat ?_, eq_ofNat ?_, eq_ofNat ?_⟩
  · omega
  · omega
  · omega

theorem Four.sequence {a b c d : UInt8} (h : Four a b c d) : Sequence [a, b, c, d] := by
  obtain ⟨ha, hb, hc, hd, hlong, hscalar⟩ := h
  unfold Tail at hb hc hd
  unfold code4 at hlong hscalar
  obtain ⟨ch, hch⟩ := exists_char
    (n := a.toNat % 8 * 262144 + b.toNat % 64 * 4096 + c.toNat % 64 * 64 + d.toNat % 64) (by omega)
  refine ⟨ch, ?_⟩
  unfold String.utf8EncodeChar
  simp only [hch]
  rw [if_neg (by omega), if_neg (by omega), if_neg (by omega)]
  simp only [List.cons.injEq, and_true]
  refine ⟨eq_ofNat ?_, eq_ofNat ?_, eq_ofNat ?_, eq_ofNat ?_⟩
  · omega
  · omega
  · omega
  · omega

/-- How long the sequence is that a lead byte starts. -/
def size (a : UInt8) : ℕ :=
  if a.toNat < 0x80 then 1 else if a.toNat < 0xE0 then 2 else if a.toNat < 0xF0 then 3 else 4

/-- A sequence is as long as its lead byte says. -/
theorem Sequence.length_eq {s : List UInt8} (h : Sequence s) :
    ∃ a rest, s = a :: rest ∧ s.length = size a := by
  rcases sequence_cases h with ⟨a, rfl, ha⟩ | ⟨a, b, rfl, ha, ha', -⟩ | ⟨a, b, c, rfl, h3⟩ |
    ⟨a, b, c, d, rfl, h4⟩
  · exact ⟨a, [], rfl, by simp [size, ha]⟩
  · refine ⟨a, [b], rfl, ?_⟩
    rw [size, if_neg (by omega), if_pos ha']
    rfl
  · refine ⟨a, [b, c], rfl, ?_⟩
    have := h3.lead
    rw [size, if_neg (by omega), if_neg (by omega), if_pos (by omega)]
    rfl
  · refine ⟨a, [b, c, d], rfl, ?_⟩
    have := h4.lead
    rw [size, if_neg (by omega), if_neg (by omega), if_neg (by omega)]
    rfl

theorem Sequence.ne_nil {s : List UInt8} (h : Sequence s) : s ≠ [] := by
  obtain ⟨a, rest, rfl, -⟩ := h.length_eq
  exact List.cons_ne_nil a rest

/-- **No sequence starts another**: of two in front of the same string both are the same. -/
theorem Sequence.prefix_free {s t bs : List UInt8} (hs : Sequence s) (ht : Sequence t)
    (hsb : s <+: bs) (htb : t <+: bs) : s = t := by
  obtain ⟨a, rest, rfl, hslen⟩ := hs.length_eq
  obtain ⟨b, rest', rfl, htlen⟩ := ht.length_eq
  obtain ⟨more, rfl⟩ := hsb
  have hab : b = a := by
    obtain ⟨more', h⟩ := htb
    exact (List.cons.inj h).1
  rw [hab] at htlen
  have hlen : (a :: rest).length = (b :: rest').length := hslen.trans htlen.symm
  have hfront := List.prefix_append (a :: rest) more
  exact (List.prefix_of_prefix_length_le hfront htb (Nat.le_of_eq hlen)).eq_of_length hlen

/-! ## Well-formed strings

A well-formed string starts with a sequence, and the rest is well formed: no sequence is the start
of another one, so there is one way to cut it.
-/

/-- A concatenation of sequences. -/
def WellFormed (bs : List UInt8) : Prop := ∃ cs : List Char, bs = cs.flatMap String.utf8EncodeChar

theorem WellFormed.nil : WellFormed [] := ⟨[], rfl⟩

theorem WellFormed.append {a b : List UInt8} (ha : WellFormed a) (hb : WellFormed b) :
    WellFormed (a ++ b) := by
  obtain ⟨cs, rfl⟩ := ha
  obtain ⟨ds, rfl⟩ := hb
  exact ⟨cs ++ ds, List.flatMap_append.symm⟩

theorem Sequence.wellFormed {s : List UInt8} (h : Sequence s) : WellFormed s := by
  obtain ⟨c, rfl⟩ := h
  exact ⟨[c], by simp⟩

/-- A well-formed string is empty, or starts with a sequence and goes on well formed. -/
theorem WellFormed.cases {bs : List UInt8} (h : WellFormed bs) :
    bs = [] ∨ ∃ s rest, bs = s ++ rest ∧ Sequence s ∧ WellFormed rest := by
  obtain ⟨cs, rfl⟩ := h
  cases cs with
  | nil => exact Or.inl rfl
  | cons c cs => exact Or.inr ⟨_, _, List.flatMap_cons, ⟨c, rfl⟩, ⟨cs, rfl⟩⟩

/-- **What is behind a sequence decides.** -/
theorem Sequence.wellFormed_append {s rest : List UInt8} (h : Sequence s) :
    WellFormed (s ++ rest) ↔ WellFormed rest := by
  refine ⟨?_, h.wellFormed.append⟩
  intro hw
  rcases hw.cases with hnil | ⟨t, rest', heq, ht, hrest⟩
  · exact absurd (List.append_eq_nil_iff.mp hnil).1 h.ne_nil
  · have hst : s = t := by
      refine h.prefix_free ht (List.prefix_append s rest) ?_
      rw [heq]
      exact List.prefix_append t rest'
    subst hst
    rwa [List.append_cancel_left heq]

/-- A string that is not empty and starts with no sequence is not well formed. -/
theorem not_wellFormed {bs : List UInt8} (hne : bs ≠ []) (h : ∀ s, Sequence s → ¬ s <+: bs) :
    ¬ WellFormed bs := by
  intro hw
  rcases hw.cases with hnil | ⟨s, rest, rfl, hs, -⟩
  · exact hne hnil
  · exact h s hs (List.prefix_append s rest)

end Utf8
