/-
The two UTF-8 decoders and the substitution that uses one of them.

`pakka_is_valid_utf8` and `pakka_utf8_seq_len` are written separately, with the same tests in
them. Both recognise the sequences of the standard: the second says how long the one in front is,
and the first steps from one to the next.

Overlong forms, surrogates and values above the last one are excluded by tests on the second byte.
In the comparison they are the side conditions of the rules for three and four bytes.
-/
import Pakka.ExtractNames
import Pakka.Lib.Utf8

set_option autoImplicit false

namespace Pakka

open ByteImage

/-! ## Masks

The bit tests of the source as ranges, over all 256 bytes.
-/

theorem is_continuation_iff : ∀ b : UInt8, is_continuation b = true ↔ Utf8.Tail b := by
  unfold Utf8.Tail
  exact forall_byte (by decide +kernel)

theorem lead_two_iff : ∀ c : UInt8, c &&& 0xE0 = 0xC0 ↔ 0xC0 ≤ c.toNat ∧ c.toNat < 0xE0 :=
  forall_byte (by decide +kernel)

theorem lead_three_iff : ∀ c : UInt8, c &&& 0xF0 = 0xE0 ↔ 0xE0 ≤ c.toNat ∧ c.toNat < 0xF0 :=
  forall_byte (by decide +kernel)

theorem lead_four_iff : ∀ c : UInt8, c &&& 0xF8 = 0xF0 ↔ 0xF0 ≤ c.toNat ∧ c.toNat < 0xF8 :=
  forall_byte (by decide +kernel)

theorem payload_15 : ∀ c : UInt8, (c &&& 0x0F).toNat = c.toNat % 16 :=
  forall_byte (by decide +kernel)

theorem payload_7 : ∀ c : UInt8, (c &&& 0x07).toNat = c.toNat % 8 :=
  forall_byte (by decide +kernel)

theorem payload_63 : ∀ c : UInt8, (c &&& 0x3F).toNat = c.toNat % 64 :=
  forall_byte (by decide +kernel)

/-- Payload bits put in front of six more. -/
theorem or_six {a b : ℕ} (k : ℕ) (hb : b < 2 ^ k) : a <<< k ||| b = a * 2 ^ k + b := by
  rw [Nat.shiftLeft_eq, Nat.mul_comm, Nat.two_pow_add_eq_or_of_lt hb]

theorem cp3_toNat (c c1 c2 : UInt8) : (cp3 c c1 c2).toNat = Utf8.code3 c c1 c2 := by
  unfold cp3 Utf8.code3
  simp only [UInt32.toNat_or, UInt32.toNat_shiftLeft, UInt8.toNat_toUInt32, payload_15, payload_63,
    UInt32.reduceToNat, Nat.reduceMod]
  have h1 : c.toNat % 16 < 16 := Nat.mod_lt _ (by decide)
  have h2 : c1.toNat % 64 < 64 := Nat.mod_lt _ (by decide)
  have h3 : c2.toNat % 64 < 64 := Nat.mod_lt _ (by decide)
  generalize c.toNat % 16 = x at h1 ⊢
  generalize c1.toNat % 64 = y at h2 ⊢
  generalize c2.toNat % 64 = z at h3 ⊢
  rw [Nat.mod_eq_of_lt (by rw [Nat.shiftLeft_eq]; omega),
    Nat.mod_eq_of_lt (by rw [Nat.shiftLeft_eq]; omega), Nat.or_assoc, or_six 6 (by omega),
    or_six 12 (by omega)]
  omega

theorem cp4_toNat (c c1 c2 c3 : UInt8) : (cp4 c c1 c2 c3).toNat = Utf8.code4 c c1 c2 c3 := by
  unfold cp4 Utf8.code4
  simp only [UInt32.toNat_or, UInt32.toNat_shiftLeft, UInt8.toNat_toUInt32, payload_7, payload_63,
    UInt32.reduceToNat, Nat.reduceMod]
  have h1 : c.toNat % 8 < 8 := Nat.mod_lt _ (by decide)
  have h2 : c1.toNat % 64 < 64 := Nat.mod_lt _ (by decide)
  have h3 : c2.toNat % 64 < 64 := Nat.mod_lt _ (by decide)
  have h4 : c3.toNat % 64 < 64 := Nat.mod_lt _ (by decide)
  generalize c.toNat % 8 = x at h1 ⊢
  generalize c1.toNat % 64 = y at h2 ⊢
  generalize c2.toNat % 64 = z at h3 ⊢
  generalize c3.toNat % 64 = w at h4 ⊢
  rw [Nat.mod_eq_of_lt (by rw [Nat.shiftLeft_eq]; omega),
    Nat.mod_eq_of_lt (by rw [Nat.shiftLeft_eq]; omega),
    Nat.mod_eq_of_lt (by rw [Nat.shiftLeft_eq]; omega), Nat.or_assoc, Nat.or_assoc,
    or_six 6 (by omega), or_six 12 (by omega), or_six 18 (by omega)]
  omega

/-! ## The length of a sequence

Nonzero exactly at the start of a well-formed sequence, and then its length.
-/

/-- **A length other than 0 is that of a sequence in front.** -/
theorem pakka_utf8_seq_len_sequence {bs : Bytes} (h : pakka_utf8_seq_len bs ≠ 0) :
    Utf8.Sequence (bs.take (pakka_utf8_seq_len bs)) := by
  revert h
  unfold pakka_utf8_seq_len
  split
  · intro h
    exact absurd rfl h
  · rename_i c rest
    split_ifs with h1 h2 h3 h4 h5 h6
    · intro _
      exact Utf8.sequence_one (UInt8.lt_iff_toNat_lt.mp h1)
    · intro h
      exact absurd rfl h
    · split
      · rename_i c1 _
        split_ifs with h7
        · intro _
          rw [UInt8.lt_iff_toNat_lt] at h3
          exact Utf8.sequence_two ⟨Nat.not_lt.mp h3, ((lead_two_iff c).mp h2).2⟩
            ((is_continuation_iff c1).mp h7)
        · intro h
          exact absurd rfl h
      · intro h
        exact absurd rfl h
    · split
      · rename_i c1 c2 _
        split_ifs with h7 h8 h9
        · intro h
          exact absurd rfl h
        · intro h
          exact absurd rfl h
        · intro h
          exact absurd rfl h
        · intro _
          simp only [Bool.or_eq_true, Bool.not_eq_true', not_or, Bool.not_eq_false] at h7
          simp only [UInt32.lt_iff_toNat_lt, UInt32.le_iff_toNat_le, Bool.and_eq_true,
            decide_eq_true_eq, cp3_toNat] at h8 h9
          have h3 : Utf8.Three c c1 c2 := ⟨(lead_three_iff c).mp h4,
            (is_continuation_iff c1).mp h7.1, (is_continuation_iff c2).mp h7.2,
            Nat.not_lt.mp h8, h9⟩
          exact h3.sequence
      · intro h
        exact absurd rfl h
    · intro h
      exact absurd rfl h
    · split
      · rename_i c1 c2 c3 _
        split_ifs with h7 h8 h9 h10 h11
        · intro h
          exact absurd rfl h
        · intro h
          exact absurd rfl h
        · intro h
          exact absurd rfl h
        · intro h
          exact absurd rfl h
        · intro h
          exact absurd rfl h
        · intro _
          simp only [Bool.not_eq_true', Bool.not_eq_false] at h7 h8 h9
          simp only [UInt32.lt_iff_toNat_lt, gt_iff_lt, cp4_toNat] at h10 h11
          have h4 : Utf8.Four c c1 c2 c3 := ⟨(lead_four_iff c).mp h5,
            (is_continuation_iff c1).mp h7, (is_continuation_iff c2).mp h8,
            (is_continuation_iff c3).mp h9, Nat.not_lt.mp h10, Nat.not_lt.mp h11⟩
          exact h4.sequence
      · intro h
        exact absurd rfl h
    · intro h
      exact absurd rfl h

/-- The lead byte of a longer sequence is none of a shorter one. -/
theorem lead_not {c : UInt8} (h : 0xC2 ≤ c.toNat) : ¬ c < 0x80 ∧ ¬ c < 0xC2 := by
  simp only [UInt8.lt_iff_toNat_lt]
  exact ⟨Nat.not_lt.mpr (Nat.le_trans (by decide) h), Nat.not_lt.mpr h⟩

/-- **A sequence in front is seen**, whatever follows. -/
theorem pakka_utf8_seq_len_append {s : Bytes} (h : Utf8.Sequence s) (rest : Bytes) :
    pakka_utf8_seq_len (s ++ rest) = s.length := by
  rcases Utf8.sequence_cases h with ⟨a, rfl, ha⟩ | ⟨a, b, rfl, ha, ha', hb⟩ | ⟨a, b, c, rfl, h3⟩ |
    ⟨a, b, c, d, rfl, h4⟩
  · exact pakka_utf8_seq_len_ascii rest (UInt8.lt_iff_toNat_lt.mpr ha)
  · have hlead := lead_not ha
    simp only [List.cons_append, List.nil_append, pakka_utf8_seq_len]
    rw [if_neg hlead.1, if_pos ((lead_two_iff a).mpr (by omega)), if_neg hlead.2,
      if_pos ((is_continuation_iff b).mpr hb)]
    rfl
  · obtain ⟨ha, hb, hc, hlong, hscalar⟩ := h3
    have hlead := lead_not (c := a) (by omega)
    simp only [List.cons_append, List.nil_append, pakka_utf8_seq_len, UInt32.lt_iff_toNat_lt,
      UInt32.le_iff_toNat_le, ge_iff_le, UInt32.reduceToNat, cp3_toNat]
    rw [if_neg hlead.1, if_neg (by rw [lead_two_iff]; omega), if_pos ((lead_three_iff a).mpr ha),
      (is_continuation_iff b).mpr hb, (is_continuation_iff c).mpr hc, if_neg (by decide),
      if_neg (Nat.not_lt.mpr hlong), if_neg (by simpa using hscalar)]
    rfl
  · obtain ⟨ha, hb, hc, hd, hlong, hscalar⟩ := h4
    have hlead := lead_not (c := a) (by omega)
    have hF4 : ¬ a > 0xF4 := by
      -- the payload of a lead byte above F4 is already too large
      unfold Utf8.code4 at hscalar
      rw [gt_iff_lt, UInt8.lt_iff_toNat_lt]
      simp only [UInt8.reduceToNat]
      omega
    simp only [List.cons_append, List.nil_append, pakka_utf8_seq_len]
    rw [if_neg hlead.1, if_neg (by rw [lead_two_iff]; omega), if_neg (by rw [lead_three_iff]; omega),
      if_pos ((lead_four_iff a).mpr ha), if_neg hF4, (is_continuation_iff b).mpr hb,
      (is_continuation_iff c).mpr hc, (is_continuation_iff d).mpr hd, if_neg (by decide),
      if_neg (by decide), if_neg (by decide)]
    simp only [UInt32.lt_iff_toNat_lt, gt_iff_lt, UInt32.reduceToNat, cp4_toNat]
    rw [if_neg (Nat.not_lt.mpr hlong), if_neg (Nat.not_lt.mpr hscalar)]
    rfl

/-- A length of 0 means that no sequence is in front. -/
theorem pakka_utf8_seq_len_eq_zero {bs : Bytes} (h : pakka_utf8_seq_len bs = 0) (s : Bytes)
    (hs : Utf8.Sequence s) : ¬ s <+: bs := by
  rintro ⟨rest, rfl⟩
  rw [pakka_utf8_seq_len_append hs] at h
  exact hs.ne_nil (List.length_eq_zero_iff.mp h)

/-! ## Validation

The scan accepts exactly the concatenations of sequences, by the sequence in front.
-/

/-- What validation does after a sequence of `n` bytes in front, none if `n` is 0. -/
def valid_after (bs : Bytes) (n : ℕ) : Bool :=
  if n = 0 then false else pakka_is_valid_utf8 (bs.drop n)

/-- **The decoders agree**: validation steps by the length of a sequence. -/
theorem pakka_is_valid_utf8_step (c : UInt8) (rest : Bytes) :
    pakka_is_valid_utf8 (c :: rest) =
      valid_after (c :: rest) (pakka_utf8_seq_len (c :: rest)) := by
  conv_lhs => rw [pakka_is_valid_utf8.eq_def]
  rcases rest with _ | ⟨c1, _ | ⟨c2, _ | ⟨c3, rest⟩⟩⟩
  all_goals
    -- the same tests on both sides, but for two that one decoder makes at once
    simp only [pakka_utf8_seq_len, apply_ite (valid_after _), Bool.or_eq_true, ite_or]
    rfl

/-- Validation steps over a sequence in front. -/
theorem pakka_is_valid_utf8_append {s : Bytes} (hs : Utf8.Sequence s) (rest : Bytes) :
    pakka_is_valid_utf8 (s ++ rest) = pakka_is_valid_utf8 rest := by
  have hlen := pakka_utf8_seq_len_append hs rest
  have hne := List.length_pos_iff.mpr hs.ne_nil
  obtain ⟨c, s', rfl⟩ := List.exists_cons_of_ne_nil hs.ne_nil
  rw [List.cons_append] at hlen ⊢
  rw [pakka_is_valid_utf8_step, hlen, valid_after, if_neg (by omega), ← List.cons_append,
    List.drop_left]

/-- Where no sequence starts, the string is not valid. -/
theorem pakka_is_valid_utf8_stuck {c : UInt8} {rest : Bytes}
    (h : pakka_utf8_seq_len (c :: rest) = 0) : pakka_is_valid_utf8 (c :: rest) = false := by
  rw [pakka_is_valid_utf8_step, valid_after, if_pos h]

/-- **Induction along a scan**: sequence by sequence, and byte by byte where none starts. -/
theorem scan_induction {P : Bytes → Prop} (nil : P [])
    (keep : ∀ s rest, Utf8.Sequence s → P rest → P (s ++ rest))
    (replace : ∀ c rest, pakka_utf8_seq_len (c :: rest) = 0 → P rest → P (c :: rest))
    (src : Bytes) : P src := by
  induction hn : src.length using Nat.strong_induction_on generalizing src with
  | _ n ih =>
    match src with
    | [] => exact nil
    | c :: rest =>
      rw [List.length_cons] at hn
      by_cases hseq : pakka_utf8_seq_len (c :: rest) = 0
      · exact replace c rest hseq (ih _ (by omega) rest rfl)
      · have hs := pakka_utf8_seq_len_sequence hseq
        rw [← List.take_append_drop (pakka_utf8_seq_len (c :: rest)) (c :: rest)]
        refine keep _ _ hs (ih _ ?_ _ rfl)
        rw [List.length_drop, List.length_cons]
        omega

/-- **What is valid is well formed**, and the other way round. -/
theorem pakka_is_valid_utf8_iff (bs : Bytes) :
    pakka_is_valid_utf8 bs = true ↔ Utf8.WellFormed bs := by
  induction bs using scan_induction with
  | nil => exact iff_of_true rfl .nil
  | keep s rest hs ih => rw [pakka_is_valid_utf8_append hs, ih, hs.wellFormed_append]
  | replace c rest hseq ih =>
    rw [pakka_is_valid_utf8_stuck hseq]
    exact iff_of_false (by simp)
      (Utf8.not_wellFormed (List.cons_ne_nil c rest) (pakka_utf8_seq_len_eq_zero hseq))

/-- Where stepping by `pakka_utf8_seq_len` from the start comes by. -/
inductive SteppedTo (s : Bytes) : ℕ → Prop where
  | start : SteppedTo s 0
  | next {i : ℕ} (h : SteppedTo s i) (hlt : i < s.length)
      (hseq : pakka_utf8_seq_len (s.drop i) ≠ 0) : SteppedTo s (i + pakka_utf8_seq_len (s.drop i))

/-- What is left at a position inside. -/
theorem drop_eq_cons {s : Bytes} {i : ℕ} (h : i < s.length) :
    ∃ c rest, s.drop i = c :: rest := by
  refine List.exists_cons_of_ne_nil ?_
  rw [ne_eq, List.drop_eq_nil_iff]
  omega

/-- Stepping leaves validity to what is left. -/
theorem SteppedTo.valid {s : Bytes} {i : ℕ} (h : SteppedTo s i) :
    pakka_is_valid_utf8 s = pakka_is_valid_utf8 (s.drop i) := by
  induction h with
  | start => rfl
  | @next i h hlt hseq ih =>
    obtain ⟨c, rest, hdrop⟩ := drop_eq_cons hlt
    rw [ih, ← List.drop_drop]
    rw [hdrop] at hseq ⊢
    rw [pakka_is_valid_utf8_step, valid_after, if_neg hseq]

theorem SteppedTo.le {s : Bytes} {i : ℕ} (h : SteppedTo s i) : i ≤ s.length := by
  induction h with
  | start => exact Nat.zero_le _
  | @next i h hlt hseq ih =>
    have hle := pakka_utf8_seq_len_le (s.drop i)
    rw [List.length_drop] at hle
    omega

/-- From a position with a valid rest the end is reached. -/
theorem SteppedTo.to_end {s : Bytes} {i : ℕ} (h : SteppedTo s i)
    (hv : pakka_is_valid_utf8 (s.drop i) = true) : SteppedTo s s.length := by
  induction hn : s.length - i using Nat.strong_induction_on generalizing i with
  | _ n ih =>
    rcases Nat.lt_or_eq_of_le h.le with hlt | rfl
    · obtain ⟨c, rest, hdrop⟩ := drop_eq_cons hlt
      have hseq : pakka_utf8_seq_len (s.drop i) ≠ 0 := by
        intro hzero
        rw [hdrop] at hv hzero
        rw [pakka_is_valid_utf8_stuck hzero] at hv
        cases hv
      have hnext := h.next hlt hseq
      refine ih _ ?_ hnext ?_ rfl
      · have := hnext.le
        omega
      · rw [← hnext.valid, h.valid]
        exact hv
    · exact h

/-- **A string is valid if stepping reaches its end.** -/
theorem steppedTo_end_iff (s : Bytes) :
    SteppedTo s s.length ↔ pakka_is_valid_utf8 s = true := by
  constructor
  · intro h
    rw [h.valid, List.drop_length]
    rfl
  · intro h
    exact SteppedTo.start.to_end h

/-! ## Checked reads

The scan again with every read checked: it stays in the string.
-/

/-- `pakka_utf8_seq_len` of `n` bytes from `s[0]` on, where a read of a byte that is not there
fails. -/
def pakka_utf8_seq_len_checked (s : Bytes) (n : ℕ) : Option ℕ :=
  if n = 0 then some 0
  else do
    let c ← s[0]?
    if c < 0x80 then some 1
    else if c &&& 0xE0 = 0xC0 then
      if c < 0xC2 then some 0
      else if n < 2 then some 0
      else do
        let c1 ← s[1]?
        if is_continuation c1 then some 2 else some 0
    else if c &&& 0xF0 = 0xE0 then
      if n < 3 then some 0
      else do
        let c1 ← s[1]?
        if !is_continuation c1 then some 0
        else
          let c2 ← s[2]?
          if !is_continuation c2 then some 0
          else if cp3 c c1 c2 < 0x800 then some 0
          else if cp3 c c1 c2 ≥ 0xD800 && cp3 c c1 c2 ≤ 0xDFFF then some 0
          else some 3
    else if c &&& 0xF8 = 0xF0 then
      if c > 0xF4 then some 0
      else if n < 4 then some 0
      else do
        let c1 ← s[1]?
        if !is_continuation c1 then some 0
        else
          let c2 ← s[2]?
          if !is_continuation c2 then some 0
          else
            let c3 ← s[3]?
            if !is_continuation c3 then some 0
            else if cp4 c c1 c2 c3 < 0x10000 then some 0
            else if cp4 c c1 c2 c3 > 0x10FFFF then some 0
            else some 4
    else some 0

/-- `pakka_is_valid_utf8` of `n` bytes, at position `i`, where a read of a byte that is not there
fails. -/
def pakka_is_valid_utf8_checked (s : Bytes) (n i : ℕ) : Option Bool :=
  if i < n then do
    let c ← s[i]?
    if c < 0x80 then pakka_is_valid_utf8_checked s n (i + 1)
    else if c &&& 0xE0 = 0xC0 then
      if c < 0xC2 then some false
      else if i + 1 ≥ n then some false
      else do
        let c1 ← s[i + 1]?
        if is_continuation c1 then pakka_is_valid_utf8_checked s n (i + 2) else some false
    else if c &&& 0xF0 = 0xE0 then
      if i + 2 ≥ n then some false
      else do
        let c1 ← s[i + 1]?
        if !is_continuation c1 then some false
        else
          let c2 ← s[i + 2]?
          if !is_continuation c2 then some false
          else if cp3 c c1 c2 < 0x800 then some false
          else if cp3 c c1 c2 ≥ 0xD800 && cp3 c c1 c2 ≤ 0xDFFF then some false
          else pakka_is_valid_utf8_checked s n (i + 3)
    else if c &&& 0xF8 = 0xF0 then
      if c > 0xF4 then some false
      else if i + 3 ≥ n then some false
      else do
        let c1 ← s[i + 1]?
        if !is_continuation c1 then some false
        else
          let c2 ← s[i + 2]?
          if !is_continuation c2 then some false
          else
            let c3 ← s[i + 3]?
            if !is_continuation c3 then some false
            else if cp4 c c1 c2 c3 < 0x10000 then some false
            else if cp4 c c1 c2 c3 > 0x10FFFF then some false
            else pakka_is_valid_utf8_checked s n (i + 4)
    else some false
  else some true
  termination_by n - i

/-- No read of `pakka_utf8_seq_len` is outside. -/
theorem pakka_utf8_seq_len_checked_eq (s : Bytes) :
    pakka_utf8_seq_len_checked s s.length = some (pakka_utf8_seq_len s) := by
  match s with
  | [] => rfl
  | [c] | [c, c1] | [c, c1, c2] | c :: c1 :: c2 :: c3 :: rest =>
    simp only [pakka_utf8_seq_len_checked, pakka_utf8_seq_len, apply_ite some, Bool.or_eq_true,
      ite_or, List.length_cons, List.length_nil, List.getElem?_cons_zero, List.getElem?_cons_succ,
      Option.bind_eq_bind, Option.bind_some, Nat.add_eq_zero_iff, one_ne_zero, and_false, if_false]
    rfl

/-- No read of `pakka_is_valid_utf8` is outside, from any position on. -/
theorem pakka_is_valid_utf8_checked_from {s : Bytes} {i : ℕ} (hi : i ≤ s.length) :
    pakka_is_valid_utf8_checked s s.length i = some (pakka_is_valid_utf8 (s.drop i)) := by
  induction hn : s.length - i using Nat.strong_induction_on generalizing i with
  | _ n ih =>
    have hlen : s.length = i + (s.drop i).length := by
      rw [List.length_drop]
      omega
    have hread : ∀ k, s[i + k]? = (s.drop i)[k]? := fun k => List.getElem?_drop.symm
    have hnext : ∀ k, 0 < k → k ≤ (s.drop i).length →
        pakka_is_valid_utf8_checked s s.length (i + k) =
          some (pakka_is_valid_utf8 ((s.drop i).drop k)) := by
      intro k hk hle
      rw [List.drop_drop]
      exact ih _ (by omega) (by omega) rfl
    have h0 := hread 0
    rw [Nat.add_zero] at h0
    rw [pakka_is_valid_utf8_checked]
    revert hlen hread hnext h0
    generalize s.drop i = rest
    intro hlen hread hnext h0
    match rest with
    | [] =>
      rw [if_neg (by rw [hlen, List.length_nil]; omega)]
      rfl
    | [c] | [c, c1] | [c, c1, c2] | c :: c1 :: c2 :: c3 :: rest =>
      conv_rhs => rw [pakka_is_valid_utf8.eq_def]
      simp only [List.length_cons, List.length_nil] at hlen hnext
      rw [if_pos (by omega)]
      simp only [h0, hread, List.getElem?_cons_zero, List.getElem?_cons_succ,
        Option.bind_eq_bind, Option.bind_some, apply_ite some]
      simp only [hlen, ge_iff_le, Nat.add_le_add_iff_left, Nat.reduceAdd] at hnext ⊢
      rw [hnext 1 (by decide) (by omega)]
      try rw [hnext 2 (by decide) (by omega)]
      try rw [hnext 3 (by decide) (by omega)]
      try rw [hnext 4 (by decide) (by omega)]
      rfl

/-- **Validation is exact**: what it accepts is what is well formed, and what stepping from the
start walks through. Neither decoder reads past the bytes it was given. -/
theorem utf8_validation_exact (s : Bytes) :
    (pakka_is_valid_utf8 s = true ↔ Utf8.WellFormed s) ∧
    (pakka_is_valid_utf8 s = true ↔ SteppedTo s s.length) ∧
    pakka_is_valid_utf8_checked s s.length 0 = some (pakka_is_valid_utf8 s) ∧
    ∀ i, pakka_utf8_seq_len_checked (s.drop i) (s.length - i) =
      some (pakka_utf8_seq_len (s.drop i)) := by
  refine ⟨pakka_is_valid_utf8_iff s, (steppedTo_end_iff s).symm,
    pakka_is_valid_utf8_checked_from (Nat.zero_le _), ?_⟩
  intro i
  rw [← List.length_drop]
  exact pakka_utf8_seq_len_checked_eq (s.drop i)

end Pakka
