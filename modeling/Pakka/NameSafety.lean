/-
What `pakka_unsafe_entry_name` rejects, said without its loops.

A name is taken apart at both kinds of separator. It is unsafe if one of its components is: no name
at all, a step to another directory, a byte no filesystem takes everywhere, an end that Windows
drops, or a device. The predicate upper-cases the component alone and compares byte by byte; the
rule compares both sides with their case folded, so that it does not say in which case the table
of devices is written.

The two sides are compared first for device names, then for components, then for names. The
separators are those of both families of systems, because an archive may be extracted on either.
-/
import Pakka.ExtractNames
import Pakka.Lib.Split

set_option autoImplicit false

namespace Pakka

open ByteImage

/-! ## The rules

Five rules for a component, in the words of the documentation.
-/

/-- A decimal digit. -/
def Digit (d : UInt8) : Prop := 0x30 ≤ d ∧ d ≤ 0x39

instance (d : UInt8) : Decidable (Digit d) := inferInstanceAs (Decidable (_ ∧ _))

/-- The devices of Windows: four with a name, and ten ports of either kind. -/
inductive DeviceName : Bytes → Prop where
  | con : DeviceName (ascii "CON")
  | prn : DeviceName (ascii "PRN")
  | aux : DeviceName (ascii "AUX")
  | nul : DeviceName (ascii "NUL")
  | com {d : UInt8} (h : Digit d) : DeviceName (ascii "COM" ++ [d])
  | lpt {d : UInt8} (h : Digit d) : DeviceName (ascii "LPT" ++ [d])

/-- The same string but for the case of its ASCII letters. -/
def EqIgnoringCase (a b : Bytes) : Prop := a.map ascii_lower = b.map ascii_lower

/-- What stands before the first dot, or all of it. -/
def component_base (seg : Bytes) : Bytes := seg.takeWhile (· ≠ 0x2E)

/-- What makes a component unsafe. -/
inductive UnsafeComponent (seg : Bytes) : Prop where
  | empty (h : seg = [])
  | here (h : seg = ascii ".")
  | parent (h : seg = ascii "..")
  | byte {c : UInt8} (hc : c ∈ seg) (h : c < 0x20 ∨ c = 0x7F ∨ c = 0x3A)
  | trailing {c : UInt8} (hc : seg.getLast? = some c) (h : c = 0x2E ∨ c = 0x20)
  | device {name : Bytes} (hname : DeviceName name) (h : EqIgnoringCase (component_base seg) name)

/-! ## Devices

The table of the source is the set of the rule, and comparing upper-cased bytes with an upper-case
table is comparing without case.
-/

/-- The digits, one by one. -/
def digits : Bytes := ascii "0123456789"

theorem mem_digits : ∀ d : UInt8, d ∈ digits ↔ Digit d :=
  forall_byte (by decide +kernel)

/-- The table, with its ports put together. -/
theorem win_reserved_names_eq :
    win_reserved_names =
      ["CON", "PRN", "AUX", "NUL"].map ascii ++ digits.map (fun d => ascii "COM" ++ [d]) ++
        digits.map fun d => ascii "LPT" ++ [d] := by
  decide +kernel

/-- **The table lists the devices.** -/
theorem mem_win_reserved_names {name : Bytes} : name ∈ win_reserved_names ↔ DeviceName name := by
  rw [win_reserved_names_eq]
  simp only [List.mem_append, List.mem_map, mem_digits, List.mem_cons, List.not_mem_nil, or_false]
  constructor
  · rintro ((⟨s, rfl | rfl | rfl | rfl, rfl⟩ | ⟨d, hd, rfl⟩) | ⟨d, hd, rfl⟩)
    · exact .con
    · exact .prn
    · exact .aux
    · exact .nul
    · exact .com hd
    · exact .lpt hd
  · intro h
    cases h with
    | con => exact Or.inl (Or.inl ⟨"CON", by simp, rfl⟩)
    | prn => exact Or.inl (Or.inl ⟨"PRN", by simp, rfl⟩)
    | aux => exact Or.inl (Or.inl ⟨"AUX", by simp, rfl⟩)
    | nul => exact Or.inl (Or.inl ⟨"NUL", by simp, rfl⟩)
    | com hd => exact Or.inl (Or.inr ⟨_, hd, rfl⟩)
    | lpt hd => exact Or.inr ⟨_, hd, rfl⟩

theorem ascii_upper_lower : ∀ c, ascii_upper (ascii_lower c) = ascii_upper c :=
  forall_byte (by decide +kernel)

theorem ascii_lower_upper : ∀ c, ascii_lower (ascii_upper c) = ascii_lower c :=
  forall_byte (by decide +kernel)

/-- Folding to lower case tells the same strings apart as folding to upper case. -/
theorem eqIgnoringCase_iff_upper {a b : Bytes} :
    EqIgnoringCase a b ↔ a.map ascii_upper = b.map ascii_upper := by
  have hup : ∀ s : Bytes, (s.map ascii_lower).map ascii_upper = s.map ascii_upper := by
    intro s
    simp [ascii_upper_lower]
  have hlow : ∀ s : Bytes, (s.map ascii_upper).map ascii_lower = s.map ascii_lower := by
    intro s
    simp [ascii_lower_upper]
  constructor
  · intro h
    rw [← hup a, h, hup]
  · intro h
    show a.map ascii_lower = b.map ascii_lower
    rw [← hlow a, h, hlow]

/-- The table is in upper case. -/
theorem win_reserved_names_upper : ∀ name ∈ win_reserved_names, name.map ascii_upper = name := by
  decide +kernel

/-- **A component is reserved by its base.** -/
theorem is_reserved_device_name_iff {seg : Bytes} :
    is_reserved_device_name seg = true ↔
      ∃ name, DeviceName name ∧ EqIgnoringCase (component_base seg) name := by
  unfold is_reserved_device_name
  simp only [List.any_eq_true, Bool.and_eq_true, decide_eq_true_eq, eqIgnoringCase_iff_upper]
  constructor
  · rintro ⟨name, hmem, -, heq⟩
    refine ⟨name, mem_win_reserved_names.mp hmem, ?_⟩
    rw [win_reserved_names_upper name hmem]
    exact heq
  · rintro ⟨name, hname, heq⟩
    have hmem := mem_win_reserved_names.mpr hname
    rw [win_reserved_names_upper name hmem] at heq
    refine ⟨name, hmem, ?_, heq⟩
    -- a comparison that goes through to the end has two strings of one length
    rw [← heq, List.length_map]
    rfl

/-! ## Components

The predicate of the source and the rule, for a component and for a name.
-/

/-- **The check of one component is the rule.** -/
theorem is_unsafe_segment_iff {seg : Bytes} :
    is_unsafe_segment seg = true ↔ UnsafeComponent seg := by
  constructor
  · unfold is_unsafe_segment
    split_ifs with h1 h2 h3 h4 h5
    · exact fun _ => .empty (List.length_eq_zero_iff.mp h1)
    · exact fun _ => .here h2
    · exact fun _ => .parent h3
    · intro _
      obtain ⟨c, hc, hbad⟩ := List.any_eq_true.mp h4
      simp only [Bool.or_eq_true, decide_eq_true_eq, or_assoc] at hbad
      exact .byte hc hbad
    · intro _
      rw [Bool.or_eq_true, decide_eq_true_eq, decide_eq_true_eq] at h5
      rcases h5 with h5 | h5
      · exact .trailing h5 (Or.inl rfl)
      · exact .trailing h5 (Or.inr rfl)
    · intro h
      obtain ⟨name, hname, heq⟩ := is_reserved_device_name_iff.mp h
      exact .device hname heq
  · -- each rule has its own branch; an earlier one that is taken rejects as well
    intro h
    by_contra hsafe
    rw [Bool.not_eq_true] at hsafe
    unfold is_unsafe_segment at hsafe
    split_ifs at hsafe with h1 h2 h3 h4 h5
    cases h with
    | empty h => exact h1 (List.length_eq_zero_iff.mpr h)
    | here h => exact h2 h
    | parent h => exact h3 h
    | @byte c hc h =>
      apply h4
      refine List.any_eq_true.mpr ⟨c, hc, ?_⟩
      simpa [or_assoc] using h
    | trailing hc h =>
      apply h5
      rcases h with rfl | rfl <;> simp [hc]
    | device hname h =>
      rw [is_reserved_device_name_iff.mpr ⟨_, hname, h⟩] at hsafe
      cases hsafe

/-- **The check of a name is the rule**: a name is unsafe if one of its components is. There is an
empty one where the name is, or where a separator leads, trails or is doubled. -/
theorem pakka_unsafe_entry_name_iff (name : CStr) :
    (pakka_unsafe_entry_name name = true ↔
      ∃ seg, Split.Piece is_separator name.bytes seg ∧ UnsafeComponent seg) ∧
    (Split.Piece is_separator name.bytes [] ↔
      name.bytes = [] ∨ (∃ c rest, name.bytes = c :: rest ∧ is_separator c = true) ∨
        (∃ front c, name.bytes = front ++ [c] ∧ is_separator c = true) ∨
          ∃ front c d rest, name.bytes = front ++ c :: d :: rest ∧ is_separator c = true ∧
            is_separator d = true) := by
  refine ⟨?_, Split.mem_splitOnP.symm.trans Split.nil_mem_splitOnP⟩
  rw [← Bool.not_eq_false, pakka_unsafe_entry_name_eq_false, not_forall]
  simp only [not_forall, Bool.not_eq_false, is_unsafe_segment_iff, exists_prop,
    entry_components, Split.mem_splitOnP]

end Pakka
