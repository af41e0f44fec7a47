/-
What `pakka_normalize_entry_name` computes, and when.

The specification is `normal_form`: the components of the name, folded and stripped, joined
with slashes. The loop keeps the stripped components it is done with, each with its slash, in
front of the one it is in. It looks at the byte at `in` only while there is room for one byte
more than the terminator, so whether it sees the end of the name, and with it strips the last
component, depends on how much is out by then. With a buffer of `strlen + 1` bytes it does only
if an earlier component was stripped.

So there are two answers. The components in front of the last one are always normalised; the last
one is when the loop gets to the end of the name. `normalizes_iff` gives the condition in terms of
the name and the size of the buffer, and `trailing_dot_not_stripped` is a name for which it fails.
-/
import Pakka.ExtractNames

set_option autoImplicit false

namespace Pakka

open ByteImage

/-! ## Specification

Components are folded to lower case and lose trailing dots and spaces. The condition for a name to
be normalised in full is a comparison of lengths.
-/

/-- A component, folded and stripped. -/
def trimmed (seg : Bytes) : Bytes :=
  (seg.map ascii_lower).rdropWhile fun c => c = 0x2E || c = 0x20

/-- The components of a name, folded, stripped and joined with slashes. -/
def normal_form (bs : Bytes) : Bytes := [0x2F].intercalate ((entry_components bs).map trimmed)

/-- A component ends in a dot or a space. -/
def is_padded (seg : Bytes) : Bool := seg.getLast?.any fun c => c = 0x2E || c = 0x20

/-- The loop gets to the end of the name: there is a byte more than the name and its terminator
take, or an earlier component was stripped. Else the last one must not need it. -/
def normalized_in_full (name : CStr) (dstsz : ℕ) : Prop :=
  name.strlen + 2 ≤ dstsz ∨ (∃ seg ∈ (entry_components name.bytes).dropLast, is_padded seg = true) ∨
    is_padded ((entry_components name.bytes).getLastD []) = false

theorem trimmed_of_not_padded {seg : Bytes} (h : is_padded seg = false) :
    trimmed seg = seg.map ascii_lower := by
  apply rdropWhile_eq_self
  intro c hc
  rw [List.getLast?_map, Option.map_eq_some_iff] at hc
  obtain ⟨b, hb, rfl⟩ := hc
  rw [is_padded, hb] at h
  simpa [ascii_lower_eq (x := 0x2E) (by decide), ascii_lower_eq (x := 0x20) (by decide)] using h

theorem trimmed_length_le (seg : Bytes) : (trimmed seg).length ≤ seg.length := by
  have h := (List.rdropWhile_prefix (fun c => c = 0x2E || c = 0x20) (seg.map ascii_lower)).length_le
  rwa [List.length_map] at h

theorem trimmed_length_lt {seg : Bytes} (h : is_padded seg = true) :
    (trimmed seg).length < seg.length := by
  refine Nat.lt_of_le_of_ne (trimmed_length_le seg) ?_
  intro hlen
  -- nothing was dropped, but the last byte should have been
  have hself : trimmed seg = seg.map ascii_lower :=
    (List.rdropWhile_prefix _ _).eq_of_length (by rw [List.length_map]; exact hlen)
  rw [is_padded, Option.any_eq_true] at h
  obtain ⟨c, hc, hpad⟩ := h
  have hne : seg.map ascii_lower ≠ [] := by
    rintro hnil
    rw [List.map_eq_nil_iff.mp hnil] at hc
    cases hc
  have hlast := (List.rdropWhile_eq_self_iff.mp hself) hne
  have hget : (seg.map ascii_lower).getLast hne = ascii_lower c := by
    have hmap : (seg.map ascii_lower).getLast? = some (ascii_lower c) := by
      rw [List.getLast?_map, hc]
      rfl
    exact Option.some.inj ((List.getLast?_eq_some_getLast hne).symm.trans hmap)
  rw [hget] at hlast
  simp [ascii_lower_eq (x := 0x2E) (by decide), ascii_lower_eq (x := 0x20) (by decide)] at hlast
  simp [hlast] at hpad

/-- What the loop has written when it is done with some components. -/
def closed (head : List Bytes) : Bytes := head.flatMap fun seg => trimmed seg ++ [0x2F]

theorem closed_cons (seg : Bytes) (head : List Bytes) :
    closed (seg :: head) = trimmed seg ++ 0x2F :: closed head := by
  rw [closed, List.flatMap_cons, List.append_assoc]
  rfl

theorem intercalate_closed (head : List Bytes) (last : Bytes) :
    [0x2F].intercalate (head.map trimmed ++ [last]) = closed head ++ last := by
  induction head with
  | nil => simp [closed]
  | cons seg head ih =>
    rw [closed_cons, List.map_cons, List.cons_append,
      List.intercalate_cons_of_ne_nil (List.append_ne_nil_of_right_ne_nil _ (by simp)), ih]
    simp

/-- The length of a name is that of its components and the separators. -/
theorem entry_components_length (seg rest : Bytes) (hseg : ∀ c ∈ seg, is_separator c = false)
    {head : List Bytes} {last : Bytes} (h : entry_components (seg ++ rest) = head ++ [last]) :
    (head.map fun s => s.length + 1).sum + last.length = seg.length + rest.length := by
  induction rest generalizing seg head with
  | nil =>
    rw [List.append_nil, entry_components, List.splitOnP_eq_singleton hseg] at h
    obtain ⟨rfl, hlast⟩ := List.append_inj' ((List.nil_append [seg]).trans h) rfl
    obtain rfl := (List.cons.inj hlast).1
    simp
  | cons c rest ih =>
    by_cases hc : is_separator c = true
    · rw [entry_components, List.splitOnP_append_cons_of_forall_mem hseg c hc] at h
      cases head with
      | nil =>
        have hnil := (List.cons.inj h).2
        exact absurd hnil (List.splitOnP_ne_nil _ _)
      | cons s head =>
        obtain ⟨rfl, htail⟩ := List.cons.inj h
        have hlen := ih [] (by simp) htail
        rw [List.length_nil, Nat.zero_add] at hlen
        rw [List.map_cons, List.sum_cons, List.length_cons]
        omega
    · have happ : seg ++ c :: rest = seg ++ [c] ++ rest := by simp
      rw [happ] at h
      have hlen := ih (seg ++ [c]) (by
        intro b hb
        rcases List.mem_append.mp hb with hb | hb
        · exact hseg b hb
        · rw [List.mem_singleton.mp hb]
          simpa using hc) h
      rw [List.length_append, List.length_singleton] at hlen
      rw [List.length_cons]
      omega

/-! ## The loop

The loop keeps three parts apart: what is closed, the current component, the rest of the input.
-/

/-- **The loop.** `pre` is written and closed, `seg` is the component it is in, and there is room
for what is left. It closes every component but the last, and it strips the last one if the room
for one byte more than the terminator is still there when it gets to the end. -/
theorem normalize_loop_eq {dstsz : ℕ} (rest seg pre : Bytes)
    (hseg : ∀ c ∈ seg, is_separator c = false)
    (hroom : pre.length + seg.length + rest.length + 1 ≤ dstsz) :
    ∃ head last, entry_components (seg ++ rest) = head ++ [last] ∧
      normalize_loop dstsz rest (pre ++ seg.map ascii_lower) pre.length =
        pre ++ closed head ++
          if pre.length + (closed head).length + last.length + 1 < dstsz then trimmed last
          else last.map ascii_lower := by
  induction rest generalizing seg pre with
  | nil =>
    refine ⟨[], seg, ?_, ?_⟩
    · rw [List.append_nil, entry_components, List.splitOnP_eq_singleton hseg]
      rfl
    · rw [normalize_loop]
      have hlen : (pre ++ seg.map ascii_lower).length + 1 < dstsz ↔
          pre.length + (closed []).length + seg.length + 1 < dstsz := by
        rw [List.length_append, List.length_map]
        rfl
      -- the end of the name is seen only if there is room for one byte more than the terminator
      by_cases hfits : pre.length + (closed []).length + seg.length + 1 < dstsz
      · rw [if_pos (hlen.mpr hfits), if_pos hfits, strip_segment, List.take_left, List.drop_left,
          closed, List.flatMap_nil, List.append_nil, trimmed]
      · rw [if_neg (fun h => hfits (hlen.mp h)), if_neg hfits, closed, List.flatMap_nil,
          List.append_nil]
  | cons c rest ih =>
    rw [List.length_cons] at hroom
    rw [normalize_loop, if_pos (by rw [List.length_append, List.length_map]; omega)]
    -- a separator closes the component; any other byte lengthens it
    by_cases hc : is_separator c = true
    · have hle := trimmed_length_le seg
      have hstrip : strip_segment (pre ++ seg.map ascii_lower) pre.length = pre ++ trimmed seg := by
        rw [strip_segment, List.take_left, List.drop_left, trimmed]
      obtain ⟨head, last, hcomp, hloop⟩ := ih [] (pre ++ trimmed seg ++ [0x2F]) (by simp) (by
        simp only [List.length_append, List.length_cons, List.length_nil]
        omega)
      refine ⟨seg :: head, last, ?_, ?_⟩
      · rw [entry_components, List.splitOnP_append_cons_of_forall_mem hseg c hc]
        exact congrArg (seg :: ·) hcomp
      · simp only [hc, if_true, hstrip]
        rw [List.map_nil, List.append_nil] at hloop
        rw [hloop, closed_cons]
        have hlen : (pre ++ trimmed seg ++ [0x2F]).length + (closed head).length =
            pre.length + (trimmed seg ++ 0x2F :: closed head).length := by
          simp only [List.length_append, List.length_cons, List.length_nil]
          omega
        rw [hlen, ← List.append_assoc pre, List.append_assoc (pre ++ trimmed seg) [0x2F],
          List.singleton_append]
    · have hc' : is_separator c = false := by simpa using hc
      obtain ⟨head, last, hcomp, hloop⟩ := ih (seg ++ [c]) pre (by
          intro b hb
          rcases List.mem_append.mp hb with hb | hb
          · exact hseg b hb
          · rw [List.mem_singleton.mp hb]
            exact hc')
        (by
          rw [List.length_append, List.length_singleton]
          omega)
      refine ⟨head, last, ?_, ?_⟩
      · rw [← hcomp, List.append_assoc]
        rfl
      · rw [List.map_append, ← List.append_assoc, List.map_singleton] at hloop
        simp only [hc', Bool.false_eq_true, if_false]
        exact hloop

/-- What closing the components saves. -/
theorem closed_length (head : List Bytes) :
    (closed head).length ≤ (head.map fun s => s.length + 1).sum ∧
      ((closed head).length = (head.map fun s => s.length + 1).sum ↔
        ∀ seg ∈ head, is_padded seg = false) := by
  induction head with
  | nil => simp [closed]
  | cons seg head ih =>
    obtain ⟨hle, heq⟩ := ih
    rw [closed_cons, List.length_append, List.length_cons, List.map_cons, List.sum_cons]
    have hseg := trimmed_length_le seg
    refine ⟨by omega, ?_⟩
    rw [List.forall_mem_cons, ← heq]
    cases hp : is_padded seg with
    | false =>
      have hlen : (trimmed seg).length = seg.length := by
        rw [trimmed_of_not_padded hp, List.length_map]
      simp only [true_and]
      omega
    | true =>
      have hlt := trimmed_length_lt hp
      simp only [Bool.true_eq_false, false_and, iff_false]
      omega

/-- **When the normalisation is the specification**, for every buffer that holds the name: exactly
when the loop gets to strip the last component, or the last component does not need it. -/
theorem pakka_normalize_entry_name_eq_iff {name : CStr} {dstsz : ℕ}
    (hsize : name.strlen + 1 ≤ dstsz) :
    pakka_normalize_entry_name name dstsz = normal_form name.bytes ↔
      normalized_in_full name dstsz := by
  have hroom : ([] : Bytes).length + ([] : Bytes).length + name.bytes.length + 1 ≤ dstsz := by
    simpa [CStr.strlen] using hsize
  obtain ⟨head, last, hcomp, hloop⟩ := normalize_loop_eq name.bytes [] [] (by simp) hroom
  have hcomp' : entry_components name.bytes = head ++ [last] := hcomp
  have hlen := entry_components_length [] name.bytes (by simp) hcomp
  have hform : normal_form name.bytes = closed head ++ trimmed last := by
    rw [normal_form, hcomp', List.map_append, List.map_singleton, intercalate_closed]
  have hout : pakka_normalize_entry_name name dstsz = closed head ++
      if (closed head).length + last.length + 1 < dstsz then trimmed last
      else last.map ascii_lower := by
    rw [pakka_normalize_entry_name, if_neg (by omega)]
    simpa using hloop
  obtain ⟨hle, heq⟩ := closed_length head
  rw [hform, hout, List.append_cancel_left_eq, normalized_in_full, hcomp', List.dropLast_concat,
    List.getLastD_concat]
  rw [List.length_nil, Nat.zero_add] at hlen
  change _ = name.strlen at hlen
  by_cases hfits : (closed head).length + last.length + 1 < dstsz
  · rw [if_pos hfits]
    refine iff_of_true rfl ?_
    -- there was room, so either there is more of it than the name takes or something was saved
    by_cases hmore : name.strlen + 2 ≤ dstsz
    · exact Or.inl hmore
    · refine Or.inr (Or.inl ?_)
      by_contra hnone
      push Not at hnone
      have hsame := heq.mpr fun seg hs => by simpa using hnone seg hs
      omega
  · rw [if_neg hfits]
    have hsame : (closed head).length = (head.map fun s => s.length + 1).sum := by omega
    have hnone := heq.mp hsame
    constructor
    · intro heq
      refine Or.inr (Or.inr ?_)
      cases hp : is_padded last with
      | false => rfl
      | true =>
        have hlt := trimmed_length_lt hp
        rw [← heq, List.length_map] at hlt
        exact absurd hlt (Nat.lt_irrefl _)
    · rintro (hmore | ⟨seg, hs, hp⟩ | hlast)
      · omega
      · rw [hnone seg hs] at hp
        cases hp
      · exact (trimmed_of_not_padded hlast).symm

/-! ## Normalising again

A normal form is its own normal form, and whether the loop computes it is decided by the name and
the size of the buffer.
-/

/-- Folding keeps separators apart from the rest, is done once, and makes no NUL. -/
theorem ascii_lower_separator : ∀ c : UInt8, is_separator (ascii_lower c) = is_separator c :=
  forall_byte (by decide +kernel)

theorem ascii_lower_idem : ∀ c : UInt8, ascii_lower (ascii_lower c) = ascii_lower c :=
  forall_byte (by decide +kernel)

theorem component_bytes {bs : Bytes} {seg : Bytes} (hs : seg ∈ entry_components bs) {c : UInt8}
    (hc : c ∈ seg) : is_separator c = false ∧ c ∈ bs := by
  induction bs generalizing seg with
  | nil =>
    rw [entry_components, List.splitOnP_nil, List.mem_singleton] at hs
    rw [hs] at hc
    cases hc
  | cons b bs ih =>
    rw [entry_components, List.splitOnP_cons_eq_if_modifyHead] at hs
    split_ifs at hs with hb
    · rcases List.mem_cons.mp hs with rfl | hs
      · cases hc
      · exact ⟨(ih hs hc).1, List.mem_cons_of_mem b (ih hs hc).2⟩
    · obtain ⟨first, rest, hsplit⟩ :=
        List.exists_cons_of_ne_nil (List.splitOnP_ne_nil is_separator bs)
      have hmem : ∀ s, s ∈ first :: rest → s ∈ entry_components bs := fun s h => by
        rw [entry_components, hsplit]
        exact h
      rw [hsplit, List.modifyHead_cons] at hs
      rcases List.mem_cons.mp hs with rfl | hs
      · rcases List.mem_cons.mp hc with rfl | hc
        · exact ⟨by simpa using hb, List.mem_cons_self⟩
        · have h := ih (hmem first List.mem_cons_self) hc
          exact ⟨h.1, List.mem_cons_of_mem b h.2⟩
      · have h := ih (hmem seg (List.mem_cons_of_mem _ hs)) hc
        exact ⟨h.1, List.mem_cons_of_mem b h.2⟩

/-- The bytes of a stripped component are folded bytes of the component. -/
theorem mem_trimmed {seg : Bytes} {c : UInt8} (h : c ∈ trimmed seg) :
    ∃ b ∈ seg, ascii_lower b = c :=
  List.mem_map.mp ((List.rdropWhile_prefix _ _).subset h)

/-- What was stripped has nothing left to strip. -/
theorem is_padded_trimmed (seg : Bytes) : is_padded (trimmed seg) = false := by
  by_contra hpad
  rw [Bool.not_eq_false, is_padded, Option.any_eq_true] at hpad
  obtain ⟨c, hc, hdot⟩ := hpad
  have hne : trimmed seg ≠ [] := by
    intro hnil
    rw [hnil] at hc
    cases hc
  have hlast := List.rdropWhile_last_not _ (seg.map ascii_lower) hne
  have hget : (trimmed seg).getLast hne = c :=
    Option.some.inj ((List.getLast?_eq_some_getLast hne).symm.trans hc)
  exact hlast (by rw [← hget] at hdot; exact hdot)

theorem trimmed_idem (seg : Bytes) : trimmed (trimmed seg) = trimmed seg := by
  rw [trimmed_of_not_padded (is_padded_trimmed seg)]
  conv_rhs => rw [← List.map_id (trimmed seg)]
  apply List.map_congr_left
  intro c hc
  obtain ⟨b, -, rfl⟩ := mem_trimmed hc
  exact ascii_lower_idem b

/-- Joined components split again. -/
theorem entry_components_intercalate {segs : List Bytes} (hne : segs ≠ [])
    (hsegs : ∀ seg ∈ segs, ∀ c ∈ seg, is_separator c = false) :
    entry_components ([0x2F].intercalate segs) = segs := by
  induction segs with
  | nil => exact absurd rfl hne
  | cons seg segs ih =>
    rw [List.forall_mem_cons] at hsegs
    cases segs with
    | nil => rw [List.intercalate_singleton, entry_components, List.splitOnP_eq_singleton hsegs.1]
    | cons next segs =>
      rw [List.intercalate_cons_cons, List.append_assoc, List.singleton_append, entry_components,
        List.splitOnP_append_cons_of_forall_mem hsegs.1 0x2F (by decide)]
      exact congrArg (seg :: ·) (ih (List.cons_ne_nil _ _) hsegs.2)

theorem mem_intercalate {segs : List Bytes} {c : UInt8} (h : c ∈ [0x2F].intercalate segs) :
    c = 0x2F ∨ ∃ seg ∈ segs, c ∈ seg := by
  induction segs with
  | nil => cases h
  | cons seg segs ih =>
    cases segs with
    | nil =>
      rw [List.intercalate_singleton] at h
      exact Or.inr ⟨seg, List.mem_cons_self, h⟩
    | cons next segs =>
      rw [List.intercalate_cons_cons, List.append_assoc, List.singleton_append,
        List.mem_append, List.mem_cons] at h
      rcases h with h | h | h
      · exact Or.inr ⟨seg, List.mem_cons_self, h⟩
      · exact Or.inl h
      · rcases ih h with h | ⟨s, hs, hc⟩
        · exact Or.inl h
        · exact Or.inr ⟨s, List.mem_cons_of_mem _ hs, hc⟩

theorem entry_components_normal_form (bs : Bytes) :
    entry_components (normal_form bs) = (entry_components bs).map trimmed := by
  apply entry_components_intercalate
  · rw [Ne, List.map_eq_nil_iff]
    exact List.splitOnP_ne_nil is_separator bs
  · intro seg hseg c hc
    obtain ⟨s, hs, rfl⟩ := List.mem_map.mp hseg
    obtain ⟨b, hb, rfl⟩ := mem_trimmed hc
    rw [ascii_lower_separator]
    exact (component_bytes hs hb).1

theorem normal_form_idem (bs : Bytes) : normal_form (normal_form bs) = normal_form bs := by
  rw [normal_form, entry_components_normal_form, List.map_map, normal_form]
  congr 1
  exact List.map_congr_left fun seg _ => trimmed_idem seg

theorem normal_form_no_nul {bs : Bytes} (h : (0 : UInt8) ∉ bs) : (0 : UInt8) ∉ normal_form bs := by
  intro h0
  rcases mem_intercalate h0 with h0 | ⟨seg, hseg, h0⟩
  · cases h0
  · obtain ⟨s, hs, rfl⟩ := List.mem_map.mp hseg
    obtain ⟨b, hb, hb0⟩ := mem_trimmed h0
    rw [(ascii_lower_eq (by decide)).mp hb0] at hb
    exact h (component_bytes hs hb).2

/-- What the normalisation of a name is for: the result is the specification, and normalising it
again, into any buffer that holds it, changes nothing. -/
def normalizes (name : CStr) (dstsz : ℕ) : Prop :=
  ∃ norm : CStr, norm.bytes = pakka_normalize_entry_name name dstsz ∧
    norm.bytes = normal_form name.bytes ∧
    ∀ size, norm.strlen + 1 ≤ size → pakka_normalize_entry_name norm size = norm.bytes

/-- **The normalisation does what it is for exactly when the loop gets to the end of the name**:
for every name and every buffer that holds it, when the buffer has a byte to spare, or an earlier
component was stripped, or the last one ends in neither dot nor space. -/
theorem normalizes_iff (name : CStr) (dstsz : ℕ) (hsize : name.strlen + 1 ≤ dstsz) :
    normalizes name dstsz ↔ normalized_in_full name dstsz := by
  rw [← pakka_normalize_entry_name_eq_iff hsize]
  constructor
  · rintro ⟨norm, hout, hform, -⟩
    exact hout.symm.trans hform
  · intro heq
    refine ⟨⟨normal_form name.bytes, normal_form_no_nul name.no_nul⟩, heq.symm, rfl, ?_⟩
    intro size hfits
    refine ((pakka_normalize_entry_name_eq_iff hfits).mpr ?_).trans (normal_form_idem name.bytes)
    -- no component of a normal form ends in a dot or a space
    refine Or.inr (Or.inr ?_)
    rw [entry_components_normal_form]
    cases hlast : (entry_components name.bytes).getLast? with
    | none =>
      rw [List.getLastD_eq_getLast?, List.getLast?_map, hlast]
      rfl
    | some seg =>
      rw [List.getLastD_eq_getLast?, List.getLast?_map, hlast]
      exact is_padded_trimmed seg

/-- The name `a.` in a buffer of three bytes, the size every caller passes. -/
theorem normalizes_iff_room :
    CStr.strlen ⟨[0x61, 0x2E], by decide⟩ + 1 ≤ 3 ∧
      (normalizes ⟨[0x61, 0x2E], by decide⟩ 3 ↔
        normalized_in_full ⟨[0x61, 0x2E], by decide⟩ 3) :=
  ⟨by decide, normalizes_iff ⟨[0x61, 0x2E], by decide⟩ 3 (by decide)⟩

/-- There the dot stays, so `a.` and `a` are told apart. -/
theorem trailing_dot_not_stripped :
    ¬ ∀ (name : CStr) (dstsz : ℕ), name.strlen + 1 ≤ dstsz → normalizes name dstsz := by
  intro h
  obtain ⟨norm, hout, hform, -⟩ := h ⟨[0x61, 0x2E], by decide⟩ 3 (by decide)
  rw [hout] at hform
  revert hform
  decide +kernel

end Pakka
