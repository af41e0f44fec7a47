/-
The names extraction writes under.

A target name is the entry name with every byte that starts no valid UTF-8 sequence replaced by
an underscore. The safety check looks at the raw name, one path component at a time; the collision
check at the normalised target. The lemmas here say how the three go together: replacing keeps a
safe name safe, and of safe names the normalisation strips nothing.

Each of the three is a loop over the bytes of a name with a state of its own. The lemmas replace the
loops by statements about components, and about bytes one at a time: what is replaced is a byte
above 127, and what is folded is not.
-/
import Pakka.Names
import Mathlib.Data.List.Forall2

set_option autoImplicit false

namespace Pakka

open ByteImage

/-! ## Substitution

The substitution as the code has it, by the length of the UTF-8 sequence at each position.
-/

/-- `pakka_utf8_seq_len`. -/
def pakka_utf8_seq_len : Bytes → ℕ
  | [] => 0
  | c :: rest =>
    if c < 0x80 then 1
    else if c &&& 0xE0 = 0xC0 then
      if c < 0xC2 then 0
      else
        match rest with
        | c1 :: _ => if is_continuation c1 then 2 else 0
        | _ => 0
    else if c &&& 0xF0 = 0xE0 then
      match rest with
      | c1 :: c2 :: _ =>
        if !is_continuation c1 || !is_continuation c2 then 0
        else if cp3 c c1 c2 < 0x800 then 0
        else if cp3 c c1 c2 ≥ 0xD800 && cp3 c c1 c2 ≤ 0xDFFF then 0
        else 3
      | _ => 0
    else if c &&& 0xF8 = 0xF0 then
      if c > 0xF4 then 0
      else
        match rest with
        | c1 :: c2 :: c3 :: _ =>
          if !is_continuation c1 then 0
          else if !is_continuation c2 then 0
          else if !is_continuation c3 then 0
          else if cp4 c c1 c2 c3 < 0x10000 then 0
          else if cp4 c c1 c2 c3 > 0x10FFFF then 0
          else 4
        | _ => 0
    else 0

/-- The loop of `pakka_utf8_substitute_invalid`, with `out` written so far. -/
def substitute_loop (cap : ℕ) (fill : UInt8) (src out : Bytes) (substituted : Bool) :
    Bytes × Bool :=
  match src with
  | [] => (out, substituted)
  | c :: rest =>
    let seq := pakka_utf8_seq_len (c :: rest)
    if seq = 0 then
      if out.length + 1 ≥ cap then (out, substituted)
      else substitute_loop cap fill rest (out ++ [fill]) true
    else if out.length + seq ≥ cap then (out, substituted)
    else
      substitute_loop cap fill ((c :: rest).drop seq) (out ++ (c :: rest).take seq) substituted
  termination_by src.length
  decreasing_by
    · simp
    · rename_i hseq _
      simp only [List.length_drop, List.length_cons]
      omega

/-- `pakka_utf8_substitute_invalid` into a buffer of `cap` bytes: the string in it, and whether
anything was replaced. -/
def pakka_utf8_substitute_invalid (src : CStr) (cap : ℕ) (fill : UInt8) : CStr × Bool :=
  if cap = 0 then (.empty, false)
  else
    let r := substitute_loop cap fill src.bytes [] false
    (.ofField r.1, r.2)

/-- The name an entry is extracted under. -/
def extract_name (name : CStr) : CStr :=
  let r := pakka_utf8_substitute_invalid name (PAKKA_ENTRY_NAME_SIZE * 4 + 1) 0x5F
  if r.2 then r.1 else name

/-- The name the collision check compares. -/
def extract_norm (name : CStr) : Bytes :=
  pakka_normalize_entry_name (extract_name name) ((extract_name name).strlen + 1)

/-! ### What is replaced

A byte is kept or becomes an underscore, and only bytes above 127 are replaced. This is all the
later lemmas use.
-/

/-- The second string is the first with some bytes from `0x80` on turned into underscores. -/
def Underscored : Bytes → Bytes → Prop :=
  List.Forall₂ fun c d => d = c ∨ (¬ c < 0x80 ∧ d = 0x5F)

theorem Underscored.refl (bs : Bytes) : Underscored bs bs :=
  List.forall₂_same.mpr fun _ _ => Or.inl rfl

theorem pakka_utf8_seq_len_ascii {c : UInt8} (rest : Bytes) (h : c < 0x80) :
    pakka_utf8_seq_len (c :: rest) = 1 := by
  unfold pakka_utf8_seq_len
  simp only
  rw [if_pos h]

/-- A byte that is replaced is none of ASCII. -/
theorem high_of_seq_len_zero {c : UInt8} {rest : Bytes}
    (h : pakka_utf8_seq_len (c :: rest) = 0) : ¬ c < 0x80 := by
  intro hc
  rw [pakka_utf8_seq_len_ascii rest hc] at h
  cases h

/-- A sequence does not run past the end. -/
theorem pakka_utf8_seq_len_le (bs : Bytes) : pakka_utf8_seq_len bs ≤ bs.length := by
  have hite : ∀ {p : Prop} [Decidable p] {a b n : ℕ}, a ≤ n → b ≤ n →
      (if p then a else b) ≤ n := by
    intro p _ a b n ha hb
    split
    · exact ha
    · exact hb
  -- how many bytes there are decides which of the inner cases is left
  match bs with
  | [] => exact Nat.le_refl _
  | [c] | [c, c1] | [c, c1, c2] | c :: c1 :: c2 :: c3 :: rest =>
    rw [pakka_utf8_seq_len]
    repeat' apply hite
    all_goals simp

/-- The loop turns bytes into underscores one for one. -/
theorem substitute_loop_underscored {cap : ℕ} (src out : Bytes) (substituted : Bool)
    (hcap : out.length + src.length < cap) :
    ∃ more, (substitute_loop cap 0x5F src out substituted).1 = out ++ more ∧
      Underscored src more := by
  induction hn : src.length using Nat.strong_induction_on generalizing src out substituted with
  | _ n ih =>
    match src with
    | [] =>
      rw [substitute_loop]
      exact ⟨[], by simp, .nil⟩
    | c :: rest =>
      rw [List.length_cons] at hn hcap
      rw [substitute_loop]
      by_cases hseq : pakka_utf8_seq_len (c :: rest) = 0
      · rw [if_pos hseq, if_neg (by omega)]
        obtain ⟨more, h1, h2⟩ := ih rest.length (by omega) rest (out ++ [0x5F]) true
          (by rw [List.length_append, List.length_singleton]; omega) rfl
        refine ⟨0x5F :: more, ?_, .cons (Or.inr ⟨high_of_seq_len_zero hseq, rfl⟩) h2⟩
        rw [h1, List.append_assoc]
        rfl
      · have hle := pakka_utf8_seq_len_le (c :: rest)
        rw [List.length_cons] at hle
        generalize pakka_utf8_seq_len (c :: rest) = seq at hseq hle ⊢
        rw [if_neg hseq, if_neg (by omega)]
        obtain ⟨more, h1, h2⟩ := ih ((c :: rest).drop seq).length
          (by rw [List.length_drop, List.length_cons]; omega) ((c :: rest).drop seq)
          (out ++ (c :: rest).take seq) substituted
          (by
            rw [List.length_append, List.length_take, List.length_drop, List.length_cons]
            omega) rfl
        refine ⟨(c :: rest).take seq ++ more, ?_, ?_⟩
        · rw [h1, List.append_assoc]
        · have happ : Underscored ((c :: rest).take seq ++ (c :: rest).drop seq)
              ((c :: rest).take seq ++ more) := List.rel_append (Underscored.refl _) h2
          rwa [List.take_append_drop] at happ

/-- Where a byte of the target comes from. -/
theorem Underscored.mem {a b : Bytes} (h : Underscored a b) {d : UInt8} (hd : d ∈ b) :
    d = 0x5F ∨ d ∈ a := by
  induction h with
  | nil => cases hd
  | cons hcd _ ih =>
    rcases List.mem_cons.mp hd with rfl | hd
    · rcases hcd with rfl | ⟨-, hfill⟩
      · exact Or.inr List.mem_cons_self
      · exact Or.inl hfill
    · exact (ih hd).imp_right (List.mem_cons_of_mem _)

/-- The loop over an entry name, into a buffer that is always large enough. -/
theorem substitute_name {name : CStr} (hfits : name.strlen < PAKKA_ENTRY_NAME_SIZE) :
    Underscored name.bytes
      (substitute_loop (PAKKA_ENTRY_NAME_SIZE * 4 + 1) 0x5F name.bytes [] false).1 := by
  have hlen : name.bytes.length < PAKKA_ENTRY_NAME_SIZE := hfits
  have hcap : ([] : Bytes).length + name.bytes.length < PAKKA_ENTRY_NAME_SIZE * 4 + 1 := by
    rw [List.length_nil]
    omega
  obtain ⟨more, h1, h2⟩ := substitute_loop_underscored name.bytes [] false hcap
  rwa [h1, List.nil_append]

/-- The bytes of a target name. -/
theorem extract_name_bytes {name : CStr} (hfits : name.strlen < PAKKA_ENTRY_NAME_SIZE) :
    (extract_name name).bytes =
      if (substitute_loop (PAKKA_ENTRY_NAME_SIZE * 4 + 1) 0x5F name.bytes [] false).2 = true then
        (substitute_loop (PAKKA_ENTRY_NAME_SIZE * 4 + 1) 0x5F name.bytes [] false).1
      else name.bytes := by
  have hunder := substitute_name hfits
  simp only [extract_name, pakka_utf8_substitute_invalid, Nat.add_eq_zero_iff, one_ne_zero,
    and_false, if_false]
  split_ifs
  · refine List.takeWhile_eq_self_iff.mpr ?_
    intro b hb
    simp only [ne_eq, decide_not, Bool.not_eq_true', decide_eq_false_iff_not]
    rintro rfl
    rcases hunder.mem hb with hfill | hmem
    · exact absurd hfill (by decide)
    · exact name.no_nul hmem
  · rfl

/-- **The target name is the raw name with underscores in it.** -/
theorem extract_name_underscored {name : CStr} (hfits : name.strlen < PAKKA_ENTRY_NAME_SIZE) :
    Underscored name.bytes (extract_name name).bytes := by
  rw [extract_name_bytes hfits]
  split_ifs
  · exact substitute_name hfits
  · exact Underscored.refl _

/-! ## Components

The components of a name at its separators, which the safety check walks over.
-/

/-- The components of a name: what stands between its separators. -/
def entry_components (bs : Bytes) : List Bytes := bs.splitOnP is_separator

/-- The walk over the segments looks at every component. -/
theorem unsafe_segments_components (rest seg : Bytes) (hseg : ∀ c ∈ seg, is_separator c = false) :
    unsafe_segments rest seg = false ↔
      ∀ s ∈ entry_components (seg ++ rest), is_unsafe_segment s = false := by
  induction rest generalizing seg with
  | nil =>
    rw [List.append_nil, entry_components, List.splitOnP_eq_singleton hseg, unsafe_segments]
    simp
  | cons c rest ih =>
    rw [unsafe_segments]
    by_cases hc : is_separator c = true
    · rw [if_pos hc, entry_components, List.splitOnP_append_cons_of_forall_mem hseg c hc,
        List.forall_mem_cons]
      by_cases hs : is_unsafe_segment seg = true
      · rw [if_pos hs, hs]
        simp
      · rw [if_neg hs, ih [] (by simp)]
        simp [hs, entry_components]
    · rw [if_neg hc, ih, List.append_assoc]
      · rfl
      · intro b hb
        rcases List.mem_append.mp hb with hb | hb
        · exact hseg b hb
        · rw [List.mem_singleton.mp hb]
          simpa using hc

/-- **A name is safe if every component is.** -/
theorem pakka_unsafe_entry_name_eq_false {name : CStr} :
    pakka_unsafe_entry_name name = false ↔
      ∀ s ∈ entry_components name.bytes, is_unsafe_segment s = false := by
  have hempty : is_unsafe_segment [] = true := rfl
  unfold pakka_unsafe_entry_name
  split
  · rename_i hn
    simp [hn, entry_components, hempty]
  · rename_i c rest hn
    rw [hn]
    by_cases hc : is_separator c = true
    · rw [if_pos hc]
      have hfirst : entry_components (c :: rest) = [] :: entry_components rest :=
        @List.splitOnP_append_cons_of_forall_mem _ is_separator [] (by simp) c hc rest
      rw [hfirst]
      simp [hempty]
    · rw [if_neg hc]
      simpa using unsafe_segments_components (c :: rest) [] (by simp)

/-! ## Underscores keep a name safe

An underscore is no separator, no dot, no space and in no device name, so replacing cannot make a
component unsafe.
-/

/-- No byte from `0x80` on is an ASCII byte. -/
theorem high_ne {c d : UInt8} (hc : ¬ c < 0x80) (hd : d < 0x80) : c ≠ d := by
  rintro rfl
  exact hc hd

/-- A byte of a target name other than an underscore is the raw byte. -/
theorem underscored_byte {c d x : UInt8} (h : d = c ∨ (¬ c < 0x80 ∧ d = 0x5F)) (hx : x < 0x80)
    (hfill : x ≠ 0x5F) : d = x ↔ c = x := by
  rcases h with rfl | ⟨hc, rfl⟩
  · exact Iff.rfl
  · exact iff_of_false (Ne.symm hfill) (high_ne hc hx)

theorem underscored_separator {c d : UInt8} (h : d = c ∨ (¬ c < 0x80 ∧ d = 0x5F)) :
    is_separator d = is_separator c := by
  simp only [is_separator, underscored_byte h (x := 0x2F) (by decide) (by decide),
    underscored_byte h (x := 0x5C) (by decide) (by decide)]

/-- The components correspond. -/
theorem Underscored.components {a b : Bytes} (h : Underscored a b) :
    List.Forall₂ Underscored (entry_components a) (entry_components b) := by
  induction h with
  | nil => exact .cons .nil .nil
  | cons hcd _ ih =>
    rw [entry_components, entry_components, List.splitOnP_cons_eq_if_modifyHead,
      List.splitOnP_cons_eq_if_modifyHead, underscored_separator hcd]
    split_ifs
    · exact .cons .nil ih
    · unfold entry_components at ih
      revert ih
      generalize List.splitOnP is_separator _ = as, List.splitOnP is_separator _ = bs
      intro ih
      cases ih with
      | nil => exact .nil
      | cons hfirst hrest => exact .cons (.cons hcd hfirst) hrest

/-- A string in which nothing was replaced by an underscore is the raw one. -/
theorem Underscored.eq_of_no_fill {a b : Bytes} (h : Underscored a b) (hb : (0x5F : UInt8) ∉ b) :
    b = a := by
  induction h with
  | nil => rfl
  | cons hcd _ ih =>
    rw [List.mem_cons, not_or] at hb
    rcases hcd with rfl | ⟨-, hfill⟩
    · rw [ih hb.2]
    · exact absurd hfill.symm hb.1

theorem Underscored.getLast? {a b : Bytes} (h : Underscored a b) {x : UInt8} (hx : x < 0x80)
    (hfill : x ≠ 0x5F) : b.getLast? = some x ↔ a.getLast? = some x := by
  induction h with
  | nil => rfl
  | @cons c d a b hcd hab ih =>
    cases hab with
    | nil => simpa using underscored_byte hcd hx hfill
    | cons => simpa using ih

theorem Underscored.takeWhile {a b : Bytes} (h : Underscored a b) {x : UInt8} (hx : x < 0x80)
    (hfill : x ≠ 0x5F) : Underscored (a.takeWhile (· ≠ x)) (b.takeWhile (· ≠ x)) := by
  induction h with
  | nil => exact .nil
  | cons hcd _ ih =>
    simp only [List.takeWhile_cons, ne_eq, underscored_byte hcd hx hfill]
    split_ifs
    · exact .cons hcd ih
    · exact .nil

/-- No reserved name has an underscore in it. -/
theorem win_reserved_no_fill : ∀ name ∈ win_reserved_names, (0x5F : UInt8) ∉ name := by
  decide +kernel

theorem is_reserved_underscored {a b : Bytes} (h : Underscored a b)
    (ha : is_reserved_device_name a = false) : is_reserved_device_name b = false := by
  have hbase := h.takeWhile (x := 0x2E) (by decide) (by decide)
  unfold is_reserved_device_name at ha ⊢
  simp only at ha ⊢
  generalize a.takeWhile (· ≠ 0x2E) = base at hbase ha
  generalize b.takeWhile (· ≠ 0x2E) = base' at hbase ⊢
  rw [Bool.eq_false_iff]
  intro hany
  obtain ⟨name, hname, hmatch⟩ := List.any_eq_true.mp hany
  simp only [Bool.and_eq_true, decide_eq_true_eq] at hmatch
  -- the upper case of the target's base has no underscore, so it is the raw base
  have hfill : (0x5F : UInt8) ∉ base' := by
    intro hmem
    refine win_reserved_no_fill name hname ?_
    rw [← hmatch.2]
    exact List.mem_map.mpr ⟨0x5F, hmem, rfl⟩
  rw [hbase.eq_of_no_fill hfill] at hmatch
  rw [List.any_eq_false] at ha
  exact ha name hname (by simpa using hmatch)

/-- **Underscores keep a component safe.** -/
theorem is_unsafe_segment_underscored {a b : Bytes} (h : Underscored a b)
    (ha : is_unsafe_segment a = false) : is_unsafe_segment b = false := by
  unfold is_unsafe_segment at ha ⊢
  split_ifs at ha with h1 h2 h3 h4 h5
  have hlen : a.length = b.length := h.length_eq
  have h2' : b ≠ [0x2E] := by
    rintro rfl
    exact h2 (h.eq_of_no_fill (by decide)).symm
  have h3' : b ≠ [0x2E, 0x2E] := by
    rintro rfl
    exact h3 (h.eq_of_no_fill (by decide)).symm
  have h4' : ¬ b.any (fun c => c < 0x20 || c = 0x7F || c = 0x3A) = true := by
    intro hany
    obtain ⟨d, hd, hbad⟩ := List.any_eq_true.mp hany
    rcases h.mem hd with rfl | hd
    · exact absurd hbad (by decide)
    · exact h4 (List.any_eq_true.mpr ⟨d, hd, hbad⟩)
  have h5' : ¬ (b.getLast? = some 0x2E || b.getLast? = some 0x20) = true := by
    simpa only [h.getLast? (x := 0x2E) (by decide) (by decide),
      h.getLast? (x := 0x20) (by decide) (by decide)] using h5
  rw [if_neg (by omega), if_neg h2', if_neg h3', if_neg h4', if_neg h5']
  exact is_reserved_underscored h ha

/-- **Underscores keep a name safe.** -/
theorem unsafe_underscored {name target : CStr} (h : Underscored name.bytes target.bytes)
    (hsafe : pakka_unsafe_entry_name name = false) : pakka_unsafe_entry_name target = false := by
  rw [pakka_unsafe_entry_name_eq_false] at hsafe ⊢
  have hcomp := h.components
  revert hsafe
  generalize entry_components name.bytes = as, entry_components target.bytes = bs at hcomp
  intro hsafe
  induction hcomp with
  | nil => exact hsafe
  | cons hseg _ ih =>
    rw [List.forall_mem_cons] at hsafe ⊢
    exact ⟨is_unsafe_segment_underscored hseg hsafe.1, ih hsafe.2⟩

/-! ## Normalisation of safe names

Of a safe component nothing is stripped. What normalisation still does is to fold the case and the
separators, byte by byte.
-/

/-- A byte of a normalised name. -/
def fold_byte (c : UInt8) : UInt8 := if is_separator c then 0x2F else ascii_lower c

/-- What names are told apart by on a filesystem that ignores case, takes either separator and
drops trailing dots and spaces: their components, folded and stripped. -/
def portable_form (bs : Bytes) : List Bytes :=
  (entry_components bs).map fun seg =>
    (seg.map ascii_lower).rdropWhile fun c => c = 0x2E || c = 0x20

/-- Folding touches upper case letters only. -/
theorem ascii_lower_eq {c x : UInt8} (hx : x < 0x41) : ascii_lower c = x ↔ c = x := by
  unfold ascii_lower
  split_ifs with h
  · simp only [Bool.and_eq_true, decide_eq_true_eq, UInt8.le_iff_toNat_le] at h
    have hx' : x.toNat < 65 := UInt8.lt_iff_toNat_lt.mp hx
    rw [← UInt8.toNat_inj, ← UInt8.toNat_inj, UInt8.toNat_add, UInt8.toNat_sub]
    simp only [UInt8.reduceToNat] at h ⊢
    omega
  · exact Iff.rfl

/-- A safe component is not stripped. -/
theorem safe_segment_not_stripped {seg : Bytes} (h : is_unsafe_segment seg = false) {c : UInt8}
    (hc : seg.getLast? = some c) : (ascii_lower c = 0x2E || ascii_lower c = 0x20) = false := by
  unfold is_unsafe_segment at h
  split_ifs at h with h1 h2 h3 h4 h5
  rw [hc] at h5
  simpa [ascii_lower_eq (x := 0x2E) (by decide), ascii_lower_eq (x := 0x20) (by decide)] using h5

theorem rdropWhile_eq_self {p : UInt8 → Bool} {bs : Bytes}
    (h : ∀ c, bs.getLast? = some c → p c = false) : bs.rdropWhile p = bs := by
  rw [List.rdropWhile_eq_self_iff]
  intro hne
  simpa using h _ (List.getLast?_eq_some_getLast hne)

theorem safe_segment_strip {seg : Bytes} (h : is_unsafe_segment seg = false) :
    (seg.map ascii_lower).rdropWhile (fun c => c = 0x2E || c = 0x20) = seg.map ascii_lower := by
  refine rdropWhile_eq_self ?_
  intro c hc
  rw [List.getLast?_map, Option.map_eq_some_iff] at hc
  obtain ⟨b, hb, rfl⟩ := hc
  exact safe_segment_not_stripped h hb

/-- The loop over a safe name folds byte for byte. `pre` stands before the current segment. -/
theorem normalize_loop_safe {dstsz : ℕ} (rest seg pre : Bytes)
    (hseg : ∀ c ∈ seg, is_separator c = false)
    (hsafe : ∀ s ∈ entry_components (seg ++ rest), is_unsafe_segment s = false)
    (hsize : pre.length + seg.length + rest.length + 1 = dstsz) :
    normalize_loop dstsz rest (pre ++ seg.map ascii_lower) pre.length =
      pre ++ seg.map ascii_lower ++ rest.map fold_byte := by
  induction rest generalizing seg pre with
  | nil =>
    rw [normalize_loop, if_neg]
    · simp
    · rw [List.length_append, List.length_map]
      simp only [List.length_nil] at hsize
      omega
  | cons c rest ih =>
    rw [List.length_cons] at hsize
    rw [normalize_loop, if_pos (by rw [List.length_append, List.length_map]; omega)]
    by_cases hc : is_separator c = true
    · rw [entry_components, List.splitOnP_append_cons_of_forall_mem hseg c hc,
        List.forall_mem_cons] at hsafe
      have hstrip : strip_segment (pre ++ seg.map ascii_lower) pre.length =
          pre ++ seg.map ascii_lower := by
        rw [strip_segment, List.take_left, List.drop_left, safe_segment_strip hsafe.1]
      simp only [hc, if_true, hstrip]
      have hnext := ih [] (pre ++ seg.map ascii_lower ++ [0x2F]) (by simp)
        hsafe.2 (by simp only [List.length_append, List.length_map, List.length_cons,
          List.length_nil]; omega)
      rw [List.map_nil, List.append_nil] at hnext
      rw [hnext, List.map_cons, fold_byte, if_pos hc, List.append_assoc _ [0x2F]]
      rfl
    · have hc' : is_separator c = false := by simpa using hc
      have hnext := ih (seg ++ [c]) pre (by
          intro b hb
          rcases List.mem_append.mp hb with hb | hb
          · exact hseg b hb
          · rw [List.mem_singleton.mp hb]
            exact hc')
        (by rwa [List.append_assoc]) (by
          rw [List.length_append, List.length_singleton]
          omega)
      rw [List.map_append, ← List.append_assoc, List.map_singleton] at hnext
      simp only [hc', Bool.false_eq_true, if_false]
      rw [hnext, List.map_cons, fold_byte, if_neg hc, List.append_assoc _ [ascii_lower c]]
      rfl

/-- **A safe name is normalised byte for byte**: nothing is stripped. -/
theorem pakka_normalize_entry_name_safe {name : CStr}
    (hsafe : pakka_unsafe_entry_name name = false) :
    pakka_normalize_entry_name name (name.strlen + 1) = name.bytes.map fold_byte := by
  rw [pakka_unsafe_entry_name_eq_false] at hsafe
  rw [pakka_normalize_entry_name, if_neg (Nat.succ_ne_zero _)]
  have hsize : ([] : Bytes).length + ([] : Bytes).length + name.bytes.length + 1 =
      name.strlen + 1 := by simp [CStr.strlen]
  have h := normalize_loop_safe name.bytes [] [] (by simp) hsafe hsize
  simpa using h

/-- The folded name, from its components. -/
theorem map_fold_eq_intercalate (bs : Bytes) :
    bs.map fold_byte =
      List.intercalate [0x2F] ((entry_components bs).map (List.map ascii_lower)) := by
  induction bs with
  | nil => rfl
  | cons c bs ih =>
    rw [List.map_cons, ih, entry_components, entry_components,
      List.splitOnP_cons_eq_if_modifyHead, fold_byte]
    obtain ⟨seg, segs, hsegs⟩ := List.exists_cons_of_ne_nil (List.splitOnP_ne_nil is_separator bs)
    rw [hsegs]
    split_ifs with hc
    · rfl
    · cases segs with
      | nil => rfl
      | cons => rfl

/-- **Safe names that are told apart when folded are told apart by every filesystem.** -/
theorem map_fold_eq_of_portable_form {a b : CStr} (ha : pakka_unsafe_entry_name a = false)
    (hb : pakka_unsafe_entry_name b = false) (h : portable_form a.bytes = portable_form b.bytes) :
    a.bytes.map fold_byte = b.bytes.map fold_byte := by
  have hform : ∀ {name : CStr}, pakka_unsafe_entry_name name = false →
      portable_form name.bytes =
        (entry_components name.bytes).map (List.map ascii_lower) := by
    intro name hname
    rw [pakka_unsafe_entry_name_eq_false] at hname
    exact List.map_congr_left fun seg hseg => safe_segment_strip (hname seg hseg)
  rw [hform ha, hform hb] at h
  rw [map_fold_eq_intercalate, map_fold_eq_intercalate, h]

/-! ## Folding and substituting commute

Folding touches ASCII only, and where a sequence starts and ends is a matter of the other bytes.
-/

/-- A property of bytes holds if it holds of each. -/
theorem forall_byte {p : UInt8 → Prop} (h : ∀ n < 256, p (UInt8.ofNat n)) (c : UInt8) : p c := by
  have := h c.toNat (UInt8.toNat_lt c)
  rwa [UInt8.ofNat_toNat] at this

theorem fold_byte_ascii : ∀ c : UInt8, fold_byte c < 0x80 ↔ c < 0x80 :=
  forall_byte (by decide +kernel)

theorem fold_byte_high : ∀ c : UInt8, ¬ c < 0x80 → fold_byte c = c :=
  forall_byte (by decide +kernel)

theorem fold_byte_continuation : ∀ c : UInt8, is_continuation (fold_byte c) = is_continuation c :=
  forall_byte (by decide +kernel)

theorem continuation_high : ∀ c : UInt8, is_continuation c = true → ¬ c < 0x80 :=
  forall_byte (by decide +kernel)

theorem fold_of_continuation {c : UInt8} (h : is_continuation c = true) : fold_byte c = c :=
  fold_byte_high c (continuation_high c h)

/-- Folding changes no sequence. -/
theorem pakka_utf8_seq_len_fold (bs : Bytes) :
    pakka_utf8_seq_len (bs.map fold_byte) = pakka_utf8_seq_len bs := by
  match bs with
  | [] => rfl
  | c :: rest =>
    rw [List.map_cons]
    by_cases hc : c < 0x80
    · rw [pakka_utf8_seq_len_ascii _ hc,
        pakka_utf8_seq_len_ascii _ ((fold_byte_ascii c).mpr hc)]
    rw [fold_byte_high c hc]
    unfold pakka_utf8_seq_len
    match rest with
    | [] => rfl
    | [c1] => simp only [List.map_cons, List.map_nil, fold_byte_continuation]
    | [c1, c2] =>
      simp only [List.map_cons, List.map_nil, fold_byte_continuation]
      by_cases h1 : is_continuation c1 = true
      · by_cases h2 : is_continuation c2 = true
        · rw [fold_of_continuation h1, fold_of_continuation h2]
        · simp [h2]
      · simp [h1]
    | c1 :: c2 :: c3 :: rest =>
      simp only [List.map_cons, fold_byte_continuation]
      by_cases h1 : is_continuation c1 = true
      · by_cases h2 : is_continuation c2 = true
        · rw [fold_of_continuation h1, fold_of_continuation h2]
          by_cases h3 : is_continuation c3 = true
          · rw [fold_of_continuation h3]
          · simp [h3]
        · simp [h2]
      · simp [h1]

/-- The loop on a folded string. -/
theorem substitute_loop_fold {cap : ℕ} (src out : Bytes) (substituted : Bool) :
    substitute_loop cap 0x5F (src.map fold_byte) (out.map fold_byte) substituted =
      ((substitute_loop cap 0x5F src out substituted).1.map fold_byte,
        (substitute_loop cap 0x5F src out substituted).2) := by
  have hseq : ∀ c rest, pakka_utf8_seq_len (fold_byte c :: List.map fold_byte rest) =
      pakka_utf8_seq_len (c :: rest) := fun c rest => pakka_utf8_seq_len_fold (c :: rest)
  fun_induction substitute_loop cap 0x5F src out substituted with
  | case1 => rw [List.map_nil, substitute_loop]
  | case2 out substituted c rest seq hzero hfull =>
    rw [List.map_cons, substitute_loop, hseq, if_pos hzero,
      if_pos (by rwa [List.length_map])]
  | case3 out substituted c rest seq hzero hroom ih =>
    rw [List.map_cons, substitute_loop, hseq, if_pos hzero,
      if_neg (by rwa [List.length_map]), ← ih, List.map_append]
    rfl
  | case4 out substituted c rest seq hne hfull =>
    rw [List.map_cons, substitute_loop, hseq, if_neg hne,
      if_pos (by rwa [List.length_map])]
  | case5 out substituted c rest seq hne hroom ih =>
    rw [List.map_cons, substitute_loop, hseq, if_neg hne,
      if_neg (by rwa [List.length_map]), ← ih, List.map_append, List.map_drop, List.map_take]
    rfl

/-- **Names that fold alike are extracted under names that fold alike.** -/
theorem extract_name_fold {a b : CStr} (ha : a.strlen < PAKKA_ENTRY_NAME_SIZE)
    (hb : b.strlen < PAKKA_ENTRY_NAME_SIZE)
    (h : a.bytes.map fold_byte = b.bytes.map fold_byte) :
    (extract_name a).bytes.map fold_byte = (extract_name b).bytes.map fold_byte := by
  have hloop : ∀ name : CStr,
      substitute_loop (PAKKA_ENTRY_NAME_SIZE * 4 + 1) 0x5F (name.bytes.map fold_byte) [] false = _ :=
    fun name => substitute_loop_fold name.bytes [] false
  have hab := hloop b
  rw [← h, hloop a, Prod.mk.injEq] at hab
  rw [extract_name_bytes ha, extract_name_bytes hb, hab.2]
  split_ifs
  · exact hab.1
  · exact h

end Pakka
