/-
What `pakka_utf8_substitute_invalid` makes of a string.

The scan goes from left to right. A sequence it meets is kept, a byte that starts none is replaced
and the scan goes on with the next one. As the fill byte is a sequence of its own and no sequence
starts another, the result falls apart into sequences at the places where the scan stopped, so
nothing merges: it is well formed, and a second scan keeps all of it.

`Substituted` is the relation between a string and its projection, and it determines the projection.
The loop is shown to follow it until its room ends, so that what is left in a small buffer is a
beginning of the projection that ends between two sequences.
-/
import Pakka.Utf8Scan
import Pakka.Lib.Buffer

set_option autoImplicit false

namespace Pakka

open ByteImage

/-! ## The projection

The relation: sequences kept, other bytes replaced. It determines its result.
-/

/-- What the scan of the first string gives: its sequences, and `fill` for every other byte. -/
inductive Substituted (fill : UInt8) : Bytes → Bytes → Prop where
  | nil : Substituted fill [] []
  | keep {s rest out : Bytes} (hs : Utf8.Sequence s) (h : Substituted fill rest out) :
    Substituted fill (s ++ rest) (s ++ out)
  | replace {c : UInt8} {rest out : Bytes} (hno : ∀ s, Utf8.Sequence s → ¬ s <+: c :: rest)
    (h : Substituted fill rest out) : Substituted fill (c :: rest) (fill :: out)

theorem Substituted.length_eq {fill : UInt8} {src out : Bytes} (h : Substituted fill src out) :
    out.length = src.length := by
  induction h with
  | nil => rfl
  | keep hs h ih => rw [List.length_append, List.length_append, ih]
  | replace hno h ih => rw [List.length_cons, List.length_cons, ih]

/-- Where a byte of the result comes from. -/
theorem Substituted.mem {fill : UInt8} {src out : Bytes} (h : Substituted fill src out) {b : UInt8}
    (hb : b ∈ out) : b = fill ∨ b ∈ src := by
  induction h with
  | nil => exact Or.inr hb
  | keep hs h ih =>
    rcases List.mem_append.mp hb with hb | hb
    · exact Or.inr (List.mem_append_left _ hb)
    · exact (ih hb).imp_right (List.mem_append_right _)
  | replace hno h ih =>
    rcases List.mem_cons.mp hb with hb | hb
    · exact Or.inl hb
    · exact (ih hb).imp_right (List.mem_cons_of_mem _)

/-- The fill byte is a sequence. -/
theorem sequence_fill {fill : UInt8} (hfill : fill < 0x80) : Utf8.Sequence [fill] :=
  Utf8.sequence_one (UInt8.lt_iff_toNat_lt.mp hfill)

/-- **The result is well formed.** -/
theorem Substituted.wellFormed {fill : UInt8} (hfill : fill < 0x80) {src out : Bytes}
    (h : Substituted fill src out) : Utf8.WellFormed out := by
  induction h with
  | nil => exact .nil
  | keep hs h ih => exact hs.wellFormed_append.mpr ih
  | replace hno h ih =>
    exact (sequence_fill hfill).wellFormed_append.mpr ih

/-- A well-formed string is its own projection. -/
theorem Substituted.of_wellFormed (fill : UInt8) {src : Bytes} (h : Utf8.WellFormed src) :
    Substituted fill src src := by
  obtain ⟨cs, rfl⟩ := h
  induction cs with
  | nil => exact .nil
  | cons c cs ih =>
    rw [List.flatMap_cons]
    exact .keep ⟨c, rfl⟩ ih

/-- **The scan has one result.** -/
theorem Substituted.unique {fill : UInt8} {src a b : Bytes} (ha : Substituted fill src a)
    (hb : Substituted fill src b) : a = b := by
  induction ha generalizing b with
  | nil =>
    exact (List.length_eq_zero_iff.mp hb.length_eq).symm
  | @keep s rest out hs h ih =>
    revert hb
    generalize hsrc : s ++ rest = src
    intro hb
    cases hb with
    | nil => exact absurd (List.append_eq_nil_iff.mp hsrc).1 hs.ne_nil
    | @keep t rest' out' ht hrest =>
      have hst : s = t := by
        refine hs.prefix_free ht (List.prefix_append s rest) ?_
        rw [hsrc]
        exact List.prefix_append t rest'
      subst hst
      rw [← List.append_cancel_left hsrc] at hrest
      rw [ih hrest]
    | replace hno hrest =>
      refine absurd ?_ (hno s hs)
      rw [← hsrc]
      exact List.prefix_append s rest
  | @replace c rest out hno h ih =>
    revert hb
    generalize hsrc : c :: rest = src
    intro hb
    cases hb with
    | nil => cases hsrc
    | @keep t rest' out' ht hrest =>
      refine absurd ?_ (hno t ht)
      rw [hsrc]
      exact List.prefix_append t rest'
    | replace hno' hrest =>
      obtain ⟨rfl, rfl⟩ := List.cons.inj hsrc
      rw [ih hrest]

/-! ## The loop

A run of the loop follows the relation as far as its room goes.
-/

/-- What the loop adds to what is written so far: a well-formed beginning of the projection that
leaves room for the terminator, and all of it where the room is enough. -/
structure SubstituteRun (cap : ℕ) (fill : UInt8) (src out : Bytes) (substituted : Bool)
    (more full : Bytes) : Prop where
  written : (substitute_loop cap fill src out substituted).1 = out ++ more
  projection : Substituted fill src full
  beginning : more <+: full
  whole : Utf8.WellFormed more
  room : out.length + more.length < cap
  complete : out.length + src.length < cap → more = full ∧
    ((substitute_loop cap fill src out substituted).2 = true ↔
      substituted = true ∨ ¬ Utf8.WellFormed src)

/-- Every string has a projection. -/
theorem exists_substituted (fill : UInt8) (src : Bytes) : ∃ full, Substituted fill src full := by
  induction src using scan_induction with
  | nil => exact ⟨[], .nil⟩
  | keep s rest hs ih =>
    obtain ⟨full, hfull⟩ := ih
    exact ⟨s ++ full, .keep hs hfull⟩
  | replace c rest hseq ih =>
    obtain ⟨full, hfull⟩ := ih
    exact ⟨fill :: full, .replace (pakka_utf8_seq_len_eq_zero hseq) hfull⟩

/-- The loop at a sequence. -/
theorem substitute_loop_keep (cap : ℕ) (fill : UInt8) {s : Bytes} (hs : Utf8.Sequence s)
    (rest out : Bytes) (substituted : Bool) :
    substitute_loop cap fill (s ++ rest) out substituted =
      if out.length + s.length ≥ cap then (out, substituted)
      else substitute_loop cap fill rest (out ++ s) substituted := by
  have hlen := pakka_utf8_seq_len_append hs rest
  have hne := List.length_pos_iff.mpr hs.ne_nil
  obtain ⟨c, s', rfl⟩ := List.exists_cons_of_ne_nil hs.ne_nil
  rw [List.cons_append] at hlen ⊢
  rw [substitute_loop]
  simp only [hlen]
  rw [if_neg (by omega), ← List.cons_append, List.drop_left, List.take_left]

/-- The loop at a byte that starts no sequence. -/
theorem substitute_loop_replace (cap : ℕ) (fill : UInt8) {c : UInt8} {rest : Bytes}
    (hseq : pakka_utf8_seq_len (c :: rest) = 0) (out : Bytes) (substituted : Bool) :
    substitute_loop cap fill (c :: rest) out substituted =
      if out.length + 1 ≥ cap then (out, substituted)
      else substitute_loop cap fill rest (out ++ [fill]) true := by
  rw [substitute_loop]
  simp only [hseq, if_true]

/-- There is no room for the next unit: the loop stops. -/
theorem SubstituteRun.stop {cap : ℕ} {fill : UInt8} {src out : Bytes} {substituted : Bool}
    (hloop : substitute_loop cap fill src out substituted = (out, substituted))
    (hroom : out.length < cap) (hsmall : ¬ out.length + src.length < cap) :
    ∃ more full, SubstituteRun cap fill src out substituted more full := by
  obtain ⟨full, hfull⟩ := exists_substituted fill src
  refine ⟨[], full, ?_, hfull, List.nil_prefix, .nil, hroom, fun h => absurd h hsmall⟩
  rw [hloop, List.append_nil]

/-- **The loop writes a beginning of the projection.** -/
theorem substitute_run {cap : ℕ} {fill : UInt8} (hfill : fill < 0x80) (src out : Bytes)
    (substituted : Bool) (hroom : out.length < cap) :
    ∃ more full, SubstituteRun cap fill src out substituted more full := by
  induction src using scan_induction generalizing out substituted with
  | nil =>
    have hloop : substitute_loop cap fill [] out substituted = (out, substituted) := by
      rw [substitute_loop]
    refine ⟨[], [], by rw [hloop, List.append_nil], .nil, List.nil_prefix, .nil, hroom, ?_⟩
    intro _
    rw [hloop]
    exact ⟨rfl, by simp [Utf8.WellFormed.nil]⟩
  | keep s rest hs ih =>
    have hloop := substitute_loop_keep cap fill hs rest out substituted
    by_cases hfull : out.length + s.length ≥ cap
    · rw [if_pos hfull] at hloop
      refine SubstituteRun.stop hloop hroom ?_
      rw [List.length_append]
      omega
    · rw [if_neg hfull] at hloop
      obtain ⟨more, full, hrun⟩ := ih (out ++ s) substituted
        (by rw [List.length_append]; omega)
      have hbound := hrun.room
      rw [List.length_append] at hbound
      refine ⟨s ++ more, s ++ full, ?_, .keep hs hrun.projection, ?_,
        hs.wellFormed_append.mpr hrun.whole, ?_, ?_⟩
      · rw [hloop, hrun.written, List.append_assoc]
      · exact (List.prefix_append_right_inj s).mpr hrun.beginning
      · rw [List.length_append]
        omega
      · intro hcap
        rw [List.length_append] at hcap
        obtain ⟨hmore, hflag⟩ := hrun.complete (by rw [List.length_append]; omega)
        refine ⟨by rw [hmore], ?_⟩
        rw [hloop, hflag, hs.wellFormed_append]
  | replace c rest hseq ih =>
    have hloop := substitute_loop_replace cap fill hseq out substituted
    have hno := pakka_utf8_seq_len_eq_zero hseq
    by_cases hfull : out.length + 1 ≥ cap
    · rw [if_pos hfull] at hloop
      refine SubstituteRun.stop hloop hroom ?_
      rw [List.length_cons]
      omega
    · rw [if_neg hfull] at hloop
      obtain ⟨more, full, hrun⟩ := ih (out ++ [fill]) true
        (by rw [List.length_append, List.length_singleton]; omega)
      have hbound := hrun.room
      rw [List.length_append, List.length_singleton] at hbound
      refine ⟨fill :: more, fill :: full, ?_, .replace hno hrun.projection, ?_,
        (sequence_fill hfill).wellFormed_append.mpr hrun.whole, ?_, ?_⟩
      · rw [hloop, hrun.written, List.append_assoc]
        rfl
      · exact List.cons_prefix_cons.mpr ⟨rfl, hrun.beginning⟩
      · rw [List.length_cons]
        omega
      · intro hcap
        rw [List.length_cons] at hcap
        obtain ⟨hmore, hflag⟩ := hrun.complete
          (by rw [List.length_append, List.length_singleton]; omega)
        refine ⟨by rw [hmore], ?_⟩
        -- a byte was replaced, and the string is not well formed because of it
        rw [hloop, hflag]
        have hbad := Utf8.not_wellFormed (List.cons_ne_nil c rest) hno
        simp [hbad]

/-! ## Into a buffer

Every write is checked against the buffer.
-/

/-- The loop of `pakka_utf8_substitute_invalid` over checked reads and writes. -/
def substitute_loop_checked (s : Bytes) (cap : ℕ) (fill : UInt8) (n i : ℕ) (dst : Bytes) (out : ℕ)
    (substituted : Bool) : Option (Bytes × ℕ × Bool) :=
  if i < n then do
    let seq ← pakka_utf8_seq_len_checked (s.drop i) (n - i)
    if seq = 0 then
      if out + 1 ≥ cap then some (dst, out, substituted)
      else do
        let dst ← Buffer.store dst out [fill]
        substitute_loop_checked s cap fill n (i + 1) dst (out + 1) true
    else if out + seq ≥ cap then some (dst, out, substituted)
    else do
      let bytes ← Buffer.load s i seq
      let dst ← Buffer.store dst out bytes
      substitute_loop_checked s cap fill n (i + seq) dst (out + seq) substituted
  else some (dst, out, substituted)
  termination_by n - i

/-- `pakka_utf8_substitute_invalid` over checked reads and writes: the buffer afterwards, and
whether anything was replaced. -/
def pakka_utf8_substitute_invalid_checked (src : CStr) (dst : Bytes) (cap : ℕ) (fill : UInt8) :
    Option (Bytes × Bool) :=
  if cap = 0 then some (dst, false)
  else do
    let (dst, out, substituted) ←
      substitute_loop_checked src.bytes cap fill src.strlen 0 dst 0 false
    let dst ← Buffer.store dst (if out < cap then out else cap - 1) [0]
    some (dst, substituted)

/-- **The loop stays inside both buffers** and does what the plain one does. -/
theorem substitute_loop_checked_eq {s : Bytes} {cap : ℕ} (fill : UInt8) {i : ℕ}
    (hi : i ≤ s.length) (out more : Bytes) (substituted : Bool) (hroom : out.length < cap)
    (hcap : (out ++ more).length = cap) :
    ∃ more', substitute_loop_checked s cap fill s.length i (out ++ more) out.length substituted =
        some ((substitute_loop cap fill (s.drop i) out substituted).1 ++ more',
          (substitute_loop cap fill (s.drop i) out substituted).1.length,
          (substitute_loop cap fill (s.drop i) out substituted).2) ∧
      ((substitute_loop cap fill (s.drop i) out substituted).1 ++ more').length = cap ∧
      (substitute_loop cap fill (s.drop i) out substituted).1.length < cap := by
  induction hn : s.length - i using Nat.strong_induction_on
    generalizing i out more substituted with
  | _ n ih =>
    rw [substitute_loop_checked]
    rcases Nat.lt_or_eq_of_le hi with hlt | rfl
    · obtain ⟨c, rest, hdrop⟩ := drop_eq_cons hlt
      have hseqle := pakka_utf8_seq_len_le (s.drop i)
      have hread := pakka_utf8_seq_len_checked_eq (s.drop i)
      rw [List.length_drop] at hread hseqle
      rw [if_pos hlt, hread, Option.bind_eq_bind, Option.bind_some]
      rw [hdrop] at hseqle ⊢
      rw [substitute_loop]
      generalize pakka_utf8_seq_len (c :: rest) = seq at hseqle ⊢
      rw [List.length_append] at hcap
      -- one byte is replaced, or a whole sequence is kept; there must be room for the terminator
      -- too
      by_cases hseq : seq = 0
      · rw [if_pos hseq, if_pos hseq]
        by_cases hfull : out.length + 1 ≥ cap
        · rw [if_pos hfull, if_pos hfull]
          exact ⟨more, rfl, by rw [List.length_append, hcap], hroom⟩
        · rw [if_neg hfull, if_neg hfull,
            Buffer.store_append out [fill] more (by rw [List.length_singleton]; omega),
            Option.bind_eq_bind, Option.bind_some]
          have hrest : s.drop (i + 1) = rest := by
            rw [← List.drop_drop, hdrop]
            rfl
          have h := ih _ (by omega) (i := i + 1) hlt (out ++ [fill]) (more.drop 1) true
            (by rw [List.length_append, List.length_singleton]; omega)
            (by simp only [List.length_append, List.length_drop, List.length_singleton]; omega) rfl
          rw [hrest, List.length_append, List.length_singleton] at h
          exact h
      · rw [if_neg hseq, if_neg hseq]
        by_cases hfull : out.length + seq ≥ cap
        · rw [if_pos hfull, if_pos hfull]
          exact ⟨more, rfl, by rw [List.length_append, hcap], hroom⟩
        · have hload : Buffer.load s i seq = some ((c :: rest).take seq) := by
            rw [Buffer.load_of_le (by omega), hdrop]
          have hlen : ((c :: rest).take seq).length = seq := by
            rw [← hdrop, List.length_take, List.length_drop]
            omega
          rw [if_neg hfull, if_neg hfull, hload, Option.bind_eq_bind, Option.bind_some,
            Buffer.store_append out _ more (by omega), Option.bind_some]
          have hrest : s.drop (i + seq) = (c :: rest).drop seq := by
            rw [← List.drop_drop, hdrop]
          have h := ih _ (by omega) (i := i + seq) (by omega) (out ++ (c :: rest).take seq)
            (more.drop seq) substituted (by rw [List.length_append, hlen]; omega)
            (by simp only [List.length_append, List.length_drop, hlen]; omega) rfl
          rw [hrest, List.length_append, hlen] at h
          rw [hlen]
          exact h
    · rw [if_neg (by omega), List.drop_length, substitute_loop]
      exact ⟨more, rfl, hcap, hroom⟩

/-! ## The function

With room for the string, the projection; with less, a front of it and a terminator.
-/

/-- No byte of the projection of a string is NUL if the fill byte is not. -/
theorem Substituted.no_nul {fill : UInt8} (hfill : fill ≠ 0) {src : CStr} {out : Bytes}
    (h : Substituted fill src.bytes out) : ∀ b ∈ out, b ≠ 0 := by
  rintro b hb rfl
  rcases h.mem hb with hb | hb
  · exact hfill hb.symm
  · exact src.no_nul hb

/-- A string without NUL is the C string of it. -/
theorem ofField_bytes_of_no_nul {bs : Bytes} (h : ∀ b ∈ bs, b ≠ 0) :
    (CStr.ofField bs).bytes = bs := by
  refine List.takeWhile_eq_self_iff.mpr ?_
  intro b hb
  simpa using h b hb

/-- What the function leaves in a buffer of at least one byte. -/
theorem pakka_utf8_substitute_invalid_run (src : CStr) {cap : ℕ} {fill : UInt8}
    (hfill : fill < 0x80) (hnul : fill ≠ 0) (hcap : 0 < cap) :
    ∃ full, SubstituteRun cap fill src.bytes [] false
      (pakka_utf8_substitute_invalid src cap fill).1.bytes full := by
  obtain ⟨more, full, hrun⟩ := substitute_run hfill src.bytes [] false hcap
  refine ⟨full, ?_⟩
  have hbytes : (pakka_utf8_substitute_invalid src cap fill).1.bytes = more := by
    rw [pakka_utf8_substitute_invalid, if_neg (by omega)]
    simp only [hrun.written, List.nil_append]
    refine ofField_bytes_of_no_nul ?_
    intro b hb
    exact hrun.projection.no_nul hnul b (hrun.beginning.subset hb)
  rwa [hbytes]

/-- The bytes the function leaves are those of its loop. -/
theorem SubstituteRun.loop_bytes {src : CStr} {cap : ℕ} {fill : UInt8} {full : Bytes}
    (h : SubstituteRun cap fill src.bytes [] false
      (pakka_utf8_substitute_invalid src cap fill).1.bytes full) :
    (substitute_loop cap fill src.bytes [] false).1 =
      (pakka_utf8_substitute_invalid src cap fill).1.bytes := by
  rw [h.written, List.nil_append]

/-- **With enough room the result is the projection**, and the flag says whether it is the
string itself. -/
theorem pakka_utf8_substitute_invalid_fits {src : CStr} {cap : ℕ} {fill : UInt8}
    (hfill : fill < 0x80) (hnul : fill ≠ 0) (hcap : src.strlen < cap) :
    Substituted fill src.bytes (pakka_utf8_substitute_invalid src cap fill).1.bytes ∧
      ((pakka_utf8_substitute_invalid src cap fill).2 = false ↔
        Utf8.WellFormed src.bytes) := by
  obtain ⟨full, hrun⟩ := pakka_utf8_substitute_invalid_run src hfill hnul
    (Nat.zero_lt_of_lt hcap)
  have hlen : ([] : Bytes).length + src.bytes.length < cap := by
    rw [List.length_nil, Nat.zero_add]
    exact hcap
  obtain ⟨hfull, hflag⟩ := hrun.complete hlen
  have hsame : (pakka_utf8_substitute_invalid src cap fill).2 =
      (substitute_loop cap fill src.bytes [] false).2 := by
    rw [pakka_utf8_substitute_invalid, if_neg (by omega)]
  rw [hfull, hsame, ← Bool.not_eq_true, hflag]
  refine ⟨hrun.projection, ?_⟩
  simp

/-- **Nothing is replaced in a valid string.** -/
theorem pakka_utf8_substitute_invalid_valid {src : CStr} {cap : ℕ} {fill : UInt8}
    (hfill : fill < 0x80) (hnul : fill ≠ 0) (hcap : src.strlen < cap)
    (hvalid : Utf8.WellFormed src.bytes) :
    pakka_utf8_substitute_invalid src cap fill = (src, false) := by
  obtain ⟨hsub, hflag⟩ := pakka_utf8_substitute_invalid_fits hfill hnul hcap
  refine Prod.ext ?_ (hflag.mpr hvalid)
  exact CStr.ext (hsub.unique (.of_wellFormed fill hvalid))

/-- **Substitution is a projection**: what is well formed stays, every other byte becomes the
fill byte, and doing it again changes nothing. Into a buffer of any size it writes a beginning of
the projection that ends between two sequences, and the terminator behind it. -/
theorem utf8_substitute_projection (src : CStr) (fill : UInt8) (hfill : fill < 0x80)
    (hnul : fill ≠ 0) :
    (∀ cap, src.strlen < cap →
      let r := pakka_utf8_substitute_invalid src cap fill
      Substituted fill src.bytes r.1.bytes ∧ pakka_is_valid_utf8 r.1.bytes = true ∧
        r.1.strlen = src.strlen ∧
        (r.2 = false ↔ pakka_is_valid_utf8 src.bytes = true) ∧ (r.2 = false → r.1 = src) ∧
        ∀ cap', r.1.strlen < cap' → pakka_utf8_substitute_invalid r.1 cap' fill = (r.1, false)) ∧
    (∀ dst : Bytes, 1 ≤ dst.length →
      let r := pakka_utf8_substitute_invalid src dst.length fill
      ∃ rest full, pakka_utf8_substitute_invalid_checked src dst dst.length fill =
          some (r.1.bytes ++ 0 :: rest, r.2) ∧
        (r.1.bytes ++ 0 :: rest).length = dst.length ∧
        pakka_is_valid_utf8 r.1.bytes = true ∧
        Substituted fill src.bytes full ∧ r.1.bytes <+: full) := by
  constructor
  · intro cap hcap
    obtain ⟨hsub, hflag⟩ := pakka_utf8_substitute_invalid_fits hfill hnul hcap
    have hvalid := hsub.wellFormed hfill
    simp only [pakka_is_valid_utf8_iff]
    refine ⟨hsub, hvalid, hsub.length_eq, hflag, ?_, ?_⟩
    · intro h
      exact CStr.ext (hsub.unique (.of_wellFormed fill (hflag.mp h)))
    · intro cap' hcap'
      exact pakka_utf8_substitute_invalid_valid hfill hnul hcap' hvalid
  · intro dst hdst
    obtain ⟨full, hrun⟩ := pakka_utf8_substitute_invalid_run src hfill hnul hdst
    obtain ⟨more, hchecked, hlen, hlt⟩ := substitute_loop_checked_eq fill
      (Nat.zero_le src.bytes.length) [] dst false hdst rfl
    rw [List.drop_zero, hrun.loop_bytes, List.nil_append, List.length_nil] at hchecked
    rw [List.drop_zero, hrun.loop_bytes] at hlen hlt
    rw [List.length_append] at hlen
    refine ⟨more.drop 1, full, ?_, ?_, (pakka_is_valid_utf8_iff _).mpr hrun.whole,
      hrun.projection, hrun.beginning⟩
    · rw [pakka_utf8_substitute_invalid_checked, if_neg (by omega)]
      have hstore := Buffer.store_append
        (pakka_utf8_substitute_invalid src dst.length fill).1.bytes [0] more
        (by rw [List.length_singleton]; omega)
      have hflag : (pakka_utf8_substitute_invalid src dst.length fill).2 =
          (substitute_loop dst.length fill src.bytes [] false).2 := by
        rw [pakka_utf8_substitute_invalid, if_neg (by omega)]
      simp only [CStr.strlen]
      rw [hchecked, Option.bind_eq_bind, Option.bind_some]
      simp only
      rw [if_pos hlt, hstore, hflag]
      simp
    · rw [List.length_append, List.length_cons, List.length_drop]
      omega

/-- A lone tail byte between two letters, and a two-byte sequence. -/
def cut_name : CStr := ⟨[0x61, 0x80, 0x62, 0xC3, 0xA9], by decide⟩

/-- Into a buffer that is large enough, and into one that ends before the sequence. -/
theorem utf8_substitute_projection_cut :
    pakka_is_valid_utf8 (pakka_utf8_substitute_invalid cut_name 8 0x5F).1.bytes = true ∧
      ∃ rest, pakka_utf8_substitute_invalid_checked cut_name [1, 1, 1] 3 0x5F =
        some ((pakka_utf8_substitute_invalid cut_name 3 0x5F).1.bytes ++ 0 :: rest,
          (pakka_utf8_substitute_invalid cut_name 3 0x5F).2) := by
  obtain ⟨hfits, hany⟩ := utf8_substitute_projection cut_name 0x5F (by decide) (by decide)
  obtain ⟨rest, full, h, -⟩ := hany [1, 1, 1] (by decide)
  exact ⟨(hfits 8 (by decide)).2.1, rest, h⟩

end Pakka
