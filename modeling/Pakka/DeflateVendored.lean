/-
The vendored backend, `deflate/deflate_vendored.c`.

A result is missing where the wrapper or the codec is undefined: a failing `assert`, an access
outside an object, a signed overflow. A backend that agrees with the wrapper wherever it is defined
makes nothing of nothing, and what it compressed in a clean run it inflates. Runs on short texts are
clean.

The wrapper is also the only caller, and its contract with the rest of the library is `Deflate`:
nothing inflates from nothing, and what was compressed inflates to itself. A wrapper that is
undefined on some input cannot be that contract's instance by itself, so the contract is stated of
every backend that agrees with the wrapper wherever the wrapper is defined.
-/
import Pakka.DeflateRoundTrip
import Pakka.Reader
import Pakka.SinflBuffer

set_option autoImplicit false

namespace Pakka

open Cells BitString ByteImage Lz77

/-! ## Short texts

Their runs are clean, so nothing has to be known of the run.
-/

section Short

variable {x : Bytes}

/-- **Short texts come back**, at every level: a text of three to 1024 bytes is put out, and the
stream inflates to it in every buffer that holds it and is refused in every other. Nothing is asked
of the run. -/
theorem sinflate_sdeflate_short (lvl : ℕ) (h3 : 3 ≤ x.length) (hshort : x.length ≤ 1024) :
    ∃ y, pakka_sdeflate x lvl = some y ∧
      ∀ cap, pakka_sinflate cap y = some (if x.length ≤ cap then some (sinfl_known x) else none) := by
  rcases compr_spec x lvl with ⟨-, hfull⟩ | ⟨y, -, -, hy, -⟩
  · have hsiz : PAKKA_SDEFL_SEQ_SIZ = 87382 := by decide
    omega
  · have h := clean_inflates (by omega) le_rfl hy (short_clean lvl h3 hshort)
    exact ⟨y, hy, fun cap => known_limit cap h⟩

theorem sinflate_sdeflate_short_three : ∃ y, pakka_sdeflate [7, 8, 9] 8 = some y ∧
    ∀ cap, pakka_sinflate cap y = some (if 3 ≤ cap then some (sinfl_known [7, 8, 9]) else none) :=
  sinflate_sdeflate_short 8 (by decide) (by decide)

end Short

/-! ## The wrapper

The size of the output buffer, the call and the checks of the result, as the source has them. What
stood in the buffer before the call is a parameter, because the decoder can be made to copy it.
-/

/-- `pakka_deflate_compress`, and whether its two allocations succeed. -/
def pakka_deflate_compress (state_ok out_ok : Bool) (src : Bytes) :
    Option (Except Status (Option Bytes)) :=
  if src.length = 0 then some (.ok none)
  else if src.length > INT_MAX then some (.ok none)
  else if ¬ state_ok then some (.error .nomem)
  else if pakka_sdefl_bound src.length > INT_MAX then none
  else if ¬ out_ok then some (.error .nomem)
  else (pakka_sdeflate src PAKKA_SDEFL_LVL_DEF).bind fun out =>
    -- behind the buffer
    if out.length > pakka_sdefl_bound src.length then none
    else if out.length = 0 ∨ out.length ≥ src.length then some (.ok none)
    else some (.ok (some out))

/-- `pakka_deflate_inflate`, on a build with vector instructions or without. `out` is what the buffer
holds before, and `none` where there is no buffer; the decoder then gets a byte of its own. -/
def pakka_deflate_inflate (simd : Bool) (src : Bytes) (out : Option Bytes) (out_cap : ℕ) :
    Option (Except Status (Bytes × ℕ)) :=
  if src.length > INT_MAX then some (.error .limit)
  else if out_cap > INT_MAX then some (.error .limit)
  else if out = none ∧ out_cap ≠ 0 then some (.error .invalid_argument)
  else do
    match ← pakka_sinflate_buf simd ((out.getD [0]).take out_cap) src with
    | none => return .error .format
    -- the count consumed is not known
    | some bytes => return .ok (bytes, src.length)

/-! ## The contract of the interface

`Vendored` is the agreement with the wrapper. It decides nothing where the wrapper is undefined.
-/

/-- A backend that does what the wrapper does, wherever that is defined and the same on every build
and for whatever the buffer held before. -/
structure Vendored (df : Deflate) : Prop where
  compress : ∀ {src r}, pakka_deflate_compress true true src = some r → df.compress src = r
  inflate : ∀ {src cap r},
    (∀ simd (out : Bytes), out.length = cap →
      pakka_deflate_inflate simd src (some out) cap = some r) → df.inflate src cap = r

/-- What an encoding that is kept is. -/
theorem compress_kept {state_ok out_ok : Bool} {src enc : Bytes}
    (h : pakka_deflate_compress state_ok out_ok src = some (.ok (some enc))) :
    (0 < src.length ∧ src.length ≤ INT_MAX ∧ enc.length < src.length) ∧
      pakka_sdeflate src PAKKA_SDEFL_LVL_DEF = some enc := by
  rw [pakka_deflate_compress] at h
  split_ifs at h with h0 hbig hstate hbound hout
  · exact absurd h (by simp)
  · exact absurd h (by simp)
  · obtain ⟨y, hy, h⟩ := Option.bind_eq_some_iff.mp h
    split_ifs at h with hroom hsmall
    · exact absurd h (by simp)
    · obtain rfl : y = enc := Option.some_inj.mp (Except.ok.inj (Option.some_inj.mp h))
      exact ⟨⟨by omega, by omega, by omega⟩, hy⟩
  · exact absurd h (by simp)
  · exact absurd h (by simp)

/-- An encoding of at most 218447 bytes is defined. -/
theorem compress_defined {src : Bytes} (hlen : src.length ≤ 218447) :
    ∃ r, pakka_deflate_compress true true src = some (.ok r) := by
  rw [pakka_deflate_compress]
  by_cases h0 : src.length = 0
  · rw [if_pos h0]
    exact ⟨none, rfl⟩
  have hbound : pakka_sdefl_bound src.length ≤ INT_MAX := by
    rw [pakka_sdefl_bound, pakka_sdefl_div_round_up]
    dsimp only [PAKKA_SDEFL_RAW_BLK_SIZE, INT_MAX]
    omega
  rw [if_neg h0, if_neg (by dsimp only [INT_MAX]; omega), if_neg (by simp), if_neg (by omega),
    if_neg (by simp)]
  rcases compr_spec src PAKKA_SDEFL_LVL_DEF with ⟨-, hfull⟩ | ⟨y, B, k, hy, hbits, hk, hroom, -⟩
  · have hsiz : PAKKA_SDEFL_SEQ_SIZ = 87382 := by decide
    omega
  · have hsize := bound_of_room (show src.length ≤ 786432 by omega) hbits hk hroom
    rw [hy, Option.bind_some, if_neg (by omega)]
    split_ifs
    · exact ⟨none, rfl⟩
    · exact ⟨some y, rfl⟩

/-- What the decoder knows all of, the wrapper returns. -/
theorem inflate_defined {src x : Bytes} {cap : ℕ} (hsrc : src.length ≤ INT_MAX) (hcap : cap ≤ INT_MAX)
    (h : pakka_sinflate cap src = some (some (sinfl_known x))) (simd : Bool) {out : Bytes}
    (hout : out.length = cap) :
    pakka_deflate_inflate simd src (some out) cap = some (.ok (x, src.length)) := by
  obtain rfl := hout
  rw [pakka_deflate_inflate, if_neg (by omega), if_neg (by omega), if_neg (by simp),
    Option.getD_some, List.take_length, buffer_known simd h]
  rfl

/-- No bytes are no output. -/
theorem nothing_inflates (cap : ℕ) : pakka_sinflate cap [] = some (some (sinfl_known [])) := by
  have hnone : pakka_sinflate 0 [] = some (some (sinfl_known [])) := by decide
  have h := known_limit cap hnone
  rwa [List.length_nil, if_pos (Nat.zero_le _)] at h

/-- A clean text that becomes shorter is encoded. -/
theorem compress_short {src enc : Bytes} (hy : pakka_sdeflate src PAKKA_SDEFL_LVL_DEF = some enc)
    (hless : enc.length < src.length) (hlen : src.length ≤ 218447)
    (hclean : CleanRun src PAKKA_SDEFL_LVL_DEF) :
    pakka_deflate_compress true true src = some (.ok (some enc)) := by
  have hpos : 0 < enc.length := by
    by_contra h0
    obtain rfl := List.eq_nil_of_length_eq_zero (Nat.eq_zero_of_not_pos h0)
    have hback := clean_inflates (by omega) le_rfl hy hclean
    rw [nothing_inflates] at hback
    rw [← known_inj.mp (Option.some_inj.mp (Option.some_inj.mp hback))] at hless
    exact Nat.lt_irrefl _ hless
  have hbound : pakka_sdefl_bound src.length ≤ INT_MAX ∧
      src.length ≤ pakka_sdefl_bound src.length := by
    rw [pakka_sdefl_bound, pakka_sdefl_div_round_up]
    dsimp only [PAKKA_SDEFL_RAW_BLK_SIZE, INT_MAX]
    omega
  rw [pakka_deflate_compress, if_neg (by omega), if_neg (by dsimp only [INT_MAX]; omega),
    if_neg (by simp), if_neg (by omega), if_neg (by simp), hy, Option.bind_some, if_neg (by omega),
    if_neg (by omega)]

/-- **The contract.** The vendored backend makes nothing of nothing; every source of at most 218447
bytes is encoded or left, with all assertions of the encoder passed; and what was encoded in a clean
run is inflated to its source, consumed whole and accepted by the readers of the archive. -/
theorem vendored_contract {df : Deflate} (h : Vendored df) :
    df.NothingFromNothing ∧
      (∀ src : Bytes, src.length ≤ 218447 → ∃ r, df.compress src = .ok r) ∧
      ∀ src enc, pakka_deflate_compress true true src = some (.ok (some enc)) →
        CleanRun src PAKKA_SDEFL_LVL_DEF →
        df.compress src = .ok (some enc) ∧ df.inflate enc src.length = .ok (src, enc.length) ∧
          pk3_inflate_checked df enc src.length enc.length = .ok src := by
  refine ⟨fun {cap out used} hrun => ?_, fun src hlen => ?_, fun src enc henc hclean => ?_⟩
  · by_cases hcap : cap > INT_MAX
    · have herr : df.inflate [] cap = .error .limit := h.inflate fun simd out _ => by
        rw [pakka_deflate_inflate, if_neg (by decide), if_pos hcap]
      rw [herr] at hrun
      exact absurd hrun (by simp)
    · have hok := h.inflate (inflate_defined (by decide) (by omega) (nothing_inflates cap))
      rw [hok] at hrun
      exact (congrArg Prod.fst (Except.ok.inj hrun)).symm
  · obtain ⟨r, hr⟩ := compress_defined hlen
    exact ⟨r, h.compress hr⟩
  · obtain ⟨⟨hpos, hmax, hsmall⟩, hy⟩ := compress_kept henc
    have hinf := h.inflate (inflate_defined (by omega) hmax (clean_inflates hpos le_rfl hy hclean))
    refine ⟨h.compress henc, hinf, ?_⟩
    rw [pk3_inflate_checked, hinf]
    show (if src.length ≠ src.length ∨ enc.length ≠ enc.length then _ else _) = _
    rw [if_neg (by simp)]
    rfl

theorem compress_failed {state_ok out_ok : Bool} {src : Bytes} {e : Status}
    (h : pakka_deflate_compress state_ok out_ok src = some (.error e)) : e = .nomem := by
  rw [pakka_deflate_compress] at h
  split_ifs at h with h0 hbig hstate hbound hout
  · exact absurd h (by simp)
  · exact absurd h (by simp)
  · obtain ⟨y, -, h⟩ := Option.bind_eq_some_iff.mp h
    split_ifs at h
    · exact absurd h (by simp)
    · exact absurd h (by simp)
  · exact (Except.error.inj (Option.some_inj.mp h)).symm
  · exact (Except.error.inj (Option.some_inj.mp h)).symm

theorem inflate_failed {simd : Bool} {src : Bytes} {out : Option Bytes} {cap : ℕ} {e : Status}
    (h : pakka_deflate_inflate simd src out cap = some (.error e)) : e ≠ .ok := by
  rw [pakka_deflate_inflate] at h
  split_ifs at h with hsrc hcap hnull
  · rw [← Except.error.inj (Option.some_inj.mp h)]
    simp
  · rw [← Except.error.inj (Option.some_inj.mp h)]
    simp
  · rw [← Except.error.inj (Option.some_inj.mp h)]
    simp
  · obtain ⟨r, -, h⟩ := Option.bind_eq_some_iff.mp h
    rcases r with _ | bytes
    · rw [← Except.error.inj (Option.some_inj.mp h)]
      simp
    · exact absurd (Option.some_inj.mp h) (by simp)

/-- The wrapper as a backend, with vector instructions and buffers of zeros. Where it is undefined
this one keeps the source, or refuses. -/
def Deflate.vendored : Deflate :=
  { compress := fun src => (pakka_deflate_compress true true src).getD (.ok none)
    inflate := fun src cap =>
      (pakka_deflate_inflate true src (some (List.replicate cap 0)) cap).getD (.error .format)
    compress_smaller := fun {src enc} h => by
      rcases hrun : pakka_deflate_compress true true src with _ | r
      · rw [hrun] at h
        exact absurd (Except.ok.inj h) (by simp)
      · rw [hrun, Option.getD_some] at h
        rw [h] at hrun
        exact (compress_kept hrun).1.2.2
    compress_error := fun {src s} h => by
      rcases hrun : pakka_deflate_compress true true src with _ | r
      · rw [hrun] at h
        exact absurd h (by simp)
      · rw [hrun, Option.getD_some] at h
        rw [h] at hrun
        rw [compress_failed hrun]
        simp
    inflate_error := fun {src cap s} h => by
      rcases hrun : pakka_deflate_inflate true src (some (List.replicate cap 0)) cap with _ | r
      · rw [hrun] at h
        rw [← Except.error.inj h]
        simp
      · rw [hrun, Option.getD_some] at h
        rw [h] at hrun
        exact inflate_failed hrun }

theorem vendored_vendored : Vendored Deflate.vendored :=
  ⟨fun h => congrArg (Option.getD · _) h,
    fun h => congrArg (Option.getD · _) (h true _ (List.length_replicate ..))⟩

set_option maxRecDepth 100000 in
/-- 320 equal letters are encoded, and what they are encoded in is read back to them. -/
theorem vendored_contract_equal :
    ∃ enc, pakka_deflate_compress true true equal_letters = some (.ok (some enc)) ∧
      Deflate.vendored.compress equal_letters = .ok (some enc) ∧ enc.length < 320 ∧
      pk3_inflate_checked Deflate.vendored enc 320 enc.length = .ok equal_letters := by
  have hlen := length_equal_letters
  have hclean : CleanRun equal_letters PAKKA_SDEFL_LVL_DEF := short_clean 5 (by omega) (by omega)
  obtain ⟨z, hz, hseq⟩ := Option.map_eq_some_iff.mp equal_letters_seq
  obtain ⟨enc, henc, hroom⟩ := few_tokens_room (short_blk_end (by omega)) hz
  rw [hseq, equal_letters_tokens] at hroom
  have hput := compress_short henc (by omega) (by omega) hclean
  obtain ⟨-, -, hkept⟩ := vendored_contract vendored_vendored
  obtain ⟨hcompress, -, hback⟩ := hkept _ enc hput hclean
  rw [hlen] at hback
  exact ⟨enc, hput, hcompress, by omega, hback⟩

end Pakka
