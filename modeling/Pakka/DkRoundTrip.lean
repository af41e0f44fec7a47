/-
The Daikatana encoder: what it emits, and that the decoder gives its input back.

Whatever the encoder appends to its output is the word of a token. `dk_deflate_step_cases`
says so of one iteration, which either makes a literal more pending or flushes and emits a
token, and of each token it says that it is inside the encoder's own envelope (`Emitted`) and
that it stands for the next bytes of the input (`Covers`). The loop invariant `DkInvariant`
adds up the tokens: up to the pending literals they denote the input.

The same induction bounds the output: each token that is not a literal run takes
fewer bytes than it covers, which pays for the opcode of the run it cut short.
-/
import Pakka.DkTokens

set_option autoImplicit false

namespace Pakka

open ByteImage

/-! ## What the encoder's searches find

Each search in the terms of the text: so many zeros from here on, so many equal bytes, a distance
and a length at which the text repeats itself.
-/

/-- The scan stops between where it starts and its limit, and everything it passed
satisfies the test. -/
theorem dk_extend_spec (p : ℕ → Bool) (k len : ℕ) :
    len ≤ dk_extend p k len ∧ dk_extend p k len ≤ len + k ∧
      ∀ j, len ≤ j → j < dk_extend p k len → p j = true := by
  induction k generalizing len with
  | zero =>
    refine ⟨Nat.le_refl _, Nat.le_refl _, ?_⟩
    intro j h1 h2
    exact absurd h2 (by simp [dk_extend]; omega)
  | succ k ih =>
    simp only [dk_extend]
    split_ifs with hp
    · obtain ⟨h1, h2, h3⟩ := ih (len + 1)
      refine ⟨by omega, by omega, ?_⟩
      intro j hj1 hj2
      rcases Nat.eq_or_lt_of_le hj1 with rfl | hlt
      · exact hp
      · exact h3 j hlt hj2
    · exact ⟨Nat.le_refl _, by omega, fun j h1 h2 => by omega⟩

/-- The code's two ways to cap a count. -/
private theorem cap_eq_min (a c : ℕ) : (if a > c then c else a) = min a c := by
  split_ifs <;> omega

private theorem cap_lt_eq_min (a c : ℕ) : (if a < c then a else c) = min a c := by
  split_ifs <;> omega

/-- A counted zero run is one, inside the input and the cap. -/
theorem dk_count_zero_run_spec {inp : Bytes} {i : ℕ} (hi : i ≤ inp.length) :
    dk_count_zero_run inp i ≤ DK_MAX_ZERO_RUN ∧ i + dk_count_zero_run inp i ≤ inp.length ∧
      ∀ j, j < dk_count_zero_run inp i → inp.getD (i + j) 0 = 0 := by
  unfold dk_count_zero_run
  simp only [cap_eq_min]
  obtain ⟨-, h2, h3⟩ := dk_extend_spec (fun len => inp.getD (i + len) 0 = 0)
    (min (inp.length - i) DK_MAX_ZERO_RUN) 0
  refine ⟨by omega, by omega, ?_⟩
  intro j hj
  simpa using h3 j (Nat.zero_le _) hj

/-- A counted byte run repeats the byte it starts with. -/
theorem dk_count_byte_run_spec {inp : Bytes} {i : ℕ} (hi : i < inp.length) :
    dk_count_byte_run inp i ≤ DK_MAX_BYTE_RUN ∧ i + dk_count_byte_run inp i ≤ inp.length ∧
      ∀ j, j < dk_count_byte_run inp i → inp.getD (i + j) 0 = inp.getD i 0 := by
  unfold dk_count_byte_run
  rw [if_neg (by omega)]
  simp only [cap_eq_min]
  obtain ⟨h1, h2, h3⟩ := dk_extend_spec (fun len => inp.getD (i + len) 0 = inp.getD i 0)
    (min (inp.length - i) DK_MAX_BYTE_RUN - 1) 1
  have hm : 1 ≤ DK_MAX_BYTE_RUN := by decide
  refine ⟨by omega, by omega, ?_⟩
  intro j hj
  cases j with
  | zero => rfl
  | succ j => simpa using h3 (j + 1) (by omega) hj

/-- What makes a length and a distance a match at a position: in range, without overlap,
and equal bytes. -/
structure DkMatch (inp : Bytes) (i len dist : ℕ) : Prop where
  max_len : len ≤ DK_MAX_BACK_REF
  min_dist : 2 ≤ dist
  max_dist : dist ≤ DK_MAX_BACK_DIST
  dist_le : dist ≤ i
  no_overlap : len ≤ dist
  inside : i + len ≤ inp.length
  equal : ∀ j, j < len → inp.getD (i + j) 0 = inp.getD (i + j - dist) 0

/-- The search keeps its best candidate a match, once it has one. -/
theorem dk_find_match_loop_spec {inp : Bytes} {i : ℕ} (hi : i ≤ inp.length)
    (k d best_len best_dist : ℕ) (hd : 2 ≤ d) (hk : d + k ≤ i + 1)
    (hmax : d + k ≤ DK_MAX_BACK_DIST + 1)
    (hbest : 0 < best_len → DkMatch inp i best_len best_dist) :
    let r := dk_find_match_loop inp i (inp.length - i) k d best_len best_dist
    0 < r.1 → DkMatch inp i r.1 r.2 := by
  induction k generalizing d best_len best_dist with
  | zero => exact hbest
  | succ k ih =>
    simp only [dk_find_match_loop, cap_lt_eq_min]
    generalize hcap : min (inp.length - i) (min d DK_MAX_BACK_REF) = cap
    have hnext : ∀ bl bd, (0 < bl → DkMatch inp i bl bd) →
        0 < (dk_find_match_loop inp i (inp.length - i) k (d + 1) bl bd).1 →
        DkMatch inp i (dk_find_match_loop inp i (inp.length - i) k (d + 1) bl bd).1
          (dk_find_match_loop inp i (inp.length - i) k (d + 1) bl bd).2 :=
      fun bl bd hb => ih (d + 1) bl bd (by omega) (by omega) (by omega) hb
    by_cases hsmall : cap < DK_MIN_BACK_REF
    · rw [if_pos hsmall]
      exact hnext _ _ hbest
    rw [if_neg hsmall]
    by_cases hfirst : inp.getD (i - d) 0 ≠ inp.getD i 0
    · rw [if_pos hfirst]
      exact hnext _ _ hbest
    rw [if_neg hfirst]
    simp only [DK_MIN_BACK_REF] at hsmall
    obtain ⟨h1, h2, h3⟩ := dk_extend_spec
      (fun len => inp.getD (i + len) 0 = inp.getD (i + len - d) 0) (cap - 1) 1
    generalize hlen : dk_extend (fun len => inp.getD (i + len) 0 = inp.getD (i + len - d) 0)
      (cap - 1) 1 = len at h1 h2 h3 ⊢
    have hm : DkMatch inp i len d := by
      refine ⟨by omega, hd, by omega, by omega, by omega, by omega, ?_⟩
      intro j hj
      cases j with
      | zero => exact (not_not.mp hfirst).symm
      | succ j => simpa using h3 (j + 1) (by omega) hj
    by_cases hbetter : len > best_len
    · rw [if_pos hbetter]
      split_ifs
      · exact fun _ => hm
      · exact hnext _ _ fun _ => hm
    · rw [if_neg hbetter]
      exact hnext _ _ hbest

/-- A match that is reported is one. -/
theorem dk_find_match_spec {inp : Bytes} {i : ℕ} (hi : i ≤ inp.length)
    (hpos : DK_MIN_BACK_REF ≤ (dk_find_match inp i).1) :
    DkMatch inp i (dk_find_match inp i).1 (dk_find_match inp i).2 := by
  unfold dk_find_match at hpos ⊢
  by_cases hi2 : i < 2
  · rw [if_pos hi2] at hpos
    simp [DK_MIN_BACK_REF] at hpos
  rw [if_neg hi2] at hpos ⊢
  simp only at hpos ⊢
  by_cases hrem : inp.length - i < DK_MIN_BACK_REF
  · rw [if_pos hrem] at hpos
    simp [DK_MIN_BACK_REF] at hpos
  rw [if_neg hrem] at hpos ⊢
  rw [cap_lt_eq_min] at hpos ⊢
  generalize hmd : min i DK_MAX_BACK_DIST = max_d at hpos ⊢
  have hdist : 2 ≤ DK_MAX_BACK_DIST := by decide
  have hspec := dk_find_match_loop_spec hi (max_d - 1) 2 0 0 (Nat.le_refl _) (by omega)
    (by omega) (fun h => absurd h (Nat.lt_irrefl 0))
  simp only at hspec
  by_cases hlow : (dk_find_match_loop inp i (inp.length - i) (max_d - 1) 2 0 0).1 < DK_MIN_BACK_REF
  · rw [if_pos hlow] at hpos
    simp [DK_MIN_BACK_REF] at hpos
  · rw [if_neg hlow]
    simp only [DK_MIN_BACK_REF] at hlow
    exact hspec (by omega)

/-! ## Encoder steps

A token covers bytes of the input if it denotes them on top of what came before. Together with the
envelope this is what the decoder and the bound need of it.
-/

/-- The choice respects what was counted: a token is at least as long as its minimum and
takes exactly the run or match it stands for. -/
theorem dk_choose_spec (zlen rlen mlen : ℕ) :
    match dk_choose zlen rlen mlen with
    | (.literal, take) => take = 1
    | (.zero_run, take) => take = zlen ∧ DK_MIN_ZERO_RUN ≤ take
    | (.byte_run, take) => take = rlen ∧ DK_MIN_BYTE_RUN ≤ take
    | (.back_ref, take) => take = mlen ∧ DK_MIN_BACK_REF ≤ take := by
  unfold dk_choose
  simp only [DK_MIN_ZERO_RUN, DK_MIN_BYTE_RUN, DK_MIN_BACK_REF]
  by_cases h0 : (if zlen ≥ 2 then zlen else 0) = 0 ∧ (if rlen ≥ 3 then rlen else 0) = 0 ∧
      (if mlen ≥ 3 then mlen else 0) = 0
  · rw [if_pos h0]
  rw [if_neg h0]
  by_cases hz : (if zlen ≥ 2 then zlen else 0) * 2 > (if rlen ≥ 3 then rlen else 0) ∧
      (if zlen ≥ 2 then zlen else 0) * 2 > (if mlen ≥ 3 then mlen else 0)
  · rw [if_pos hz]
    simp only
    split_ifs at hz ⊢ <;> omega
  rw [if_neg hz]
  by_cases hm : (if mlen ≥ 3 then mlen else 0) > (if rlen ≥ 3 then rlen else 0)
  · rw [if_pos hm]
    simp only
    split_ifs at hm ⊢ <;> omega
  · rw [if_neg hm]
    simp only
    split_ifs at h0 hz hm ⊢ <;> omega

/-- A range whose bytes are all one value is a run of it. -/
theorem slice_eq_replicate {inp : Bytes} {i n : ℕ} {v : UInt8} (hn : i + n ≤ inp.length)
    (h : ∀ j, j < n → inp.getD (i + j) 0 = v) : slice inp i n = List.replicate n v := by
  apply List.ext_getElem?
  intro j
  rw [getElem?_slice, List.getElem?_replicate]
  split_ifs with hj
  · rw [List.getElem?_eq_getElem (by omega), ← h j hj, List.getD_eq_getElem _ _ (by omega)]
  · rfl

/-- What the encoder allows itself of a token when `produced` bytes are out. -/
def DkToken.Emitted (produced : ℕ) : DkToken → Prop
  | literal bytes _ => 1 ≤ bytes.length ∧ bytes.length ≤ 64
  | zero_run n _ => 2 ≤ n ∧ n ≤ 64
  | byte_run n _ _ => 3 ≤ n ∧ n ≤ 64
  | back_ref n distance _ => (3 ≤ n ∧ n ≤ 62) ∧ (2 ≤ distance ∧ distance ≤ 257) ∧
      distance ≤ produced ∧ n ≤ distance

/-- The token stands for the bytes of the input at a position, when the output is the input up
to there. -/
structure DkToken.Covers (t : DkToken) (inp : Bytes) (i : ℕ) : Prop where
  inside : i + t.size ≤ inp.length
  expands : t.expand (inp.take i) = slice inp i t.size

theorem DkToken.Emitted.reach {t : DkToken} {produced : ℕ} (h : t.Emitted produced) :
    t.reach ≤ produced := by
  cases t with
  | back_ref n distance range => exact h.2.2.1
  | _ => exact Nat.zero_le _

/-- All tokens of a list are the encoder's. -/
def dk_emitted (produced : ℕ) (ts : List DkToken) : Prop :=
  dk_along (fun produced t => t.Emitted produced) produced ts

/-- The output is the words of some tokens of the encoder, and they denote the input up to a
position. -/
def DkEmits (inp : Bytes) (i : ℕ) (out : Bytes) : Prop :=
  ∃ ts, out = dk_code.encode ts ∧ dk_emitted 0 ts ∧ dk_denote [] ts = inp.take i

/-- One token more. -/
theorem DkEmits.snoc {inp out : Bytes} {i : ℕ} {t : DkToken} (h : DkEmits inp i out)
    (he : t.Emitted i) (hc : t.Covers inp i) : DkEmits inp (i + t.size) (out ++ t.word) := by
  obtain ⟨ts, rfl, hts, hden⟩ := h
  have hin := hc.inside
  -- what was produced is as long as what was read
  have hsum : (ts.map DkToken.size).sum = i := by
    have hlen := dk_denote_length [] ts
    rw [hden, List.length_take, List.length_nil] at hlen
    omega
  refine ⟨ts ++ [t], ?_, ?_, ?_⟩
  · rw [TokenCode.encode_append, TokenCode.encode_cons, TokenCode.encode_nil, List.append_nil,
      dk_code_word]
  · apply dk_along_append.mpr
    rw [Nat.zero_add, hsum]
    exact ⟨hts, he, trivial⟩
  · rw [dk_denote_append, hden]
    change inp.take i ++ t.expand (inp.take i) = _
    rw [hc.expands, List.take_add, slice]

/-- A flush of pending literals is a token. -/
theorem dk_literal_token (inp : Bytes) {p n : ℕ} (hpos : 0 < n) (hmax : n ≤ DK_MAX_LITERAL)
    (hp : p + n ≤ inp.length) : ∃ t : DkToken, t.word = dk_literal inp p n ∧ t.size = n ∧
      t.Emitted p ∧ t.Covers inp p := by
  have hlen : (slice inp p n).length = n := length_slice_of_le hp
  have hrange : 1 ≤ (slice inp p n).length ∧ (slice inp p n).length ≤ 64 := by
    rw [hlen]
    exact ⟨hpos, hmax⟩
  refine ⟨.literal (slice inp p n) hrange, ?_, hlen, hrange, ?_, ?_⟩
  · rw [DkToken.word, DkToken.opcode, DkToken.operand, dk_literal, hlen]
  · rw [DkToken.size, hlen]
    exact hp
  · rw [DkToken.size, hlen]
    rfl

/-- A match is a reference to the bytes it matched. -/
theorem DkMatch.covers {inp : Bytes} {i len dist : ℕ} (h : DkMatch inp i len dist)
    (hmin : DK_MIN_BACK_REF ≤ len) :
    ∃ range, (DkToken.back_ref len dist range).Emitted i ∧
      (DkToken.back_ref len dist range).Covers inp i := by
  have hlen := h.max_len
  have hlow := h.min_dist
  have hhigh := h.max_dist
  have hback := h.dist_le
  have hover := h.no_overlap
  have hin := h.inside
  simp only [DK_MIN_BACK_REF, DK_MAX_BACK_REF, DK_MAX_BACK_DIST] at hmin hlen hhigh
  have htake : (inp.take i).length = i := by
    rw [List.length_take]
    omega
  refine ⟨⟨⟨by omega, by omega⟩, hlow, hhigh⟩, ⟨⟨hmin, hlen⟩, ⟨hlow, hhigh⟩, hback, hover⟩, hin, ?_⟩
  change refer (inp.take i) dist len 0 = slice inp i len
  rw [refer_of_le 0 hover (by rw [htake]; exact hback), htake]
  change slice (inp.take i) (i - dist) len = slice inp i len
  rw [slice_take (by omega)]
  apply slice_congr
  intro j hj
  have heq := h.equal j hj
  rw [List.getD_eq_getElem _ _ (by omega), List.getD_eq_getElem _ _ (by omega)] at heq
  rw [List.getElem?_eq_getElem (by omega), List.getElem?_eq_getElem (by omega), heq]
  congr 2
  omega

/-- **What one iteration can do**: take one literal more, which flushes when the run is full, or
flush and emit a token of another class, which is shorter than what it stands for. -/
theorem dk_deflate_step_cases {inp : Bytes} {s : DkState} (hlt : s.i < inp.length) :
    (∃ start, start = (if s.literal_len = 0 then s.i else s.literal_start) ∧
      dk_deflate_step inp s =
        if s.literal_len + 1 = DK_MAX_LITERAL then
          ⟨s.i + 1, s.out ++ dk_literal inp start (s.literal_len + 1), start, 0⟩
        else ⟨s.i + 1, s.out, start, s.literal_len + 1⟩) ∨
    ∃ t : DkToken, t.Emitted s.i ∧ t.Covers inp s.i ∧ t.word.length + 1 ≤ t.size ∧
      dk_deflate_step inp s = ⟨s.i + t.size, dk_flush inp s ++ t.word, s.literal_start, 0⟩ := by
  have hspec := dk_choose_spec (dk_count_zero_run inp s.i) (dk_count_byte_run inp s.i)
    (dk_find_match inp s.i).1
  simp only [dk_deflate_step]
  generalize dk_choose (dk_count_zero_run inp s.i) (dk_count_byte_run inp s.i)
    (dk_find_match inp s.i).1 = choice at hspec ⊢
  obtain ⟨kind, take⟩ := choice
  cases kind with
  | literal => exact Or.inl ⟨_, rfl, rfl⟩
  | zero_run =>
    obtain ⟨rfl, hmin⟩ := hspec
    obtain ⟨hmax, hin, hzero⟩ := dk_count_zero_run_spec (Nat.le_of_lt hlt)
    simp only [DK_MIN_ZERO_RUN, DK_MAX_ZERO_RUN] at hmin hmax
    refine Or.inr ⟨.zero_run _ ⟨hmin, by omega⟩, ⟨hmin, hmax⟩,
      ⟨hin, (slice_eq_replicate hin hzero).symm⟩, ?_, rfl⟩
    exact hmin
  | byte_run =>
    obtain ⟨rfl, hmin⟩ := hspec
    obtain ⟨hmax, hin, hrun⟩ := dk_count_byte_run_spec hlt
    simp only [DK_MIN_BYTE_RUN, DK_MAX_BYTE_RUN] at hmin hmax
    refine Or.inr ⟨.byte_run _ (inp.getD s.i 0) ⟨by omega, by omega⟩, ⟨hmin, hmax⟩,
      ⟨hin, (slice_eq_replicate hin hrun).symm⟩, ?_, rfl⟩
    exact hmin
  | back_ref =>
    obtain ⟨rfl, hmin⟩ := hspec
    obtain ⟨range, hemit, hcov⟩ :=
      (dk_find_match_spec (Nat.le_of_lt hlt) hmin).covers hmin
    refine Or.inr ⟨_, hemit, hcov, ?_, rfl⟩
    exact hmin

/-! ## The loop

The invariant through one iteration and through all of them.
-/

/-- The loop invariant of the encoder. Up to the pending literals, which end at `i`, the
output is tokens that denote the input; and the output is no longer than
the input consumed plus one byte for each full literal run. -/
structure DkInvariant (inp : Bytes) (s : DkState) : Prop where
  le : s.i ≤ inp.length
  lit_lt : s.literal_len < DK_MAX_LITERAL
  lit_le : s.literal_len ≤ s.i
  lit_start : 0 < s.literal_len → s.literal_start + s.literal_len = s.i
  emits : DkEmits inp (s.i - s.literal_len) s.out
  size : ∃ full, 64 * full + s.literal_len ≤ s.i ∧ s.out.length + s.literal_len ≤ s.i + full

/-- A flush leaves nothing pending. -/
theorem dk_flush_emits {inp : Bytes} {s : DkState} (h : DkInvariant inp s) :
    DkEmits inp s.i (dk_flush inp s) := by
  have hlit := h.lit_lt
  have hle := h.le
  have hemits := h.emits
  unfold dk_flush
  split_ifs with hpos
  · have hstart := h.lit_start hpos
    have hp : s.i - s.literal_len = s.literal_start := by omega
    rw [hp] at hemits
    obtain ⟨t, hword, hsize, hemit, hcov⟩ :=
      dk_literal_token inp hpos (Nat.le_of_lt hlit) (Nat.le_trans (Nat.le_of_eq hstart) hle)
    have hsnoc := hemits.snoc hemit hcov
    rwa [hsize, hstart, hword] at hsnoc
  · have hnone : s.i - s.literal_len = s.i := by omega
    rwa [hnone] at hemits

/-- A flush costs one opcode. -/
theorem dk_flush_length {inp : Bytes} {s : DkState} (h : DkInvariant inp s) :
    (dk_flush inp s).length ≤ s.out.length + s.literal_len + 1 ∧
      (s.literal_len = 0 → dk_flush inp s = s.out) := by
  have hle := h.le
  unfold dk_flush
  split_ifs with hpos
  · have hstart := h.lit_start hpos
    refine ⟨?_, fun h0 => absurd h0 (by omega)⟩
    rw [List.length_append, dk_literal, List.length_cons, length_slice_of_le (by omega)]
    omega
  · exact ⟨by omega, fun _ => rfl⟩

/-- With nothing pending there is room for the terminator in the worst case. -/
theorem dk_flush_le {inp : Bytes} {s : DkState} (h : DkInvariant inp s) :
    (dk_flush inp s).length + 1 ≤ dk_worst inp.length := by
  obtain ⟨full, hf1, hf2⟩ := h.size
  obtain ⟨hlen, hzero⟩ := dk_flush_length h
  have hle := h.le
  rw [dk_worst]
  rcases Nat.eq_zero_or_pos s.literal_len with h0 | hpos
  · rw [hzero h0]
    omega
  · omega

/-- **One step of the encoder** keeps the invariant and moves on. -/
theorem dk_deflate_step_spec {inp : Bytes} {s : DkState} (h : DkInvariant inp s)
    (hlt : s.i < inp.length) :
    DkInvariant inp (dk_deflate_step inp s) ∧ s.i < (dk_deflate_step inp s).i := by
  obtain ⟨full, hf1, hf2⟩ := h.size
  have hlit := h.lit_lt
  have hlle := h.lit_le
  simp only [DK_MAX_LITERAL] at hlit
  rcases dk_deflate_step_cases hlt with ⟨start, hstart, hs⟩ | ⟨t, hemit, hcov, hword, hs⟩
  · -- the run that is pending after this byte starts where it started, or here
    have hend : start + (s.literal_len + 1) = s.i + 1 := by
      rw [hstart]
      split_ifs with h0
      · omega
      · have := h.lit_start (by omega)
        omega
    have hemits := h.emits
    rw [hs]
    split_ifs with hfull
    · simp only [DK_MAX_LITERAL] at hfull
      refine ⟨⟨hlt, by simp [DK_MAX_LITERAL], by simp, by simp, ?_, full + 1, ?_, ?_⟩, by simp⟩
      · have hp : s.i - s.literal_len = start := by omega
        rw [hp] at hemits
        obtain ⟨t, hword, hsize, hemit, hcov⟩ := dk_literal_token inp (p := start)
          (Nat.succ_pos s.literal_len) (by simp only [DK_MAX_LITERAL]; omega) (by omega)
        have hsnoc := hemits.snoc hemit hcov
        rwa [hsize, hend, hword] at hsnoc
      · simp only
        omega
      · simp only [List.length_append, dk_literal, List.length_cons]
        rw [length_slice_of_le (by omega)]
        omega
    · simp only [DK_MAX_LITERAL] at hfull
      refine ⟨⟨hlt, by simp only [DK_MAX_LITERAL]; omega, by simp only; omega,
        fun _ => hend, ?_, full, ?_, ?_⟩, by simp⟩
      · have hp : s.i + 1 - (s.literal_len + 1) = s.i - s.literal_len := by omega
        simp only
        rwa [hp]
      · simp only
        omega
      · simp only
        omega
  -- a token: what was pending is flushed in front of it
  · have hin := hcov.inside
    have hflush := (dk_flush_length h).1
    rw [hs]
    refine ⟨⟨hin, by simp [DK_MAX_LITERAL], by simp, by simp, ?_, full, by simp only; omega, ?_⟩, ?_⟩
    · exact (dk_flush_emits h).snoc hemit hcov
    · simp only [List.length_append]
      omega
    · simp only
      omega

/-- The loop runs to the end of the input and keeps the invariant. -/
theorem dk_deflate_loop_spec {inp : Bytes} (fuel : ℕ) {s : DkState} (h : DkInvariant inp s)
    (hfuel : inp.length ≤ s.i + fuel) :
    DkInvariant inp (dk_deflate_loop inp fuel s) ∧
      (dk_deflate_loop inp fuel s).i = inp.length := by
  induction fuel generalizing s with
  | zero =>
    have := h.le
    exact ⟨h, by simp only [dk_deflate_loop]; omega⟩
  | succ fuel ih =>
    simp only [dk_deflate_loop]
    split_ifs with hlt
    · obtain ⟨hs, hi⟩ := dk_deflate_step_spec h hlt
      exact ih hs (by omega)
    · have := h.le
      exact ⟨h, by omega⟩

/-- The encoder's state before the loop. -/
theorem dk_initial_invariant (inp : Bytes) : DkInvariant inp ⟨0, [], 0, 0⟩ :=
  ⟨Nat.zero_le _, by simp [DK_MAX_LITERAL], Nat.le_refl _, by simp, ⟨[], rfl, trivial, rfl⟩, 0,
    Nat.le_refl _, Nat.le_refl _⟩

/-! ## What the encoder emits

The results: a list of tokens of the encoder's own, the round trip, the length, and the envelope of
opcodes.
-/

/-- The output is tokens of the encoder that denote the input, and one terminator. -/
theorem dk_deflate_emits {x bs : Bytes} {out_cap : ℕ} (h : pakka_dk_deflate x out_cap = .ok bs) :
    ∃ ts, bs = dk_code.encode ts ++ [0xFF] ∧ dk_emitted 0 ts ∧ dk_denote [] ts = x := by
  unfold pakka_dk_deflate at h
  split_ifs at h
  obtain rfl := Except.ok.inj h
  obtain ⟨hinv, hi⟩ := dk_deflate_loop_spec x.length (dk_initial_invariant x) (by simp)
  obtain ⟨ts, hts, hemit, hden⟩ := dk_flush_emits hinv
  rw [hi, List.take_length] at hden
  exact ⟨ts, by rw [hts], hemit, hden⟩

/-- What the encoder emits decodes to its input. -/
theorem dk_inflate_dk_deflate {x bs : Bytes} {out_cap : ℕ}
    (h : pakka_dk_deflate x out_cap = .ok bs) : pakka_dk_inflate bs x.length = .ok x := by
  obtain ⟨ts, rfl, hemit, hden⟩ := dk_deflate_emits h
  apply (dk_inflate_iff _ _ _).mpr
  exact ⟨ts, ⟨[0xFF], rfl, TokenCode.Ended.stop []⟩,
    dk_along_mono (fun _ _ ht => ht.reach) hemit, hden, rfl⟩

/-- The output never outgrows the worst case, so the writes of the encoder stay in a
buffer of that size. -/
theorem dk_deflate_length {x bs : Bytes} {out_cap : ℕ}
    (h : pakka_dk_deflate x out_cap = .ok bs) : bs.length ≤ dk_worst x.length := by
  unfold pakka_dk_deflate at h
  split_ifs at h
  obtain rfl := Except.ok.inj h
  obtain ⟨hinv, -⟩ := dk_deflate_loop_spec x.length (dk_initial_invariant x) (by simp)
  rw [List.length_append, List.length_singleton]
  exact dk_flush_le hinv

/-- **The encoder stays in its envelope.** What a successful run writes is the words of tokens
that are each inside the encoder's caps at the place where it stands, and then the terminator and
nothing else; and whoever reads it as a stream reads these tokens and stops at that terminator. No
length and no distance has run over into another opcode. -/
theorem dk_deflate_envelope (x bs : Bytes) (out_cap : ℕ)
    (h : pakka_dk_deflate x out_cap = .ok bs) :
    ∃ ts, bs = dk_code.encode ts ++ [0xFF] ∧ dk_emitted 0 ts ∧ (∀ t ∈ ts, t.Legible) ∧
      ∀ us rest, bs = dk_code.encode us ++ rest → dk_code.Ended rest → us = ts ∧ rest = [0xFF] := by
  obtain ⟨ts, hbs, hemit, -⟩ := dk_deflate_emits h
  refine ⟨ts, hbs, hemit, fun t _ => t.legible, ?_⟩
  intro us rest hread hend
  rw [hbs] at hread
  have hstop : dk_code.Ended [0xFF] := TokenCode.Ended.stop []
  exact TokenCode.encode_unique hend hstop hread.symm

/-- The envelope of a stream with a literal, a zero run and a byte run. -/
theorem dk_deflate_envelope_mixed :
    pakka_dk_deflate [7, 0, 0, 0, 9, 9, 9] 20 = .ok [0, 7, 65, 129, 9, 255] ∧
    ∃ ts, [0, 7, 65, 129, 9, 255] = dk_code.encode ts ++ [0xFF] ∧ dk_emitted 0 ts ∧
      (∀ t ∈ ts, t.Legible) ∧
      ∀ us rest, [0, 7, 65, 129, 9, 255] = dk_code.encode us ++ rest → dk_code.Ended rest →
        us = ts ∧ rest = [0xFF] :=
  ⟨by decide, dk_deflate_envelope [7, 0, 0, 0, 9, 9, 9] _ 20 (by decide)⟩

/-- **Round trip.** With room for the worst case the encoder succeeds, stays inside its
buffer, and the decoder gives the input back. -/
theorem dk_round_trip (x : Bytes) (out_cap : ℕ)
    (hcap : x.length + (x.length + 63) / 64 + 1 ≤ out_cap) :
    ∃ bs, pakka_dk_deflate x out_cap = .ok bs ∧ bs.length ≤ out_cap ∧
      pakka_dk_inflate bs x.length = .ok x := by
  have hw : ¬ dk_worst x.length > out_cap := by
    unfold dk_worst
    omega
  have hok : pakka_dk_deflate x out_cap =
      .ok (dk_flush x (dk_deflate_loop x x.length ⟨0, [], 0, 0⟩) ++ [0xFF]) := by
    unfold pakka_dk_deflate
    rw [if_neg hw]
  refine ⟨_, hok, ?_, dk_inflate_dk_deflate hok⟩
  have := dk_deflate_length hok
  omega

/-- The round trip at an input that uses every opcode class. -/
theorem dk_round_trip_mixed :
    (List.length [7, 0, 0, 0, 9, 9, 9, 1, 2, 3, 1, 2, 3] +
        (List.length [7, 0, 0, 0, 9, 9, 9, 1, 2, 3, 1, 2, 3] + 63) / 64 + 1 ≤ 15) ∧
      ∃ bs, pakka_dk_deflate [7, 0, 0, 0, 9, 9, 9, 1, 2, 3, 1, 2, 3] 15 = .ok bs ∧
        bs.length ≤ 15 ∧ pakka_dk_inflate bs 13 = .ok [7, 0, 0, 0, 9, 9, 9, 1, 2, 3, 1, 2, 3] :=
  ⟨by decide, dk_round_trip [7, 0, 0, 0, 9, 9, 9, 1, 2, 3, 1, 2, 3] 15 (by decide)⟩

end Pakka
