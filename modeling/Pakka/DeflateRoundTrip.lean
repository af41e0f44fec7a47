/-
Out and back through the vendored codec.

What the encoder makes of a text, the decoder makes the text of again. The module puts the parts
together: the encoder cuts the text into sequences, counts their symbols, builds two codes from the
counts and writes the block in the cheaper of two forms; each of these steps has its own module, and
so has the reading of each part of a block.

Two conditions come with it, on every block of the run: a literal and the copy behind it fit in what
a refill promises, and a text that ends in a stored chunk does not end in one of a byte or two. Both
are conditions on the run of the encoder (`CleanRun`), and both can be told from the text and the
level. The encoder itself fails for no reason but the number of sequences of a block
(`sdeflate_succeeds`).

The last part is about room. A block takes the cheaper of its two forms. So the bytes of a stream are
bounded by the length of the text and the number of stored chunks, and for texts of up to three
blocks that is what the bound function of the codec allows for; and a text of few tokens becomes
short (`few_tokens_room`), whatever its letters are.
-/
import Pakka.SdeflCost
import Pakka.SinflCapacity

set_option autoImplicit false

namespace Pakka

open Cells BitString ByteImage Lz77 Function

/-! ## A block

What a block of the encoder puts into the stream inflates to the part of the text it covers,
whichever form it has.
-/

/-- What the decoder asks of a block. -/
structure Clean (inp : Bytes) (s : Sdefl) (blk_len : ℕ) : Prop where
  chunks : sdefl_kind s blk_len = .ucompr → 3 ≤ (blk_len - 1) % PAKKA_SDEFL_RAW_BLK_SIZE + 1
  pairs : sdefl_kind s blk_len = .dyn → Budget s.cod (s.seq.flatMap (sdefl_seq_tokens inp))

instance (inp : Bytes) (s : Sdefl) (blk_len : ℕ) : Decidable (Clean inp s blk_len) :=
  decidable_of_iff ((sdefl_kind s blk_len = .ucompr →
    3 ≤ (blk_len - 1) % PAKKA_SDEFL_RAW_BLK_SIZE + 1) ∧
      (sdefl_kind s blk_len = .dyn → Budget s.cod (s.seq.flatMap (sdefl_seq_tokens inp))))
    ⟨fun h => ⟨h.1, h.2⟩, fun h => ⟨h.chunks, h.pairs⟩⟩

attribute [local irreducible] sdefl_kind in
/-- A block is put by its kind. -/
theorem block_eq (inp : Bytes) (s : Sdefl) (is_last : Bool) (blk_begin blk_end : ℕ) :
    sdefl_block inp s is_last blk_begin blk_end =
    match sdefl_kind s (blk_end - blk_begin) with
    | .ucompr =>
      let n := pakka_sdefl_div_round_up (blk_end - blk_begin) PAKKA_SDEFL_RAW_BLK_SIZE
      sdefl_ucompr inp is_last blk_begin n n (blk_end - blk_begin) s.w
    | .dyn =>
      let symcnt := (pakka_sdefl_precode s.cod.litLen s.cod.offLen).1
      let items := (pakka_sdefl_precode s.cod.litLen s.cod.offLen).2.items
      sdefl_dynamic inp s is_last symcnt items (sdefl_pre_code s).2 (sdefl_pre_code s).1
        (sdefl_item_cnt (sdefl_pre_code s).1) := by
  -- as functions the two are the same text, and the kind is not computed
  have hfun : sdefl_block = fun inp s is_last blk_begin blk_end =>
    let blk_len := blk_end - blk_begin
    match sdefl_kind s blk_len with
    | .ucompr =>
      let n := pakka_sdefl_div_round_up blk_len PAKKA_SDEFL_RAW_BLK_SIZE
      sdefl_ucompr inp is_last blk_begin n n blk_len s.w
    | .dyn =>
      let symcnt := (pakka_sdefl_precode s.cod.litLen s.cod.offLen).1
      let items := (pakka_sdefl_precode s.cod.litLen s.cod.offLen).2.items
      sdefl_dynamic inp s is_last symcnt items (sdefl_pre_code s).2 (sdefl_pre_code s).1
        (sdefl_item_cnt (sdefl_pre_code s).1) := rfl
  exact congrFun (congrFun (congrFun (congrFun (congrFun hfun inp) s) is_last) blk_begin) blk_end

/-- **A block.** It is always put, and a clean one inflates. -/
theorem block_spec {s : Sdefl} {freqLit freqOff : List ℕ} {bs : List Bool} {inp : Bytes}
    {start blk_end : ℕ} (is_last : Bool) (hw : Writes s.w bs)
    (hcode : BlockCode s.cod freqLit freqOff)
    (hspell : Spells inp start (s.seq.flatMap (sdefl_seq_tokens inp)) blk_end)
    (hlive : ∀ t ∈ s.seq.flatMap (sdefl_seq_tokens inp), TokenLive freqLit freqOff t)
    (hcount : Counted s (s.seq.flatMap (sdefl_seq_tokens inp))) :
    ∃ w' B, sdefl_block inp s is_last start blk_end = some w' ∧ Writes w' (bs ++ B) ∧
      B.length ≤ 2 + sdefl_fix_cost (blk_end - start) ∧
      B.length ≤ 2328 + 47 * (s.seq.flatMap (sdefl_seq_tokens inp)).length ∧
      (start < blk_end → Clean inp s (blk_end - start) →
        Inflates inp start blk_end is_last bs.length B) := by
  have hle := hspell.le
  have hdyn := dyn_cost_le hcode hcount hlive
  rw [block_eq]
  rcases hkind : sdefl_kind s (blk_end - start) with _ | _
  · dsimp only
    obtain ⟨w', B, hput, hw', ⟨hroom, -⟩, hinf⟩ := ucompr_spec inp is_last
      (n := pakka_sdefl_div_round_up (blk_end - start) PAKKA_SDEFL_RAW_BLK_SIZE) hw le_rfl rfl
      (fun _ => show start = start + _ by rw [Nat.sub_self, Nat.zero_mul, Nat.add_zero])
      (show start + (blk_end - start) ≤ inp.length by omega)
    have hfix : B.length ≤ 2 + sdefl_fix_cost (blk_end - start) := by
      rw [sdefl_fix_cost]
      omega
    refine ⟨w', B, hput, hw', hfix, ?_, fun hlt hclean => ?_⟩
    · -- as it is, it was not the dearer of the two
      rw [sdefl_kind, pakka_sdefl_blk_type] at hkind
      split_ifs at hkind
      omega
    have hpos : 0 < pakka_sdefl_div_round_up (blk_end - start) PAKKA_SDEFL_RAW_BLK_SIZE := by
      rw [pakka_sdefl_div_round_up]
      dsimp only [PAKKA_SDEFL_RAW_BLK_SIZE]
      omega
    have h := hinf fun _ => hclean.chunks hkind
    rwa [decide_eq_true hpos, Bool.and_true, Nat.add_sub_cancel' hle.1] at h
  · dsimp only
    obtain ⟨w', hput, hw'⟩ := hw.dynamic hcode (head_parts hcode) inp is_last hlive
    have hcost := dyn_cost_spec hcode hcount hlive is_last
    exact ⟨w', _, hput, hw', dyn_room hcode hcount hlive is_last hkind, by omega, fun _ hclean =>
      dyn_inflates hcode (head_parts hcode) hspell hlive (hclean.pairs hkind)⟩

/-! ## The run

The encoder goes from block to block, and so does the induction. `AtBlock` is what holds in front of
each: where the block starts, that the counts are cleared, and that the tables of the searches speak
of the text before it.
-/

/-- Every block of the run is clean. -/
def sdefl_clean (inp : Bytes) (lvl : ℕ) : ℕ → Sdefl → ℕ → Prop
  | 0, _, _ => True
  | fuel + 1, s, i => ∀ z ∈ sdefl_sequences inp lvl s i,
      Clean inp (sdefl_block_codes z.s) (sdefl_blk_end inp i - i) ∧
      ∀ s' ∈ pakka_sdefl_flush inp z.s (sdefl_blk_end inp i = inp.length) i (sdefl_blk_end inp i),
        z.i < inp.length → sdefl_clean inp lvl fuel s' z.i

instance (inp : Bytes) (lvl : ℕ) : ∀ fuel s i, Decidable (sdefl_clean inp lvl fuel s i)
  | 0, _, _ => .isTrue trivial
  | fuel + 1, s, i =>
    have (s' : Sdefl) (i' : ℕ) : Decidable (sdefl_clean inp lvl fuel s' i') :=
      instDecidableSdefl_clean inp lvl fuel s' i'
    inferInstanceAs (Decidable (∀ z ∈ sdefl_sequences inp lvl s i, _ ∧ ∀ s' ∈ _, _ → _))

/-- The encoder between two blocks. -/
structure AtBlock (inp : Bytes) (s : Sdefl) (bs : List Bool) (i : ℕ) : Prop where
  writes : Writes s.w bs
  front : InFront s i
  seq_eq : s.seq = []
  lit_eq : s.freqLit = []
  off_eq : s.freqOff = []

section Run

variable {inp : Bytes} {s : Sdefl} {bs : List Bool} {i : ℕ}

theorem AtBlock.start (h : AtBlock inp s bs i) (hi : i ≤ inp.length) :
    LzInv inp i s.w s.cod ⟨s, i, 0⟩ ∧ Few i ⟨s, i, 0⟩ := by
  refine ⟨⟨rfl, rfl, le_rfl, hi, ?_, ?_, fun j hj hj' => absurd hj' (by dsimp only at hj ⊢; omega),
    fun sym => ?_, fun sym => ?_, h.front⟩, ?_⟩
  · rw [h.seq_eq]
    exact .nil hi
  · rw [h.seq_eq]
    simp
  · rw [h.seq_eq, h.lit_eq]
    exact read_nil sym
  · rw [h.seq_eq, h.off_eq]
    exact read_nil sym
  · rw [Few, h.seq_eq]
    exact Nat.zero_le _

theorem blk_end_spec {inp : Bytes} {i : ℕ} (hi : i ≤ inp.length) :
    i ≤ sdefl_blk_end inp i ∧ (i < inp.length → i < sdefl_blk_end inp i) ∧
      sdefl_blk_end inp i ≤ inp.length := by
  rw [sdefl_blk_end]
  dsimp only [PAKKA_SDEFL_BLK_MAX]
  split_ifs <;> omega

/-- **The sequences of a block**, or too many of them. -/
theorem sequences_spec (lvl : ℕ) (h : AtBlock inp s bs i) (hi : i ≤ inp.length) :
    (sdefl_sequences inp lvl s i = none ∧
        5 * PAKKA_SDEFL_SEQ_SIZ ≤ 2 * (sdefl_blk_end inp i - i) + 15) ∨
      ∃ z, sdefl_sequences inp lvl s i = some z ∧ LzInv inp i s.w s.cod z ∧
        z.i = sdefl_blk_end inp i ∧ z.litlen = 0 := by
  obtain ⟨hinv, hfew⟩ := h.start hi
  obtain ⟨hend, -, hend'⟩ := blk_end_spec hi
  rw [sdefl_sequences]
  rw [Option.bind_eq_bind]
  rcases lz_loop_spec lvl (sdefl_blk_end inp i - i) hinv hend hend' (by dsimp only; omega) with
    ⟨hnone, hfull⟩ | ⟨z, hloop, hinv', hzi, hkeep⟩
  · rw [hnone]
    exact Or.inl ⟨rfl, hfull hfew⟩
  · rw [hloop]
    have hfew' := hkeep hfew
    rw [Few] at hfew'
    rcases seq_lits_spec hinv' with ⟨hnone, hfull⟩ | ⟨z', hseq, hinv'', hi', hlit, -⟩
    · exact Or.inl ⟨hnone, by omega⟩
    · exact Or.inr ⟨z', hseq, hinv'', by omega, hlit⟩

/-- The sequences of a block, where they are not too many. -/
theorem sequences_some {lvl : ℕ} (h : AtBlock inp s bs i) (hi : i ≤ inp.length) {z : SdeflLz}
    (hz : sdefl_sequences inp lvl s i = some z) :
    LzInv inp i s.w s.cod z ∧ z.i = sdefl_blk_end inp i ∧ z.litlen = 0 := by
  rcases sequences_spec lvl h hi with ⟨hnone, -⟩ | ⟨z', hz', hfacts⟩
  · rw [hnone] at hz
    exact absurd hz (by simp)
  · rw [hz'] at hz
    obtain rfl := Option.some_inj.mp hz
    exact hfacts

/-- The sequences of a block, when its codes are made. -/
theorem coded_block {start : ℕ} {w : SdeflBits} {cod : SdeflCod} {z : SdeflLz} (hw : Writes w bs)
    (hinv : LzInv inp start w cod z) (hlit : z.litlen = 0) :
    let s := sdefl_block_codes z.s
    Writes s.w bs ∧ BlockCode s.cod s.freqLit s.freqOff ∧
      Spells inp start (s.seq.flatMap (sdefl_seq_tokens inp)) z.i ∧
      (∀ t ∈ s.seq.flatMap (sdefl_seq_tokens inp), TokenLive s.freqLit s.freqOff t) ∧
      Counted s (s.seq.flatMap (sdefl_seq_tokens inp)) := by
  have hcoded := block_codes_spec z.s
  generalize sdefl_block_codes z.s = s at hcoded
  have hspell := hinv.spells
  rw [hlit, Nat.sub_zero, ← hcoded.seq_eq] at hspell
  have hlive := hinv.live
  rw [← hcoded.seq_eq] at hlive
  refine ⟨?_, hcoded.code, hspell, fun t ht => (hlive t ht).mono (fun sym => hcoded.live)
    fun sym hsym => by rwa [hcoded.off_eq], fun sym hsym => ?_, fun sym => ?_⟩
  · rw [hcoded.w_eq, hinv.w_eq]
    exact hw
  · rw [hcoded.lit_eq sym hsym, hinv.lit_count, hlit, List.take_zero, List.map_nil, List.append_nil,
      hcoded.seq_eq]
  · rw [hcoded.off_eq, hinv.off_count, hcoded.seq_eq]

/-- **From one block to the next.** -/
theorem flush_spec {start : ℕ} {w : SdeflBits} {cod : SdeflCod} {z : SdeflLz} (is_last : Bool)
    (hw : Writes w bs) (hinv : LzInv inp start w cod z) (hlit : z.litlen = 0) :
    ∃ s' B, pakka_sdefl_flush inp z.s is_last start z.i = some s' ∧ AtBlock inp s' (bs ++ B) z.i ∧
      B.length ≤ 2 + sdefl_fix_cost (z.i - start) ∧
      B.length ≤ 2328 + 47 * (z.s.seq.flatMap (sdefl_seq_tokens inp)).length ∧
      (start < z.i → Clean inp (sdefl_block_codes z.s) (z.i - start) →
        Inflates inp start z.i is_last bs.length B) := by
  have hcoded := block_codes_spec z.s
  obtain ⟨hw', hcode, hspell, hlive, hcount⟩ := coded_block hw hinv hlit
  obtain ⟨w', B, hput, hwrites, hroom, hfew, hinf⟩ := block_spec is_last hw' hcode hspell hlive hcount
  rw [hcoded.seq_eq] at hfew
  refine ⟨{ sdefl_block_codes z.s with w := w', freqLit := [], freqOff := [], seq := [] }, B, ?_,
    ⟨hwrites, ⟨?_, ?_⟩, rfl, rfl, rfl⟩, hroom, hfew, hinf⟩
  · rw [pakka_sdefl_flush, hput]
    rfl
  · dsimp only
    rw [hcoded.tbl_eq]
    exact hinv.front.tbl
  · dsimp only
    rw [hcoded.prv_eq]
    exact hinv.front.prv

/-- The bits that `len` bytes take at most. A whole block takes 226 more than its bytes. -/
def sdefl_room (len : ℕ) : ℕ :=
  8 * len + 226 * ((len - 1) / 262144) + 40 * ((len - 1) % 262144 / 65535 + 1) + 26

theorem fix_cost_eq (n : ℕ) : 2 + sdefl_fix_cost n = 8 * n + 40 * ((n + 65534) / 65535) + 26 := by
  rw [sdefl_fix_cost, pakka_sdefl_div_round_up]
  dsimp only [PAKKA_SDEFL_RAW_BLK_SIZE]
  omega

/-- A whole block, and the rest. -/
theorem room_next {len : ℕ} (h : 262144 < len) :
    2 + sdefl_fix_cost 262144 + sdefl_room (len - 262144) ≤ sdefl_room len := by
  rw [fix_cost_eq, sdefl_room, sdefl_room]
  have hdiv : (len - 1) / 262144 = (len - 262144 - 1) / 262144 + 1 := by omega
  have hmod : (len - 1) % 262144 = (len - 262144 - 1) % 262144 := by omega
  rw [hdiv, hmod]
  omega

/-- The rest in one block. -/
theorem room_last {len : ℕ} (h : len ≤ 262144) : 2 + sdefl_fix_cost len ≤ sdefl_room len := by
  rw [fix_cost_eq, sdefl_room]
  omega

/-- **The whole run.** -/
theorem compr_loop_spec (lvl fuel : ℕ) (h : AtBlock inp s bs i) (hi : i ≤ inp.length)
    (hfuel : inp.length < i + fuel) :
    (sdefl_compr_loop inp lvl fuel s i = none ∧ 5 * PAKKA_SDEFL_SEQ_SIZ ≤ 2 * inp.length + 15) ∨
      ∃ s' B, sdefl_compr_loop inp lvl fuel s i = some s' ∧ Writes s'.w (bs ++ B) ∧
        B.length ≤ sdefl_room (inp.length - i) ∧
        (i < inp.length → sdefl_clean inp lvl fuel s i →
          Inflates inp i inp.length true bs.length B) := by
  induction fuel generalizing s bs i with
  | zero => exact (Nat.not_lt.mpr hi hfuel).elim
  | succ fuel ih =>
    obtain ⟨hle, hgo, hend⟩ := blk_end_spec hi
    rw [sdefl_compr_loop, sdefl_clean]
    by_cases hint : i + PAKKA_SDEFL_BLK_MAX > INT_MAX
    · rw [if_pos hint]
      refine Or.inl ⟨rfl, ?_⟩
      dsimp only [PAKKA_SDEFL_SEQ_SIZ, PAKKA_SDEFL_BLK_MAX, INT_MAX] at hint ⊢
      omega
    rw [if_neg hint]
    rcases sequences_spec lvl h hi with ⟨hnone, hfull⟩ | ⟨z, hseq, hinv, hzi, hlit⟩
    · rw [hnone]
      exact Or.inl ⟨rfl, by omega⟩
    obtain ⟨s', B, hflush, hat, hroom, -, hinf⟩ :=
      flush_spec (sdefl_blk_end inp i = inp.length) h.writes hinv hlit
    rw [hzi] at hflush hat hroom hinf
    rw [hseq, Option.bind_eq_bind, Option.bind_some, hflush,
      Option.bind_eq_bind, Option.bind_some, hzi]
    -- a block with others behind it is a whole one
    by_cases hmore : sdefl_blk_end inp i < inp.length
    · rw [if_pos hmore]
      rcases ih hat hend (by omega) with ⟨hnone, hfull⟩ | ⟨s'', C, hloop, hw'', hroom', hinf'⟩
      · exact Or.inl ⟨hnone, hfull⟩
      · refine Or.inr ⟨s'', B ++ C, hloop, by rw [← List.append_assoc]; exact hw'', ?_,
          fun hlt hclean => ?_⟩
        · have hblk : sdefl_blk_end inp i = i + 262144 := by
            rw [sdefl_blk_end] at hmore ⊢
            dsimp only [PAKKA_SDEFL_BLK_MAX] at hmore ⊢
            split_ifs at hmore ⊢ <;> omega
          have hnext := room_next (show 262144 < inp.length - i by omega)
          rw [hblk, Nat.add_sub_cancel_left] at hroom
          rw [hblk, ← Nat.sub_sub] at hroom'
          rw [List.length_append]
          omega
        obtain ⟨hblock, hrest⟩ := hclean z (Option.mem_some_self z)
        have hfirst := hinf (hgo hlt) hblock
        rw [decide_eq_false (Nat.ne_of_lt hmore)] at hfirst
        rw [hzi] at hrest
        have hsecond := hinf' hmore (hrest s' hflush hmore)
        rw [List.length_append] at hsecond
        exact hfirst.append hsecond hend
    · rw [if_neg hmore]
      refine Or.inr ⟨s', B, rfl, hat.writes, ?_, fun hlt hclean => ?_⟩
      · have hblk : sdefl_blk_end inp i - i = inp.length - i ∧ inp.length - i ≤ 262144 := by
          rw [sdefl_blk_end] at hmore ⊢
          dsimp only [PAKKA_SDEFL_BLK_MAX] at hmore ⊢
          split_ifs at hmore ⊢ <;> omega
        rw [hblk.1] at hroom
        exact hroom.trans (room_last hblk.2)
      have hall : sdefl_blk_end inp i = inp.length := by omega
      have h := hinf (hgo hlt) (hclean z (Option.mem_some_self z)).1
      rwa [decide_eq_true hall, hall] at h

end Run

/-! ## The codec

The run starts with cleared tables, and its blocks cover the text. What has to be known of it is
`CleanRun`, which can be computed.
-/

/-- The state of the encoder at the start of the input. -/
def sdefl_start : Sdefl := { sdefl_zero with tbl := fun _ => PAKKA_SDEFL_NIL }

theorem start_atBlock (x : Bytes) : AtBlock x sdefl_start [] 0 :=
  ⟨writes_start, ⟨fun _ => show (-1 : ℤ) < ((0 : ℕ) : ℤ) by decide, fun _ => Or.inl le_rfl⟩,
    rfl, rfl, rfl⟩

/-- Every block of the text is clean. -/
def CleanRun (x : Bytes) (lvl : ℕ) : Prop := sdefl_clean x lvl (x.length + 1) sdefl_start 0

instance (x : Bytes) (lvl : ℕ) : Decidable (CleanRun x lvl) :=
  inferInstanceAs (Decidable (sdefl_clean _ _ _ _ _))

/-! ## Short texts

On a text of at most 1024 bytes no distance has more than eight extra bits, which leaves room for
any literal in front. Such a text is one block, and if that is stored it is one chunk, so three
bytes are enough for it not to end in a chunk of one or two.
-/

section Short

variable {cod : SdeflCod} {freqLit freqOff : List ℕ} {x : Bytes}

/-- Distances up to 1024 have eight extra bits at most. -/
theorem near_bits : ∀ dc, dc < 30 → sdefl_dmin.getD dc 0 ≤ 1024 → sinfl_dbits.getD dc 0 ≤ 8 := by
  decide

/-- A copy from nearby fits behind every literal. -/
theorem near_fits (hcode : BlockCode cod freqLit freqOff) {dist len : ℕ} (hnear : dist ≤ 1024)
    (hlive : TokenLive freqLit freqOff (.copy dist len)) (t : Token UInt8) :
    PairFits cod t (.copy dist len) := by
  rcases t with b | ⟨dist', len'⟩
  · obtain ⟨⟨hpos, hmax, h3, hlen⟩, hcount⟩ := hlive
    obtain ⟨c, hc, hcoded⟩ := match_codes_spec hpos hmax h3 hlen
    obtain ⟨hlc, hdc⟩ := hcount c hc
    have hls := hcoded.ls_le
    have hlceq := hcoded.lc_eq
    have hdclt := hcoded.dc_lt
    have hlxn := hcoded.lxn_le
    have hdx := near_bits c.dc hdclt (by have := hcoded.dist_ge; omega)
    rw [hcoded.dbits_eq] at hdx
    have hlit := hcode.lit_len (show b.toNat < 288 by have := b.toNat_lt; omega)
    have hlitlen := hcode.lit_len (show c.lc < 288 by omega)
    have hofflen : read cod.offLen c.dc ≤ 15 :=
      (hcode.off_code (show c.dc < 32 by omega) hdc).complete.le c.dc (by omega)
    show (sdefl_token_bits cod (.lit b)).length + (sdefl_token_bits cod (.copy dist len)).length ≤ 56
    rw [sdefl_token_bits, sdefl_token_bits, hc]
    show _ + (sdefl_copy_bits cod c dist len).length ≤ 56
    simp only [sdefl_copy_bits, List.length_append, length_ofNat]
    omega
  · exact trivial

/-- Every pair fits in a part of a text that ends nearby. -/
theorem near_budget (hcode : BlockCode cod freqLit freqOff) {p q : ℕ} {ts : List (Token UInt8)}
    (hspell : Spells x p ts q) (hq : q ≤ 1024) (hlive : ∀ t ∈ ts, TokenLive freqLit freqOff t) :
    Budget cod ts := by
  have hall : ∀ t ∈ ts, ∀ t', PairFits cod t' t := by
    induction hspell with
    | nil => exact fun t ht => absurd ht List.not_mem_nil
    | lit hp h ih =>
      intro t ht t'
      rcases List.mem_cons.mp ht with rfl | ht
      · cases t' <;> exact trivial
      · exact ih hq (fun t ht => hlive t (List.mem_cons_of_mem _ ht)) t ht t'
    | @copy p q dist len ts hpos hdist hlen hsame h ih =>
      intro t ht t'
      have hle := h.le
      rcases List.mem_cons.mp ht with rfl | ht
      · exact near_fits hcode (by omega) (hlive _ List.mem_cons_self) t'
      · exact ih hq (fun t ht => hlive t (List.mem_cons_of_mem _ ht)) t ht t'
  clear hspell hlive
  induction ts with
  | nil => exact .nil
  | cons t ts ih =>
    rcases ts with _ | ⟨u, ts⟩
    · exact .singleton t
    · exact .cons_cons (hall u (List.mem_cons_of_mem _ List.mem_cons_self) t)
        (ih fun v hv => hall v (List.mem_cons_of_mem _ hv))

theorem short_blk_end (hshort : x.length ≤ 1024) : sdefl_blk_end x 0 = x.length := by
  rw [sdefl_blk_end]
  dsimp only [PAKKA_SDEFL_BLK_MAX]
  split_ifs <;> omega

/-- **Runs on short texts are clean.** -/
theorem short_clean (lvl : ℕ) (h3 : 3 ≤ x.length) (hshort : x.length ≤ 1024) : CleanRun x lvl := by
  have hend := short_blk_end hshort
  intro z hz
  rw [hend]
  obtain ⟨hinv, hi, hlit⟩ :=
    sequences_some (start_atBlock x) (Nat.zero_le _) (Option.mem_def.mp hz)
  rw [hend] at hi
  refine ⟨⟨fun _ => ?_, fun _ => ?_⟩, fun s' _ hmore => absurd hmore (by omega)⟩
  · dsimp only [PAKKA_SDEFL_RAW_BLK_SIZE]
    omega
  · obtain ⟨-, hcode, hspell, hlive, -⟩ := coded_block (start_atBlock x).writes hinv hlit
    exact near_budget hcode hspell (by omega) hlive

end Short

/-! ## Out and back

The flush behind the last block is what the decoder sees as the end of its input, and the bytes the
decoder makes are all known when the stream is one of the encoder's.
-/

/-- The end of the stream: the last byte is filled up, and nothing is left in the accumulator. -/
theorem Writes.finish {w : SdeflBits} {B : List Bool} (hw : Writes w B) :
    ∃ k y, k < 8 ∧ ofBytes y = B ++ List.replicate k false ∧
      (let w := if w.bitcnt ≠ 0 then pakka_sdefl_put w 0 (8 - w.bitcnt) else w
      if w.bitcnt = 0 then some w.out else none) = some y := by
  obtain ⟨h0, k, hk, -, hw'⟩ := hw.pad
  dsimp only
  generalize (if w.bitcnt ≠ 0 then pakka_sdefl_put w 0 (8 - w.bitcnt) else w) = w' at h0 hw' ⊢
  have heq := hw'.eq
  rw [h0, ofNat_zero, List.append_nil] at heq
  exact ⟨k, w'.out, hk, heq, if_pos h0⟩

/-- What the encoder puts out. -/
theorem compr_spec (x : Bytes) (lvl : ℕ) :
    (pakka_sdeflate x lvl = none ∧ 5 * PAKKA_SDEFL_SEQ_SIZ ≤ 2 * x.length + 15) ∨
      ∃ y B k, pakka_sdeflate x lvl = some y ∧ ofBytes y = B ++ List.replicate k false ∧ k < 8 ∧
        B.length ≤ sdefl_room x.length ∧
        (0 < x.length → CleanRun x lvl → Inflates x 0 x.length true 0 B) := by
  rw [pakka_sdeflate, pakka_sdefl_compr]
  rcases compr_loop_spec lvl (x.length + 1) (start_atBlock x) (Nat.zero_le _) (by omega) with
    ⟨hnone, hfull⟩ | ⟨s, B, hloop, hw, hroom, hinf⟩
  · rw [← sdefl_start, hnone]
    exact Or.inl ⟨rfl, hfull⟩
  · obtain ⟨k, y, hk, hy, hend⟩ := hw.finish
    rw [← sdefl_start, hloop]
    exact Or.inr ⟨y, B, k, hend, hy, hk, hroom, hinf⟩

/-- **A text of few tokens becomes short**, if it is one block. -/
theorem few_tokens_room {x : Bytes} {lvl : ℕ} {z : SdeflLz} (hone : sdefl_blk_end x 0 = x.length)
    (hz : sdefl_sequences x lvl sdefl_start 0 = some z) :
    ∃ y, pakka_sdeflate x lvl = some y ∧
      8 * y.length ≤ 2335 + 47 * (z.s.seq.flatMap (sdefl_seq_tokens x)).length := by
  obtain ⟨hinv, hi, hlit⟩ := sequences_some (start_atBlock x) (Nat.zero_le _) hz
  obtain ⟨s, B, hflush, hat, -, hfew, -⟩ :=
    flush_spec (sdefl_blk_end x 0 = x.length) writes_start hinv hlit
  rw [hi] at hflush hat
  obtain ⟨k, y, hk, hy, hend⟩ := hat.writes.finish
  have hlen := congrArg List.length hy
  rw [length_ofBytes, List.nil_append, List.length_append, List.length_replicate] at hlen
  refine ⟨y, ?_, by omega⟩
  have hloop : sdefl_compr_loop x lvl (x.length + 1) sdefl_start 0 = some s := by
    rw [sdefl_compr_loop, if_neg (by decide), hz, Option.bind_eq_bind, Option.bind_some, hflush,
      Option.bind_eq_bind, Option.bind_some, hi, if_neg (by omega)]
    rfl
  rw [pakka_sdeflate, pakka_sdefl_compr, ← sdefl_start, hloop]
  exact hend

/-- And it is put with codes of its own. -/
theorem few_tokens_dyn {x : Bytes} {lvl : ℕ} {z : SdeflLz}
    (hz : sdefl_sequences x lvl sdefl_start 0 = some z) {blk_len : ℕ}
    (hfew : 2325 + 47 * (z.s.seq.flatMap (sdefl_seq_tokens x)).length < sdefl_fix_cost blk_len) :
    sdefl_kind (sdefl_block_codes z.s) blk_len = .dyn := by
  obtain ⟨hinv, -, hlit⟩ := sequences_some (start_atBlock x) (Nat.zero_le _) hz
  obtain ⟨-, hcode, -, hlive, hcount⟩ := coded_block writes_start hinv hlit
  rw [← (block_codes_spec z.s).seq_eq] at hfew
  exact few_dyn hcode hcount hlive hfew

/-- What a clean run puts out inflates. -/
theorem clean_inflates {x y : Bytes} {lvl cap : ℕ} (hpos : 0 < x.length) (hcap : x.length ≤ cap)
    (hy : pakka_sdeflate x lvl = some y) (hclean : CleanRun x lvl) :
    pakka_sinflate cap y = some (some (sinfl_known x)) := by
  rcases compr_spec x lvl with ⟨hnone, -⟩ | ⟨y', B, pad, hy', hbits, -, -, hinf⟩
  · rw [hnone] at hy
    exact absurd hy (by simp)
  · obtain rfl : y' = y := by
      rw [hy'] at hy
      exact Option.some_inj.mp hy
    obtain ⟨k, hk, hrun⟩ := hinf hpos hclean
    have hlen := congrArg List.length hbits
    rw [length_ofBytes, List.length_append, List.length_replicate] at hlen
    have hread := reading_start y'
    rw [hbits] at hread
    obtain ⟨s', t', -, hblocks⟩ := hrun y' ⟨0, 0, 0⟩ ⟨[], []⟩ (List.replicate pad false) cap
      (8 * y'.length + 1 - k) hread (by rw [List.length_replicate]; omega) hcap
    rw [if_pos rfl, List.take_zero, List.take_length, Nat.sub_add_cancel (by omega)] at hblocks
    exact hblocks

/-- What is all known, at another capacity. -/
theorem known_limit {x y : Bytes} {cap : ℕ} (cap' : ℕ)
    (h : pakka_sinflate cap y = some (some (sinfl_known x))) :
    pakka_sinflate cap' y = some (if x.length ≤ cap' then some (sinfl_known x) else none) := by
  have hlimit := blocks_limit cap' _ (left_start y) (Nat.zero_le _) (Nat.zero_le _) h
  rwa [length_known] at hlimit

/-- **Out and back.** What a clean run puts out inflates to the text in every buffer that holds it,
and is refused in every other. -/
theorem sinflate_sdeflate {x y : Bytes} {lvl : ℕ} (hpos : 0 < x.length)
    (hy : pakka_sdeflate x lvl = some y) (hclean : CleanRun x lvl) (cap : ℕ) :
    pakka_sinflate cap y = some (if x.length ≤ cap then some (sinfl_known x) else none) := by
  have h := clean_inflates hpos le_rfl hy hclean
  exact known_limit cap h

/-- A text of 320 equal letters. -/
def equal_letters : Bytes := List.replicate 320 7

theorem length_equal_letters : equal_letters.length = 320 := List.length_replicate

set_option maxRecDepth 100000 in
theorem equal_letters_seq : (sdefl_sequences equal_letters 5 sdefl_start 0).map (fun z => z.s.seq) =
    some [⟨0, 1⟩, ⟨-1, 258⟩, ⟨-1, 61⟩] := by decide +kernel

theorem equal_letters_tokens : (([⟨0, 1⟩, ⟨-1, 258⟩, ⟨-1, 61⟩] : List SdeflSeq).flatMap
    (sdefl_seq_tokens equal_letters)).length = 3 := by decide +kernel

theorem equal_letters_dyn {z : SdeflLz} (hz : sdefl_sequences equal_letters 5 sdefl_start 0 = some z)
    (hseq : z.s.seq = [⟨0, 1⟩, ⟨-1, 258⟩, ⟨-1, 61⟩]) :
    sdefl_kind (sdefl_block_codes z.s) 320 = .dyn :=
  few_tokens_dyn hz (by rw [hseq, equal_letters_tokens]; decide)

set_option maxRecDepth 100000 in
/-- They go out as a letter and two matches, in a block with codes of its own, and come back. -/
theorem sinflate_sdeflate_equal : ∃ z y, sdefl_sequences equal_letters 5 sdefl_start 0 = some z ∧
    z.s.seq = [⟨0, 1⟩, ⟨-1, 258⟩, ⟨-1, 61⟩] ∧ sdefl_kind (sdefl_block_codes z.s) 320 = .dyn ∧
    pakka_sdeflate equal_letters 5 = some y ∧
    pakka_sinflate 320 y = some (some (sinfl_known equal_letters)) := by
  obtain ⟨z, hz, hseq⟩ := Option.map_eq_some_iff.mp equal_letters_seq
  have hlen := length_equal_letters
  obtain ⟨y, hy, -⟩ := few_tokens_room (short_blk_end (by omega)) hz
  have hback := sinflate_sdeflate (by omega) hy (short_clean 5 (by omega) (by omega)) 320
  rw [if_pos hlen.le] at hback
  exact ⟨z, y, hz, hseq, equal_letters_dyn hz hseq, hy, hback⟩

/-- **The encoder succeeds** on every text of at most 218447 bytes, at every level. From there on the
sequences of a block may be more than their buffer holds, and the encoder stops at an assertion. -/
theorem sdeflate_succeeds {x : Bytes} (lvl : ℕ) (hlen : x.length ≤ 218447) :
    ∃ y, pakka_sdeflate x lvl = some y := by
  rcases compr_spec x lvl with ⟨-, hfull⟩ | ⟨y, -, -, hy, -⟩
  · have hsiz : PAKKA_SDEFL_SEQ_SIZ = 87382 := by decide
    omega
  · exact ⟨y, hy⟩

theorem sdeflate_succeeds_three : ∃ y, pakka_sdeflate [7, 8, 9] 5 = some y :=
  sdeflate_succeeds 5 (by decide)

/-- A whole block has four chunks and a short one. -/
theorem chunks_le (n : ℕ) :
    4 * ((n - 1) / 262144) + (n - 1) % 262144 / 65535 ≤ (n + 65534) / 65535 ∧
      (0 < n → 4 * ((n - 1) / 262144) + (n - 1) % 262144 / 65535 + 1 ≤ (n + 65534) / 65535) := by
  have hsum := Nat.div_add_mod (n - 1) 262144
  have hlow := Nat.div_mul_le_self ((n - 1) % 262144) 65535
  rw [Nat.le_div_iff_mul_le (by decide), Nat.le_div_iff_mul_le (by decide)]
  generalize (n - 1) / 262144 = a at hsum ⊢
  generalize (n - 1) % 262144 = r at hsum hlow ⊢
  generalize r / 65535 = q at hlow ⊢
  rw [Nat.add_mul, Nat.add_mul, Nat.add_mul, Nat.mul_right_comm]
  exact ⟨by omega, fun hpos => by omega⟩

theorem bound_of_room {x y : Bytes} {B : List Bool} {k : ℕ} (hlen : x.length ≤ 786432)
    (hbits : ofBytes y = B ++ List.replicate k false) (hk : k < 8)
    (hroom : B.length ≤ sdefl_room x.length) : y.length ≤ pakka_sdefl_bound x.length := by
  have hsize := congrArg List.length hbits
  rw [length_ofBytes, List.length_append, List.length_replicate] at hsize
  have hblocks : (x.length - 1) / 262144 ≤ 2 := by omega
  have hchunks := chunks_le x.length
  rw [sdefl_room] at hroom
  rw [pakka_sdefl_bound, pakka_sdefl_div_round_up]
  dsimp only [PAKKA_SDEFL_RAW_BLK_SIZE]
  generalize (x.length - 1) / 262144 = a at *
  generalize (x.length - 1) % 262144 / 65535 = b at *
  omega

/-- **The bound holds** up to three whole blocks: what the encoder puts out for such a text, in
whatever forms its blocks are, is not longer than the bound function says. -/
theorem sdeflate_bound {x y : Bytes} {lvl : ℕ} (hlen : x.length ≤ 786432)
    (hy : pakka_sdeflate x lvl = some y) : y.length ≤ pakka_sdefl_bound x.length := by
  rcases compr_spec x lvl with ⟨hnone, -⟩ | ⟨y', B, k, hy', hbits, hk, hroom, -⟩
  · rw [hnone] at hy
    exact absurd hy (by simp)
  · rw [hy'] at hy
    obtain rfl := Option.some_inj.mp hy
    exact bound_of_room hlen hbits hk hroom

theorem sdeflate_bound_three :
    ∃ y, pakka_sdeflate [7, 8, 9] 5 = some y ∧ y.length ≤ pakka_sdefl_bound 3 := by
  rcases compr_spec [7, 8, 9] 5 with ⟨-, hfull⟩ | ⟨y, -, -, hy, -⟩
  · exact absurd hfull (by decide)
  · exact ⟨y, hy, sdeflate_bound (by decide) hy⟩

end Pakka
