/-
What a block costs.

Before a block is put the encoder adds up how many bits it will take, from the frequencies of the
symbols and the lengths of their words. The frequencies are those of what it then puts, so the sum
is right to the bit, but for the header. A block is put with codes of its own when that is less
than it takes as it is, and so its size is bounded by its length either way.

The lemmas are about sums: over the symbols, weighted by frequency, on one side, and over what was
put on the other. `Counted` says that the frequencies are those of the tokens, and with it the two
sums are one. The same comparison gives a bound for blocks of few tokens.
-/
import Pakka.DeflateBlocks
import Mathlib.Algebra.BigOperators.Intervals

set_option autoImplicit false

namespace Pakka

open Cells BitString ByteImage Lz77 Function

/-! ## Sums over symbols

The loops of the source are sums over the symbols, and a count is a number of summands.
-/

theorem cost_eq_sum (lo hi : ℕ) (f : ℕ → ℕ) : sdefl_cost lo hi f = ∑ i ∈ Finset.Ico lo hi, f i := rfl

/-- A sum over symbols, by their frequencies. -/
theorem sum_map_eq_cost (L : List ℕ) (hi : ℕ) (f : ℕ → ℕ) (h : ∀ a ∈ L, a < hi) :
    (L.map f).sum = sdefl_cost 0 hi fun sym => L.count sym * f sym := by
  rw [cost_eq_sum, Finset.sum_list_map_count]
  refine Finset.sum_subset (fun a ha => ?_) fun a _ ha => ?_
  · rw [Finset.mem_Ico]
    exact ⟨Nat.zero_le _, h a (List.mem_toFinset.mp ha)⟩
  · rw [List.mem_toFinset] at ha
    rw [List.count_eq_zero_of_not_mem ha, zero_nsmul]

theorem cost_congr (lo hi : ℕ) {f g : ℕ → ℕ} (h : ∀ i, lo ≤ i → i < hi → f i = g i) :
    sdefl_cost lo hi f = sdefl_cost lo hi g :=
  Finset.sum_congr rfl fun i hi' => h i (Finset.mem_Ico.mp hi').1 (Finset.mem_Ico.mp hi').2

theorem cost_split {lo mid hi : ℕ} (f : ℕ → ℕ) (h : lo ≤ mid) (h' : mid ≤ hi) :
    sdefl_cost lo hi f = sdefl_cost lo mid f + sdefl_cost mid hi f :=
  (Finset.sum_Ico_consecutive f h h').symm

/-! ## Items and tokens

The bits of each item and each token, by symbol.
-/

section Lengths

variable {cod : SdeflCod} {freqLit freqOff : List ℕ}

theorem length_item_bits (codes lens : List ℕ) {item : ℕ} (h : item &&& 0x1f < 19) :
    (sdefl_item_bits codes lens item).length =
      sdefl_x_pre_bits.getD (item &&& 0x1f) 0 + read lens (item &&& 0x1f) := by
  have hx : ∀ sym, sym < 16 → sdefl_x_pre_bits.getD sym 0 = 0 := by decide
  rw [sdefl_item_bits, List.length_append, length_ofNat, Nat.add_comm]
  congr 1
  split_ifs with h16 h16' h17
  · exact (hx _ h16).symm
  · rw [length_ofNat, h16']
    rfl
  · rw [length_ofNat, h17]
    rfl
  · rw [length_ofNat, show item &&& 0x1f = 18 by omega]
    rfl

theorem length_flatMap_sum {α β : Type} (L : List α) (f : α → List β) (g : α → ℕ)
    (h : ∀ a ∈ L, (f a).length = g a) : (L.flatMap f).length = (L.map g).sum := by
  rw [List.length_flatMap]
  exact congrArg List.sum (List.map_congr_left h)

/-- The bits of the items. -/
theorem length_items (codes lens : List ℕ) {items : List ℕ}
    (hsym : ∀ item ∈ items, item &&& 0x1f < 19) (freqs : List ℕ)
    (hcount : ∀ sym, read freqs sym = (items.map (· &&& 0x1f)).count sym) :
    (items.flatMap (sdefl_item_bits codes lens)).length =
      sdefl_cost 0 19 fun sym => read freqs sym * (sdefl_x_pre_bits.getD sym 0 + read lens sym) := by
  rw [length_flatMap_sum items _ _ fun item hitem => length_item_bits codes lens (hsym item hitem)]
  have hmap : items.map (fun item => sdefl_x_pre_bits.getD (item &&& 0x1f) 0 +
      read lens (item &&& 0x1f)) = (items.map (· &&& 0x1f)).map fun sym =>
        sdefl_x_pre_bits.getD sym 0 + read lens sym := by
    rw [List.map_map]
    rfl
  rw [hmap, sum_map_eq_cost _ 19 _ fun a ha => by
    obtain ⟨item, hitem, rfl⟩ := List.mem_map.mp ha
    exact hsym item hitem]
  exact cost_congr _ _ fun sym _ _ => by rw [hcount]

/-- The extra bits of a symbol of the code for literals and lengths. -/
def sdefl_lit_extra (sym : ℕ) : ℕ := if sym < 257 then 0 else sdefl_lxn.getD (sym - 257) 0

/-- The bits of a token. -/
theorem length_token_bits {t : Token UInt8} (h : TokenLive freqLit freqOff t) :
    (sdefl_token_bits cod t).length =
      ((sdefl_lit_syms t).map fun sym => sdefl_lit_extra sym + read cod.litLen sym).sum +
      ((sdefl_off_syms t).map fun sym => sdefl_x_off_bits.getD sym 0 + read cod.offLen sym).sum := by
  cases t with
  | lit b =>
    have hlt : b.toNat < 257 := lt_trans (UInt8.toNat_lt b) (by decide)
    simp [sdefl_token_bits, sdefl_lit_syms, sdefl_off_syms, sdefl_lit_extra, hlt]
  | copy dist len =>
    obtain ⟨⟨hpos, hmax, h3, hlen⟩, -⟩ := h
    obtain ⟨c, hc, hcoded⟩ := match_codes_spec hpos hmax h3 hlen
    have hxoff : ∀ d, d < 30 → sdefl_x_off_bits.getD d 0 = sinfl_dbits.getD d 0 := by decide
    have hlc : sdefl_lit_extra c.lc = sdefl_lxn.getD c.ls 0 := by
      rw [sdefl_lit_extra, hcoded.lc_eq, if_neg (by omega), Nat.add_sub_cancel_left]
    rw [sdefl_token_bits, sdefl_lit_syms, sdefl_off_syms, hc]
    show (sdefl_copy_bits cod c dist len).length =
      sdefl_lit_extra c.lc + read cod.litLen c.lc + 0 +
        (sdefl_x_off_bits.getD c.dc 0 + read cod.offLen c.dc + 0)
    simp only [sdefl_copy_bits, List.length_append, length_ofNat]
    rw [hlc, hxoff c.dc hcoded.dc_lt, hcoded.dbits_eq]
    omega

theorem lit_syms_range {t : Token UInt8} (h : TokenLive freqLit freqOff t) {sym : ℕ}
    (hsym : sym ∈ sdefl_lit_syms t) : sym < 286 ∧ sym ≠ 256 := by
  cases t with
  | lit b =>
    have hlt := UInt8.toNat_lt b
    rw [List.mem_singleton.mp hsym]
    omega
  | copy dist len =>
    obtain ⟨⟨hpos, hmax, h3, hlen⟩, -⟩ := h
    obtain ⟨c, hc, hcoded⟩ := match_codes_spec hpos hmax h3 hlen
    have hls := hcoded.ls_le
    have hlc := hcoded.lc_eq
    rw [sdefl_lit_syms, hc] at hsym
    have hmem : sym = c.lc := List.mem_singleton.mp hsym
    omega

theorem off_syms_range {t : Token UInt8} (h : TokenLive freqLit freqOff t) {sym : ℕ}
    (hsym : sym ∈ sdefl_off_syms t) : sym < 30 := by
  cases t with
  | lit b => exact absurd hsym List.not_mem_nil
  | copy dist len =>
    obtain ⟨⟨hpos, hmax, h3, hlen⟩, -⟩ := h
    obtain ⟨c, hc, hcoded⟩ := match_codes_spec hpos hmax h3 hlen
    rw [sdefl_off_syms, hc] at hsym
    rw [List.mem_singleton.mp hsym]
    exact hcoded.dc_lt

theorem length_tokens {ts : List (Token UInt8)} (h : ∀ t ∈ ts, TokenLive freqLit freqOff t) :
    (ts.flatMap (sdefl_token_bits cod)).length =
      ((ts.flatMap sdefl_lit_syms).map fun sym => sdefl_lit_extra sym + read cod.litLen sym).sum +
      ((ts.flatMap sdefl_off_syms).map fun sym =>
        sdefl_x_off_bits.getD sym 0 + read cod.offLen sym).sum := by
  induction ts with
  | nil => rfl
  | cons t ts ih =>
    rw [List.flatMap_cons, List.length_append, length_token_bits (h t List.mem_cons_self),
      ih fun t ht => h t (List.mem_cons_of_mem _ ht), List.flatMap_cons, List.flatMap_cons,
      List.map_append, List.map_append, List.sum_append, List.sum_append]
    omega

/-- Literals, and lengths with their extra bits. -/
theorem lit_cost {L : List ℕ} (h : ∀ sym ∈ L, sym < 286 ∧ sym ≠ 256) (len : ℕ → ℕ) :
    (L.map fun sym => sdefl_lit_extra sym + len sym).sum =
      sdefl_cost 0 256 (fun sym => L.count sym * len sym) +
      sdefl_cost 257 286 (fun sym => L.count sym * (sdefl_lxn.getD (sym - 257) 0 + len sym)) := by
  rw [sum_map_eq_cost L 286 _ fun a ha => (h a ha).1,
    cost_split _ (show 0 ≤ 256 by decide) (show 256 ≤ 286 by decide),
    cost_split _ (show 256 ≤ 257 by decide) (show 257 ≤ 286 by decide)]
  have hmid : sdefl_cost 256 257 (fun sym => L.count sym * (sdefl_lit_extra sym + len sym)) = 0 := by
    rw [cost_eq_sum, Finset.sum_Ico_succ_top (by decide), Finset.Ico_self, Finset.sum_empty,
      List.count_eq_zero_of_not_mem fun h256 => (h 256 h256).2 rfl, Nat.zero_mul]
  have hlow : sdefl_cost 0 256 (fun sym => L.count sym * (sdefl_lit_extra sym + len sym)) =
      sdefl_cost 0 256 (fun sym => L.count sym * len sym) :=
    cost_congr _ _ fun sym _ hsym => by rw [sdefl_lit_extra, if_pos (by omega), Nat.zero_add]
  have hhigh : sdefl_cost 257 286 (fun sym => L.count sym * (sdefl_lit_extra sym + len sym)) =
      sdefl_cost 257 286 (fun sym => L.count sym * (sdefl_lxn.getD (sym - 257) 0 + len sym)) :=
    cost_congr _ _ fun sym hsym _ => by rw [sdefl_lit_extra, if_neg (by omega)]
  rw [hmid, hlow, hhigh, Nat.zero_add]

/-- A token takes 47 bits at most. -/
theorem token_bits_le (hcode : BlockCode cod freqLit freqOff) {t : Token UInt8}
    (hlive : TokenLive freqLit freqOff t) : (sdefl_token_bits cod t).length ≤ 47 := by
  cases t with
  | lit b =>
    have hlt := b.toNat_lt
    have hlit := hcode.lit_len (show b.toNat < 288 by omega)
    rw [sdefl_token_bits, length_ofNat]
    omega
  | copy dist len => exact copy_bits_le hcode hlive

/-- An item takes seven bits at most for each of the lengths that it says. -/
theorem item_bits_le (codes : List ℕ) {lens have_ next : List ℕ} {item : ℕ}
    (hlens : ∀ sym, sym < 19 → read lens sym ≤ 7) (h : sdefl_expand have_ item = some next) :
    7 * have_.length + (sdefl_item_bits codes lens item).length ≤ 7 * next.length := by
  rw [sdefl_item_bits, List.length_append, length_ofNat]
  rcases expand_cases h with ⟨hsym, rfl⟩ | ⟨hsym, -, len, -, rfl⟩ | ⟨hsym, -, rfl⟩ | ⟨hsym, -, rfl⟩
  · have hlen := hlens (item &&& 0x1f) (by omega)
    rw [if_pos hsym, List.length_append, List.length_nil, List.length_singleton]
    omega
  all_goals
    have hlen := hlens _ (show item &&& 0x1f < 19 by omega)
    rw [List.length_append, List.length_replicate]
    simp only [hsym, Nat.reduceLT, if_false, Nat.reduceEqDiff, if_true, length_ofNat] at hlen ⊢
    omega

theorem items_bits_le (codes : List ℕ) {lens items have_ final : List ℕ}
    (hlens : ∀ sym, sym < 19 → read lens sym ≤ 7) (h : items.foldlM sdefl_expand have_ = some final) :
    7 * have_.length + (items.flatMap (sdefl_item_bits codes lens)).length ≤ 7 * final.length := by
  induction items generalizing have_ with
  | nil =>
    obtain rfl : have_ = final := Option.some_inj.mp h
    exact le_rfl
  | cons item items ih =>
    rw [List.foldlM_cons, Option.bind_eq_bind, Option.bind_eq_some_iff] at h
    obtain ⟨next, hnext, hrest⟩ := h
    have hfirst := item_bits_le codes hlens hnext
    have hothers := ih hrest
    rw [List.flatMap_cons, List.length_append]
    omega

theorem length_flatMap_le {α β : Type} {L : List α} (f : α → List β) {n : ℕ}
    (h : ∀ a ∈ L, (f a).length ≤ n) : (L.flatMap f).length ≤ n * L.length := by
  rw [List.length_flatMap, Nat.mul_comm, ← List.length_map (fun a => (f a).length)]
  refine List.sum_le_card_nsmul _ n fun k hk => ?_
  obtain ⟨a, ha, rfl⟩ := List.mem_map.mp hk
  exact h a ha

end Lengths

/-! ## A block

Both forms of a block against what the encoder computed.
-/

/-- The frequencies are those of the tokens. The end of the block does not matter. -/
structure Counted (s : Sdefl) (ts : List (Token UInt8)) : Prop where
  lit : ∀ sym, sym ≠ 256 → read s.freqLit sym = (ts.flatMap sdefl_lit_syms).count sym
  off : ∀ sym, read s.freqOff sym = (ts.flatMap sdefl_off_syms).count sym

section Block

variable {s : Sdefl} {freqLit freqOff : List ℕ} {ts : List (Token UInt8)}

/-- **The cost of a block with codes of its own** is what it takes behind its header. -/
theorem dyn_cost_spec (hcode : BlockCode s.cod freqLit freqOff) (hcount : Counted s ts)
    (hlive : ∀ t ∈ ts, TokenLive freqLit freqOff t) (last : Bool) :
    (sdefl_dyn_bits last s.cod (pakka_sdefl_precode s.cod.litLen s.cod.offLen).1
      (pakka_sdefl_precode s.cod.litLen s.cod.offLen).2.items (sdefl_pre_code s).1
      (sdefl_pre_code s).2 ts).length =
    3 + sdefl_dyn_cost s (sdefl_item_cnt (sdefl_pre_code s).1)
      (pakka_sdefl_precode s.cod.litLen s.cod.offLen).2.freqs (sdefl_pre_code s).1 := by
  have hparts := head_parts hcode
  have hfreqs := precode_counted hcode
  generalize pakka_sdefl_precode s.cod.litLen s.cod.offLen = r at hparts hfreqs ⊢
  generalize sdefl_pre_code s = q at hparts ⊢
  have hitems := length_items q.2 q.1 (foldlM_expand_sym hparts.expand) r.2.freqs hfreqs
  have hnlens : (sdefl_nlens_bits q.1 (sdefl_perm.take (sdefl_item_cnt q.1))).length =
      3 * sdefl_item_cnt q.1 := by
    obtain ⟨-, htrim, -⟩ := trim_spec (sdefl_perm.map (read q.1)) 4 19 (by decide)
    rw [sdefl_nlens_bits, length_flatMap_sum _ _ (fun _ => 3) fun sym _ => length_ofNat _ _,
      List.map_const', List.sum_replicate_nat, List.length_take, Nat.mul_comm]
    congr 1
    exact Nat.min_eq_left htrim
  have hlits := lit_cost (L := ts.flatMap sdefl_lit_syms) (fun sym hsym => by
    obtain ⟨t, ht, hsym⟩ := List.mem_flatMap.mp hsym
    exact lit_syms_range (hlive t ht) hsym) (read s.cod.litLen)
  have hoffs := sum_map_eq_cost (ts.flatMap sdefl_off_syms) 30
    (fun sym => sdefl_x_off_bits.getD sym 0 + read s.cod.offLen sym) fun sym hsym => by
      obtain ⟨t, ht, hsym⟩ := List.mem_flatMap.mp hsym
      exact off_syms_range (hlive t ht) hsym
  rw [sdefl_dyn_bits, sdefl_head_bits, sdefl_body_bits]
  simp only [List.length_append, length_ofNat]
  rw [hnlens, hitems, length_tokens hlive, hlits, hoffs, sdefl_dyn_cost,
    cost_congr 0 256 fun sym _ hsym => by rw [← hcount.lit sym (by omega)],
    cost_congr 257 286 fun sym hsym _ => by rw [← hcount.lit sym (by omega)],
    cost_congr 0 30 fun sym _ _ => by rw [← hcount.off sym]]
  dsimp only [PAKKA_SDEFL_PRE_MAX, PAKKA_SDEFL_EOB]
  omega

/-- What codes of its own cost a block at most: seven bits for each of 320 lengths, and 47 for each
token. -/
theorem dyn_cost_le (hcode : BlockCode s.cod freqLit freqOff) (hcount : Counted s ts)
    (hlive : ∀ t ∈ ts, TokenLive freqLit freqOff t) :
    sdefl_dyn_cost s (sdefl_item_cnt (sdefl_pre_code s).1)
      (pakka_sdefl_precode s.cod.litLen s.cod.offLen).2.freqs (sdefl_pre_code s).1 ≤
        2325 + 47 * ts.length := by
  have hcost := dyn_cost_spec hcode hcount hlive true
  have hparts := head_parts hcode
  generalize sdefl_dyn_cost s _ _ _ = cost at hcost ⊢
  generalize pakka_sdefl_precode s.cod.litLen s.cod.offLen = r at hparts hcost
  generalize sdefl_pre_code s = q at hparts hcost
  obtain ⟨freqs, hpre, -⟩ := hparts.code
  have hitems := items_bits_le q.2 hpre.complete.le hparts.expand
  have hbody : (sdefl_body_bits s.cod ts).length ≤ 47 * ts.length + 14 := by
    have heob : read s.cod.litLen 256 ≤ 14 := hcode.lit_len (by decide)
    have htokens := length_flatMap_le (sdefl_token_bits s.cod) fun t ht =>
      token_bits_le hcode (hlive t ht)
    rw [sdefl_body_bits, List.length_append, length_ofNat]
    omega
  have hnlens : (sdefl_nlens_bits q.1 (sdefl_perm.take (sdefl_item_cnt q.1))).length ≤ 57 := by
    have hperm : sdefl_perm.length = 19 := rfl
    have h3 := length_flatMap_le (L := sdefl_perm.take (sdefl_item_cnt q.1))
      (fun sym => ofNat (read q.1 sym) 3) fun sym _ => (length_ofNat _ _).le
    have htake : (sdefl_perm.take (sdefl_item_cnt q.1)).length ≤ 19 :=
      hperm ▸ List.length_take_le' ..
    rw [sdefl_nlens_bits]
    omega
  have hlit := hparts.lit_le
  have hoff := hparts.off_le
  rw [sdefl_dyn_bits, sdefl_head_bits] at hcost
  simp only [List.length_append, length_ofNat, List.length_map, List.length_range, List.length_nil]
    at hcost hitems
  omega

/-- A block with codes of its own takes less than it takes as it is. -/
theorem dyn_room (hcode : BlockCode s.cod freqLit freqOff) (hcount : Counted s ts)
    (hlive : ∀ t ∈ ts, TokenLive freqLit freqOff t) (last : Bool) {blk_len : ℕ}
    (hkind : sdefl_kind s blk_len = .dyn) :
    (sdefl_dyn_bits last s.cod (pakka_sdefl_precode s.cod.litLen s.cod.offLen).1
      (pakka_sdefl_precode s.cod.litLen s.cod.offLen).2.items (sdefl_pre_code s).1
      (sdefl_pre_code s).2 ts).length ≤ 2 + sdefl_fix_cost blk_len := by
  rw [dyn_cost_spec hcode hcount hlive last]
  rw [sdefl_kind, pakka_sdefl_blk_type] at hkind
  split_ifs at hkind with hless
  omega

/-- A block of few tokens is put with codes of its own. -/
theorem few_dyn (hcode : BlockCode s.cod freqLit freqOff) (hcount : Counted s ts)
    (hlive : ∀ t ∈ ts, TokenLive freqLit freqOff t) {blk_len : ℕ}
    (hfew : 2325 + 47 * ts.length < sdefl_fix_cost blk_len) : sdefl_kind s blk_len = .dyn := by
  rw [sdefl_kind, pakka_sdefl_blk_type]
  exact if_pos ((dyn_cost_le hcode hcount hlive).trans_lt hfew)

end Block

end Pakka
