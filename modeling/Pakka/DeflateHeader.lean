/-
The head of a block with codes of its own.

The encoder derives everything in it from the two codes of the block: how many lengths there are,
the items that say them, a code for the items, and how many of its lengths are sent in the fixed
order of the format. The decoder goes the other way. It reads the three counts, the lengths of the
code for the items, then the items, which give it one list of lengths for both codes, and the tables
it ends with decode the two codes.

`BlockCode` is what the encoder guarantees of the codes of a block, from any counts: the symbol for
the end of the block has a word, and there is no code for distances only when none are in use.
`HeadParts` collects the derived quantities with their bounds, so that writing and reading are each
a composition of lemmas about one part.
-/
import Pakka.DeflateCodes

set_option autoImplicit false

namespace Pakka

open Cells CanonicalCode BitString ByteImage Function

/-- The codes of a block: one for literals and lengths, which the end of the block has a word in,
and one for distances, unless there are none. -/
structure BlockCode (cod : SdeflCod) (freqLit freqOff : List ℕ) : Prop where
  lit : CodeFor 288 14 freqLit (cod.litLen, cod.litWord)
  eob : read freqLit 256 ≠ 0
  off : CodeFor 32 15 freqOff (cod.offLen, cod.offWord) ∨
    ∀ sym, sym < 32 → read freqOff sym = 0 ∧ read cod.offLen sym = 0

/-- What the codes of a block change in the state: the end of the block is counted. -/
structure BlockCoded (s s' : Sdefl) : Prop where
  code : BlockCode s'.cod s'.freqLit s'.freqOff
  w_eq : s'.w = s.w
  seq_eq : s'.seq = s.seq
  tbl_eq : s'.tbl = s.tbl
  prv_eq : s'.prv = s.prv
  off_eq : s'.freqOff = s.freqOff
  lit_eq : ∀ sym, sym ≠ 256 → read s'.freqLit sym = read s.freqLit sym

theorem BlockCoded.live {s s' : Sdefl} (h : BlockCoded s s') {sym : ℕ}
    (hsym : read s.freqLit sym ≠ 0) : read s'.freqLit sym ≠ 0 := by
  by_cases h256 : sym = 256
  · rw [h256]
    exact h.code.eob
  · rwa [h.lit_eq sym h256]

/-- **Every block gets its codes.** -/
theorem block_codes_spec (s : Sdefl) : BlockCoded s (sdefl_block_codes s) := by
  have hkeep (sym : ℕ) :
      read (write s.freqLit 256 (read s.freqLit 256 + 1)) sym =
        if sym = 256 then read s.freqLit 256 + 1 else read s.freqLit sym := by
    rw [read_write, update_apply]
  have heob : read (write s.freqLit 256 (read s.freqLit 256 + 1)) 256 ≠ 0 := by
    rw [hkeep, if_pos rfl]
    omega
  have hlit : CodeFor 288 14 (write s.freqLit 256 (read s.freqLit 256 + 1))
      (pakka_sdefl_huff s.cod.litLen s.cod.litWord
        (write s.freqLit 256 (read s.freqLit 256 + 1)) 288 14) :=
    huff_spec _ _ _ (by decide) (by decide) (by decide) (by decide) (by decide)
      ⟨256, by decide, heob⟩
  have hoff : CodeFor 32 15 s.freqOff (pakka_sdefl_huff s.cod.offLen s.cod.offWord s.freqOff 32 15) ∨
      ∀ sym, sym < 32 → read s.freqOff sym = 0 ∧
        read (pakka_sdefl_huff s.cod.offLen s.cod.offWord s.freqOff 32 15).1 sym = 0 := by
    by_cases hused : ∃ sym, sym < 32 ∧ read s.freqOff sym ≠ 0
    · exact Or.inl (huff_spec _ _ _ (by decide) (by decide) (by decide) (by decide) (by decide) hused)
    · push Not at hused
      exact Or.inr fun sym hsym =>
        ⟨hused sym hsym, huff_none _ _ _ (by decide) (by decide) hused sym hsym⟩
  rw [sdefl_block_codes]
  dsimp only [PAKKA_SDEFL_EOB, PAKKA_SDEFL_SYM_MAX, PAKKA_SDEFL_LIT_LEN_CODES, PAKKA_SDEFL_OFF_MAX,
    PAKKA_SDEFL_OFF_CODES]
  generalize pakka_sdefl_huff s.cod.litLen s.cod.litWord
    (write s.freqLit 256 (read s.freqLit 256 + 1)) 288 14 = r at hlit ⊢
  generalize pakka_sdefl_huff s.cod.offLen s.cod.offWord s.freqOff 32 15 = q at hoff ⊢
  exact ⟨⟨hlit, heob, hoff⟩, rfl, rfl, rfl, rfl, rfl, fun sym hsym => by rw [hkeep, if_neg hsym]⟩

/-! ## The code for the items

Its lengths are sent three bits each, in an order that puts the rarely used ones last, and cut off
behind the last one in use, but never below four.
-/

/-- The lengths of the code for the items, as they are sent. -/
def sdefl_nlens_bits (lens order : List ℕ) : List Bool :=
  order.flatMap fun sym => ofNat (read lens sym) 3

theorem Writes.nlens {w : SdeflBits} {bs : List Bool} {lens order : List ℕ} (h : Writes w bs)
    (hlens : ∀ sym ∈ order, read lens sym < 8) :
    Writes (order.foldl (fun w sym => pakka_sdefl_put w (read lens sym) 3) w)
      (bs ++ sdefl_nlens_bits lens order) := by
  induction order generalizing w bs with
  | nil =>
    rw [sdefl_nlens_bits, List.flatMap_nil, List.append_nil]
    exact h
  | cons sym order ih =>
    rw [List.foldl_cons, sdefl_nlens_bits, List.flatMap_cons, ← List.append_assoc]
    exact ih (h.put (hlens sym (by simp))) fun i hi => hlens i (List.mem_cons_of_mem _ hi)

theorem nlens_spec {inp : Bytes} {s : Sinfl} {rest : List Bool} {lens order : List ℕ}
    (nlens : List ℕ) (hread : Reading inp s (sdefl_nlens_bits lens order ++ rest))
    (hlens : ∀ sym ∈ order, read lens sym < 8) :
    ∃ s' nlens', sinfl_nlens inp order (s, nlens) = some (s', nlens') ∧ Reading inp s' rest ∧
      ∀ sym, read nlens' sym = if sym ∈ order then read lens sym else read nlens sym := by
  induction order generalizing s nlens with
  | nil => exact ⟨s, nlens, rfl, hread, fun sym => by rw [if_neg (List.not_mem_nil)]⟩
  | cons sym order ih =>
    rw [sdefl_nlens_bits, List.flatMap_cons, List.append_assoc] at hread
    obtain ⟨s₁, hget, hread₁, -⟩ := hread.refill_get (hlens sym (by simp)) (by decide)
    obtain ⟨s', nlens', hrest, hread', hval⟩ := ih (write nlens sym (read lens sym)) hread₁
      fun i hi => hlens i (List.mem_cons_of_mem _ hi)
    refine ⟨s', nlens', ?_, hread', fun i => ?_⟩
    · rw [sinfl_nlens, hget]
      exact hrest
    · rw [hval, read_write, update_apply]
      by_cases hi : i = sym
      · rw [hi]
        simp
      · simp [hi]

/-- Every symbol has its place in the order. -/
theorem mem_take_perm {sym : ℕ} (hsym : sym < 19) (lens : List ℕ) :
    sym ∈ sdefl_perm.take (sdefl_trim (sdefl_perm.map (read lens)) 4 19) ∨ read lens sym = 0 := by
  obtain ⟨_, _, hzero⟩ := trim_spec (sdefl_perm.map (read lens)) 4 19 (by decide)
  have hmem : ∀ t, t < 19 → ∃ j, j < 19 ∧ sdefl_perm.getD j 0 = t := by decide
  obtain ⟨j, hj, hperm⟩ := hmem sym hsym
  have hlen : sdefl_perm.length = 19 := rfl
  rw [List.getD_eq_getElem _ _ (by omega)] at hperm
  rcases Nat.lt_or_ge j (sdefl_trim (sdefl_perm.map (read lens)) 4 19) with hlt | hge
  · refine Or.inl (List.mem_take_iff_getElem.mpr ⟨j, by omega, hperm⟩)
  · right
    have hz : (sdefl_perm.map (read lens)).getD j 0 = 0 := hzero j hge hj
    rw [List.getD_eq_getElem _ _ (by rw [List.length_map]; omega), List.getElem_map, hperm] at hz
    exact hz

/-! ## The whole head

Counts, lengths of the third code, items. The sent lengths are taken apart again at the number of
literal and length symbols.
-/

theorem foldlM_expand_sym {items have_ final : List ℕ}
    (h : items.foldlM sdefl_expand have_ = some final) : ∀ item ∈ items, item &&& 0x1f < 19 := by
  induction items generalizing have_ with
  | nil => simp
  | cons item items ih =>
    rw [List.foldlM_cons, Option.bind_eq_bind, Option.bind_eq_some_iff] at h
    obtain ⟨next, hnext, hrest⟩ := h
    intro i hi
    rcases List.mem_cons.mp hi with rfl | hi
    · rcases expand_cases hnext with h | h | h | h <;> omega
    · exact ih hrest i hi

/-- What the encoder derives from the codes of a block: the numbers of lengths, the items, and
the code for the items. -/
structure HeadParts (cod : SdeflCod) (symcnt : SdeflSymcnt) (items lens codes : List ℕ) : Prop where
  lit_ge : 257 ≤ symcnt.lit
  lit_le : symcnt.lit ≤ 288
  lit_zero : ∀ j, symcnt.lit ≤ j → j < 288 → read cod.litLen j = 0
  off_ge : 1 ≤ symcnt.off
  off_le : symcnt.off ≤ 32
  off_zero : ∀ j, symcnt.off ≤ j → j < 32 → read cod.offLen j = 0
  expand : items.foldlM sdefl_expand [] = some
    ((List.range symcnt.lit).map (read cod.litLen) ++ (List.range symcnt.off).map (read cod.offLen))
  code : ∃ freqs, CodeFor 19 7 freqs (lens, codes) ∧ ∀ item ∈ items, read freqs (item &&& 0x1f) ≠ 0

/-- The code lengths of a block are below 16. -/
theorem BlockCode.lens_lt {cod : SdeflCod} {freqLit freqOff : List ℕ}
    (h : BlockCode cod freqLit freqOff) :
    (∀ j, j < 288 → read cod.litLen j < 16) ∧ ∀ j, j < 32 → read cod.offLen j < 16 := by
  refine ⟨fun j hj => ?_, fun j hj => ?_⟩
  · have hle : read cod.litLen j ≤ 14 := h.lit.complete.le j hj
    omega
  · rcases h.off with hcode | hnone
    · have hle : read cod.offLen j ≤ 15 := hcode.complete.le j hj
      omega
    · rw [(hnone j hj).2]
      decide

/-- The frequencies that the code for the items is made from. -/
theorem precode_counted {s : Sdefl} {freqLit freqOff : List ℕ} (h : BlockCode s.cod freqLit freqOff) :
    let r := pakka_sdefl_precode s.cod.litLen s.cod.offLen
    ∀ sym, read r.2.freqs sym = (r.2.items.map (· &&& 0x1f)).count sym :=
  (precode_spec h.lens_lt.1 h.lens_lt.2).2.2.counted

theorem head_parts {s : Sdefl} {freqLit freqOff : List ℕ} (h : BlockCode s.cod freqLit freqOff) :
    HeadParts s.cod (pakka_sdefl_precode s.cod.litLen s.cod.offLen).1
      (pakka_sdefl_precode s.cod.litLen s.cod.offLen).2.items (sdefl_pre_code s).1
      (sdefl_pre_code s).2 := by
  have hspec := precode_spec h.lens_lt.1 h.lens_lt.2
  rw [sdefl_pre_code]
  generalize pakka_sdefl_precode s.cod.litLen s.cod.offLen = r at hspec ⊢
  obtain ⟨symcnt, p⟩ := r
  obtain ⟨⟨hl1, hl2, hl3⟩, ⟨ho1, ho2, ho3⟩, hpre⟩ := hspec
  dsimp only at hl1 hl2 hl3 ho1 ho2 ho3 hpre
  dsimp only
  refine ⟨hl1, hl2, hl3, ho1, ho2, ho3, hpre.items, p.freqs, ?_, fun item => hpre.live⟩
  have hne : p.items ≠ [] := by
    intro hnil
    have hexp := hpre.items
    rw [hnil] at hexp
    have hlen := congrArg List.length (Option.some_inj.mp hexp)
    rw [List.length_append, List.length_map, List.length_range] at hlen
    dsimp only [List.length_nil] at hlen
    omega
  obtain ⟨item, hitem⟩ := List.exists_mem_of_ne_nil _ hne
  have hcode : CodeFor 19 7 p.freqs (pakka_sdefl_huff [] [] p.freqs 19 7) :=
    huff_spec _ _ _ (by decide) (by decide) (by decide) (by decide) (by decide)
      ⟨item &&& 0x1f, foldlM_expand_sym hpre.items item hitem, hpre.live hitem⟩
  dsimp only [PAKKA_SDEFL_PRE_MAX, PAKKA_SDEFL_PRE_CODES]
  generalize pakka_sdefl_huff [] [] p.freqs 19 7 = q at hcode ⊢
  exact hcode

section Head

variable {cod : SdeflCod} {symcnt : SdeflSymcnt} {items lens codes : List ℕ}

theorem HeadParts.len_lt (h : HeadParts cod symcnt items lens codes) {sym : ℕ} (hsym : sym < 19) :
    read lens sym < 8 := by
  obtain ⟨freqs, hcode, -⟩ := h.code
  have hle : read lens sym ≤ 7 := hcode.complete.le sym hsym
  omega

theorem HeadParts.item_live (h : HeadParts cod symcnt items lens codes) {item : ℕ}
    (hitem : item ∈ items) : 0 < read lens (item &&& 0x1f) ∧
      read codes (item &&& 0x1f) < 2 ^ read lens (item &&& 0x1f) := by
  obtain ⟨freqs, hcode, hcount⟩ := h.code
  have hsym := foldlM_expand_sym h.expand item hitem
  exact ⟨hcode.live _ hsym (hcount item hitem), hcode.word_lt hsym (hcount item hitem)⟩

theorem mem_perm_lt {lens : List ℕ} {sym : ℕ} (h : sym ∈ sdefl_perm.take (sdefl_item_cnt lens)) :
    sym < 19 := by
  have hall : ∀ t ∈ sdefl_perm, t < 19 := by decide
  exact hall sym (List.mem_of_mem_take h)

/-- The bits of the head, behind the type of the block. -/
def sdefl_head_bits (symcnt : SdeflSymcnt) (items lens codes : List ℕ) : List Bool :=
  ofNat (symcnt.lit - 257) 5 ++ (ofNat (symcnt.off - 1) 5 ++ (ofNat (sdefl_item_cnt lens - 4) 4 ++
    (sdefl_nlens_bits lens (sdefl_perm.take (sdefl_item_cnt lens)) ++
      items.flatMap (sdefl_item_bits codes lens))))

/-- **Writing the head.** -/
theorem Writes.head {w : SdeflBits} {bs : List Bool} (hw : Writes w bs)
    (h : HeadParts cod symcnt items lens codes) :
    Writes (items.foldl (sdefl_put_item codes lens)
      ((sdefl_perm.take (sdefl_item_cnt lens)).foldl
        (fun w sym => pakka_sdefl_put w (read lens sym) 3)
        (pakka_sdefl_put (pakka_sdefl_put (pakka_sdefl_put w (symcnt.lit - 257) 5)
          (symcnt.off - 1) 5) (sdefl_item_cnt lens - 4) 4)))
      (bs ++ sdefl_head_bits symcnt items lens codes) := by
  have hlit := h.lit_le
  have hoff := h.off_le
  obtain ⟨-, htrim, -⟩ := trim_spec (sdefl_perm.map (read lens)) 4 19 (by decide)
  rw [← sdefl_item_cnt] at htrim
  have h1 := hw.put (show symcnt.lit - 257 < 2 ^ 5 by omega)
  have h2 := h1.put (show symcnt.off - 1 < 2 ^ 5 by omega)
  have h3 := h2.put (show sdefl_item_cnt lens - 4 < 2 ^ 4 by omega)
  have h4 := h3.nlens fun sym (hsym : sym ∈ sdefl_perm.take (sdefl_item_cnt lens)) =>
    h.len_lt (mem_perm_lt hsym)
  have h5 := h4.items h.expand fun item hitem => (h.item_live hitem).2
  rw [List.append_assoc, List.append_assoc, List.append_assoc, List.append_assoc] at h5
  exact h5

/-- The lengths that are sent, as the decoder takes them apart. -/
theorem sent_lens (litLen offLen : List ℕ) (lit off : ℕ) :
    let final := (List.range lit).map (read litLen) ++ (List.range off).map (read offLen)
    final.length = lit + off ∧ (∀ sym, sym < lit → read final sym = read litLen sym) ∧
      ∀ sym, sym < off → read (final.drop lit) sym = read offLen sym := by
  refine ⟨by simp, fun sym hsym => ?_, fun sym hsym => ?_⟩
  · show List.getD _ sym 0 = _
    rw [List.getD_append _ _ _ _ (by simpa using hsym),
      List.getD_eq_getElem _ _ (by simpa using hsym)]
    simp
  · rw [List.drop_left' (by simp)]
    show List.getD _ sym 0 = _
    rw [List.getD_eq_getElem _ _ (by simpa using hsym)]
    simp

/-- **Reading the head.** The tables that come out of it decode the codes of the block. -/
theorem dyn_spec {freqLit freqOff : List ℕ} {inp : Bytes} {s : Sinfl} {rest : List Bool}
    (hcode : BlockCode cod freqLit freqOff) (h : HeadParts cod symcnt items lens codes)
    (hread : Reading inp s (sdefl_head_bits symcnt items lens codes ++ rest)) (t : SinflTables) :
    ∃ s' t', sinfl_dyn inp s t = some (s', t') ∧ Reading inp s' rest ∧
      Decodes 288 cod.litLen cod.litWord t'.lits 10 ∧
      ((∃ sym, sym < 32 ∧ read freqOff sym ≠ 0) → Decodes 32 cod.offLen cod.offWord t'.dsts 8) := by
  have hlit := h.lit_le
  have hlit' := h.lit_ge
  have hoff := h.off_le
  have hoff' := h.off_ge
  obtain ⟨htrim4, htrim, -⟩ := trim_spec (sdefl_perm.map (read lens)) 4 19 (by decide)
  rw [← sdefl_item_cnt] at htrim4 htrim
  obtain ⟨hread₁, hcnt₁⟩ := hread.refill
  rw [sdefl_head_bits, List.append_assoc, List.append_assoc, List.append_assoc,
    List.append_assoc] at hread₁
  -- the three counts, out of one refill
  obtain ⟨s₂, hget₂, hread₂, hcnt₂⟩ := hread₁.get (show symcnt.lit - 257 < 2 ^ 5 by omega)
    (by omega) (by decide)
  obtain ⟨s₃, hget₃, hread₃, hcnt₃⟩ := hread₂.get (show symcnt.off - 1 < 2 ^ 5 by omega)
    (by omega) (by decide)
  obtain ⟨s₄, hget₄, hread₄, hcnt₄⟩ := hread₃.get (show sdefl_item_cnt lens - 4 < 2 ^ 4 by omega)
    (by omega) (by decide)
  obtain ⟨s₅, nlens, hnlens, hread₅, hval⟩ := nlens_spec [] hread₄
    fun sym hsym => h.len_lt (mem_perm_lt hsym)
  -- lengths that were not sent are zero on both sides
  have hsame (sym : ℕ) (hsym : sym < 19) : read nlens sym = read lens sym := by
    rw [hval]
    split_ifs with hmem
    · rfl
    · rcases mem_take_perm hsym lens with hmem' | hzero
      · exact absurd hmem' hmem
      · rw [hzero, read_nil]
  obtain ⟨freqs, hpre, -⟩ := h.code
  have hhlens : Decodes 19 lens codes (pakka_sinfl_build [] nlens 7 7 19) 7 :=
    hpre.decodes le_rfl (by decide) (by decide) (by decide) (by decide) le_rfl hsame
      (fun sym hge hlt => absurd hlt (Nat.not_lt.mpr hge)) []
  have hexpand := h.expand
  obtain ⟨hlen, hreadLit, hreadOff⟩ := sent_lens cod.litLen cod.offLen symcnt.lit symcnt.off
  generalize (List.range symcnt.lit).map (read cod.litLen) ++
    (List.range symcnt.off).map (read cod.offLen) = final at hexpand hlen hreadLit hreadOff
  have hitems := foldlM_expand_length hexpand
  rw [hlen, List.length_nil] at hitems
  -- one list of lengths for both codes, cut where the first one ends
  obtain ⟨s₆, hlens, hread₆⟩ := lens_spec 321 hhlens hread₅ hexpand
    (fun item hitem => (h.item_live hitem).1) hlen (by omega) (by omega)
  have htblLit : Decodes 288 cod.litLen cod.litWord (pakka_sinfl_build t.lits final 10 15 symcnt.lit)
      10 :=
    hcode.lit.decodes (by decide) (by decide) (by decide) (by decide) (by decide) hlit hreadLit
      h.lit_zero t.lits
  have htblOff (hused : ∃ sym, sym < 32 ∧ read freqOff sym ≠ 0) : Decodes 32 cod.offLen cod.offWord
      (pakka_sinfl_build t.dsts (final.drop symcnt.lit) 8 15 symcnt.off) 8 := by
    obtain ⟨sym, hsym, hlive⟩ := hused
    have hoffcode := hcode.off.resolve_right fun hnone => hlive (hnone sym hsym).1
    exact hoffcode.decodes (by decide) (by decide) (by decide) (by decide) (by decide) hoff hreadOff
      h.off_zero t.dsts
  refine ⟨s₆, ⟨_, _⟩, ?_, hread₆, htblLit, htblOff⟩
  rw [sinfl_dyn, hget₂]
  show (pakka_sinfl__get s₂ 5).bind _ = _
  rw [hget₃]
  show (pakka_sinfl__get s₃ 4).bind _ = _
  rw [hget₄]
  show (sinfl_nlens inp (sinfl_order.take (4 + (sdefl_item_cnt lens - 4))) (s₄, [])).bind _ = _
  rw [Nat.add_sub_cancel' htrim4, show sinfl_order = sdefl_perm from rfl, hnlens]
  show (sinfl_lens inp (pakka_sinfl_build [] nlens 7 7 19)
    (257 + (symcnt.lit - 257) + (1 + (symcnt.off - 1))) 321 s₅ []).bind _ = _
  rw [Nat.add_sub_cancel' hlit', Nat.add_sub_cancel' hoff', hlens]
  rfl

end Head

end Pakka
