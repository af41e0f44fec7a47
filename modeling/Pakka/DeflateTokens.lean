/-
The body of a block.

The sequences of the encoder are tokens: letters and copies. A token is written as the words of
its symbols and the bits that tell a length or a distance from the others of its symbol. The
decoder takes two symbols to a refill when the first is a literal, so a literal and the copy behind
it must fit in 56 bits together.

A round of the decoder reads a literal and looks at the next symbol, or a copy. The rounds are
described by what stands next in the stream, so that the body is followed by induction on its tokens
with two at a time where a literal comes first.
-/
import Pakka.DeflateHeader
import Pakka.Lib.Lz77

set_option autoImplicit false

namespace Pakka

open Cells BitString ByteImage Lz77

/-! ## Lengths and distances

The encoder finds the symbol of a length or a distance by arithmetic on bit lengths and in a table,
the decoder goes by tables of bases and extra bits. That the two name the same number is checked
over the finite range of lengths, and for distances by the width of their extra bits.
-/

/-- The symbol of a length is the one in whose range it is. -/
theorem length_code {len : ℕ} (h3 : 3 ≤ len) (hlen : len ≤ 258) :
    let ls := sdefl_lslot.getD len 0
    ls ≤ 28 ∧ sdefl_lmin.getD ls 0 ≤ len ∧ len - sdefl_lmin.getD ls 0 < 2 ^ sdefl_lxn.getD ls 0 ∧
      sdefl_lxn.getD ls 0 ≤ 5 ∧ sinfl_lbase.getD ls 0 = sdefl_lmin.getD ls 0 ∧
      sinfl_lbits.getD ls 0 = sdefl_lxn.getD ls 0 := by
  have hall : ∀ r ∈ sdefl_lslot.zipIdx, 3 ≤ r.2 → (r.1 ≤ 28 ∧ sdefl_lmin.getD r.1 0 ≤ r.2 ∧
      r.2 - sdefl_lmin.getD r.1 0 < 2 ^ sdefl_lxn.getD r.1 0 ∧ sdefl_lxn.getD r.1 0 ≤ 5 ∧
      sinfl_lbase.getD r.1 0 = sdefl_lmin.getD r.1 0 ∧
      sinfl_lbits.getD r.1 0 = sdefl_lxn.getD r.1 0) := by decide +kernel
  have hlt : len < sdefl_lslot.length := by
    rw [show sdefl_lslot.length = 259 from by decide +kernel]
    omega
  refine hall (sdefl_lslot.getD len 0, len) ?_ h3
  rw [List.mk_mem_zipIdx_iff_getElem?, List.getD_eq_getElem _ _ hlt]
  exact List.getElem?_eq_getElem hlt

/-- The extra bits of a distance, from the power of two that it is below. -/
theorem dist_bits {dist k : ℕ} (hlow : 2 ^ (k + 1) < dist) (hhigh : dist ≤ 2 ^ (k + 2)) :
    pakka_sdefl_ilog2 (pakka_sdefl_npow2 dist >>> 2) = k := by
  have hone := Nat.two_pow_pos k
  have htwo : 2 ^ (k + 1) = 2 * 2 ^ k := by rw [pow_succ, Nat.mul_comm]
  have hfour : 2 ^ (k + 2) = 4 * 2 ^ k := by rw [pow_add]; omega
  have hlog : pakka_sdefl_ilog2 (dist - 1) = k + 1 := by
    rw [pakka_sdefl_ilog2, if_neg (by omega), Nat.log2_eq_iff (by omega)]
    omega
  have hpow : 1 <<< (k + 1 + 1) >>> 2 = 2 ^ k := by
    rw [Nat.one_shiftLeft, Nat.shiftRight_eq_div_pow, show k + 1 + 1 = k + 2 from rfl, pow_add,
      Nat.mul_div_cancel _ (by decide)]
  rw [pakka_sdefl_npow2, hlog, hpow, pakka_sdefl_ilog2, if_neg (Nat.two_pow_pos k).ne',
    Nat.log2_two_pow]

/-- The tables of distances: two symbols for each number of extra bits. -/
theorem dist_tables : ∀ k, k < 14 → 1 ≤ k → (sdefl_dxmax.getD k 0 = 3 * 2 ^ k ∧
    sdefl_dmin.getD (2 * k + 2) 0 = 2 * 2 ^ k + 1 ∧
    sdefl_dmin.getD (2 * k + 2 + 1) 0 = 3 * 2 ^ k + 1 ∧
    sinfl_dbase.getD (2 * k + 2) 0 = 2 * 2 ^ k + 1 ∧
    sinfl_dbase.getD (2 * k + 2 + 1) 0 = 3 * 2 ^ k + 1 ∧
    sinfl_dbits.getD (2 * k + 2) 0 = k ∧ sinfl_dbits.getD (2 * k + 2 + 1) 0 = k) := by decide +kernel

/-- The symbol of a distance is the one in whose range it is. -/
theorem dist_code {dist : ℕ} (hpos : 0 < dist) (hle : dist ≤ 32768) :
    let dx := pakka_sdefl_ilog2 (pakka_sdefl_npow2 dist >>> 2)
    let dc := if dx ≠ 0 then ((dx + 1) <<< 1) + (if dist > sdefl_dxmax.getD dx 0 then 1 else 0)
      else dist - 1
    dc < 30 ∧ sdefl_dmin.getD dc 0 ≤ dist ∧ dist - sdefl_dmin.getD dc 0 < 2 ^ dx ∧ dx ≤ 13 ∧
      sinfl_dbase.getD dc 0 = sdefl_dmin.getD dc 0 ∧ sinfl_dbits.getD dc 0 = dx := by
  by_cases h4 : dist ≤ 4
  · have hall : ∀ d, d < 5 → 0 < d → pakka_sdefl_ilog2 (pakka_sdefl_npow2 d >>> 2) = 0 := by decide
    rw [hall dist (by omega) hpos]
    interval_cases dist <;> decide
  · obtain ⟨k, hlow, hhigh, hk⟩ : ∃ k, 2 ^ (k + 1) < dist ∧ dist ≤ 2 ^ (k + 2) ∧ 1 ≤ k := by
      have hself := Nat.log2_self_le (show dist - 1 ≠ 0 by omega)
      have hlt : dist - 1 < 2 ^ ((dist - 1).log2 + 1) := Nat.lt_log2_self
      have h2 : 2 ≤ (dist - 1).log2 := by
        rw [Nat.le_log2 (by omega)]
        omega
      refine ⟨(dist - 1).log2 - 1, ?_, ?_, by omega⟩
      · rw [show (dist - 1).log2 - 1 + 1 = (dist - 1).log2 by omega]
        omega
      · rw [show (dist - 1).log2 - 1 + 2 = (dist - 1).log2 + 1 by omega]
        omega
    have hk13 : k ≤ 13 := by
      by_contra hcon
      have := Nat.pow_le_pow_right (show 0 < 2 by decide) (show 15 ≤ k + 1 by omega)
      omega
    have hone := Nat.two_pow_pos k
    have htwo : 2 ^ (k + 1) = 2 * 2 ^ k := by rw [pow_succ, Nat.mul_comm]
    have hfour : 2 ^ (k + 2) = 4 * 2 ^ k := by rw [pow_add]; omega
    obtain ⟨hmax, hmin, hmin', hbase, hbase', hbits, hbits'⟩ := dist_tables k (by omega) hk
    rw [dist_bits hlow hhigh]
    dsimp only
    rw [if_pos (by omega), hmax, show (k + 1) <<< 1 = 2 * k + 2 by rw [Nat.shiftLeft_eq]; omega]
    split_ifs with hhalf
    · rw [hmin', hbase', hbits']
      exact ⟨by omega, by omega, by omega, hk13, rfl, rfl⟩
    · rw [Nat.add_zero, hmin, hbase, hbits]
      exact ⟨by omega, by omega, by omega, hk13, rfl, rfl⟩

/-- What the symbols of a match say. -/
structure MatchCoded (dist len : ℕ) (c : SdeflMatchCodes) : Prop where
  lc_eq : c.lc = 257 + c.ls
  ls_le : c.ls ≤ 28
  len_ge : sdefl_lmin.getD c.ls 0 ≤ len
  len_lt : len - sdefl_lmin.getD c.ls 0 < 2 ^ sdefl_lxn.getD c.ls 0
  lxn_le : sdefl_lxn.getD c.ls 0 ≤ 5
  lbase_eq : sinfl_lbase.getD c.ls 0 = sdefl_lmin.getD c.ls 0
  lbits_eq : sinfl_lbits.getD c.ls 0 = sdefl_lxn.getD c.ls 0
  dc_lt : c.dc < 30
  dist_ge : sdefl_dmin.getD c.dc 0 ≤ dist
  dist_lt : dist - sdefl_dmin.getD c.dc 0 < 2 ^ c.dx
  dx_le : c.dx ≤ 13
  dbase_eq : sinfl_dbase.getD c.dc 0 = sdefl_dmin.getD c.dc 0
  dbits_eq : sinfl_dbits.getD c.dc 0 = c.dx

/-- **Every match has its symbols.** -/
theorem match_codes_spec {dist len : ℕ} (hpos : 0 < dist) (hdist : dist ≤ 32768) (h3 : 3 ≤ len)
    (hlen : len ≤ 258) :
    ∃ c, pakka_sdefl_match_codes dist len = some c ∧ MatchCoded dist len c := by
  obtain ⟨h1, h2, h3', h4, h5, h6⟩ := length_code h3 hlen
  obtain ⟨d1, d2, d3, d4, d5, d6⟩ := dist_code hpos hdist
  exact ⟨_, if_pos ⟨hlen, hdist, by omega⟩, rfl, h1, h2, h3', h4, h5, h6, d1, d2, d3, d4, d5, d6⟩

/-! ## Writing tokens

A copy is a length word, its extra bits, a distance word and its extra bits. The writer's state
keeps track of bits only, so a list of sequences is written by appending.
-/

/-- The bits of a match. -/
def sdefl_copy_bits (cod : SdeflCod) (c : SdeflMatchCodes) (dist len : ℕ) : List Bool :=
  ofNat (read cod.litWord c.lc) (read cod.litLen c.lc) ++
    (ofNat (len - sdefl_lmin.getD c.ls 0) (sdefl_lxn.getD c.ls 0) ++
      (ofNat (read cod.offWord c.dc) (read cod.offLen c.dc) ++
        ofNat (dist - sdefl_dmin.getD c.dc 0) c.dx))

/-- The bits of a token. -/
def sdefl_token_bits (cod : SdeflCod) : Token UInt8 → List Bool
  | .lit b => ofNat (read cod.litWord b.toNat) (read cod.litLen b.toNat)
  | .copy dist len => ((pakka_sdefl_match_codes dist len).map fun c =>
      sdefl_copy_bits cod c dist len).getD []

/-- The symbols of a token are counted, and a match is within the limits of the format. -/
def TokenLive (freqLit freqOff : List ℕ) : Token UInt8 → Prop
  | .lit b => read freqLit b.toNat ≠ 0
  | .copy dist len => (0 < dist ∧ dist ≤ 32768 ∧ 3 ≤ len ∧ len ≤ 258) ∧
      ∀ c, pakka_sdefl_match_codes dist len = some c → read freqLit c.lc ≠ 0 ∧ read freqOff c.dc ≠ 0

/-- The tokens of a sequence. -/
def sdefl_seq_tokens (inp : Bytes) (q : SdeflSeq) : List (Token UInt8) :=
  if q.off ≥ 0 then ((inp.drop q.off.toNat).take q.len).map .lit else [.copy (-q.off).toNat q.len]

section Writing

variable {cod : SdeflCod} {freqLit freqOff : List ℕ} {w : SdeflBits} {bs : List Bool}

theorem BlockCode.off_code (h : BlockCode cod freqLit freqOff) {sym : ℕ} (hsym : sym < 32)
    (hlive : read freqOff sym ≠ 0) : CodeFor 32 15 freqOff (cod.offLen, cod.offWord) :=
  h.off.resolve_right fun hnone => hlive (hnone sym hsym).1

theorem Writes.lits (hcode : BlockCode cod freqLit freqOff) (hw : Writes w bs) {b : Bytes}
    (hlive : ∀ t ∈ b.map Token.lit, TokenLive freqLit freqOff t) :
    Writes (b.foldl (fun w c =>
      pakka_sdefl_put w (read cod.litWord c.toNat) (read cod.litLen c.toNat)) w)
      (bs ++ (b.map Token.lit).flatMap (sdefl_token_bits cod)) := by
  induction b generalizing w bs with
  | nil =>
    rw [List.map_nil, List.flatMap_nil, List.append_nil]
    exact hw
  | cons c b ih =>
    have hc : read freqLit c.toNat ≠ 0 := hlive (.lit c) (by simp)
    have hlt : c.toNat < 288 := lt_trans (UInt8.toNat_lt c) (by decide)
    rw [List.map_cons, List.flatMap_cons, ← List.append_assoc, List.foldl_cons]
    exact ih (hw.put (hcode.lit.word_lt hlt hc)) fun t ht => hlive t (List.mem_cons_of_mem _ ht)

theorem Writes.copy (hcode : BlockCode cod freqLit freqOff) (hw : Writes w bs) {dist len : ℕ}
    (hlive : TokenLive freqLit freqOff (.copy dist len)) :
    ∃ w', pakka_sdefl_match cod w dist len = some w' ∧
      Writes w' (bs ++ sdefl_token_bits cod (.copy dist len)) := by
  obtain ⟨⟨hpos, hdist, h3, hlen⟩, hcount⟩ := hlive
  obtain ⟨c, hc, hcoded⟩ := match_codes_spec hpos hdist h3 hlen
  obtain ⟨hlc, hdc⟩ := hcount c hc
  have hls := hcoded.ls_le
  have hlceq := hcoded.lc_eq
  have hdclt := hcoded.dc_lt
  have h1 := hw.put (hcode.lit.word_lt (show c.lc < 288 by omega) hlc)
  have h2 := h1.put hcoded.len_lt
  have h3 := h2.put ((hcode.off_code (show c.dc < 32 by omega) hdc).word_lt (by omega) hdc)
  have h4 := h3.put hcoded.dist_lt
  rw [List.append_assoc, List.append_assoc, List.append_assoc] at h4
  have hbits : sdefl_token_bits cod (.copy dist len) = sdefl_copy_bits cod c dist len := by
    rw [sdefl_token_bits, hc]
    rfl
  have hput : pakka_sdefl_match cod w dist len = some (pakka_sdefl_put (pakka_sdefl_put
      (pakka_sdefl_put (pakka_sdefl_put w (read cod.litWord c.lc) (read cod.litLen c.lc))
        (len - sdefl_lmin.getD c.ls 0) (sdefl_lxn.getD c.ls 0))
      (read cod.offWord c.dc) (read cod.offLen c.dc)) (dist - sdefl_dmin.getD c.dc 0) c.dx) := by
    rw [pakka_sdefl_match, hc]
    rfl
  rw [hbits]
  exact ⟨_, hput, h4⟩

/-- **Writing the sequences.** -/
theorem Writes.seqs (hcode : BlockCode cod freqLit freqOff) (hw : Writes w bs) (inp : Bytes)
    {seq : List SdeflSeq}
    (hlive : ∀ t ∈ seq.flatMap (sdefl_seq_tokens inp), TokenLive freqLit freqOff t) :
    ∃ w', seq.foldlM (sdefl_put_seq inp cod) w = some w' ∧
      Writes w' (bs ++ (seq.flatMap (sdefl_seq_tokens inp)).flatMap (sdefl_token_bits cod)) := by
  induction seq generalizing w bs with
  | nil =>
    refine ⟨w, rfl, ?_⟩
    rw [List.flatMap_nil, List.flatMap_nil, List.append_nil]
    exact hw
  | cons q seq ih =>
    rw [List.flatMap_cons] at hlive ⊢
    have hhead : ∃ w₁, sdefl_put_seq inp cod w q = some w₁ ∧
        Writes w₁ (bs ++ (sdefl_seq_tokens inp q).flatMap (sdefl_token_bits cod)) := by
      have hq : ∀ t ∈ sdefl_seq_tokens inp q, TokenLive freqLit freqOff t :=
        fun t ht => hlive t (List.mem_append_left _ ht)
      rw [sdefl_put_seq]
      by_cases hoff : q.off ≥ 0
      · rw [sdefl_seq_tokens, if_pos hoff] at hq
        rw [if_pos hoff, sdefl_seq_tokens, if_pos hoff]
        exact ⟨_, rfl, hw.lits hcode hq⟩
      · rw [sdefl_seq_tokens, if_neg hoff] at hq
        rw [if_neg hoff, sdefl_seq_tokens, if_neg hoff, List.flatMap_singleton]
        exact hw.copy hcode (hq _ (List.mem_singleton.mpr rfl))
    obtain ⟨w₁, hput, hw₁⟩ := hhead
    obtain ⟨w', hrest, hw'⟩ := ih hw₁ fun t ht => hlive t (List.mem_append_right _ ht)
    rw [List.append_assoc, ← List.flatMap_append] at hw'
    refine ⟨w', ?_, hw'⟩
    rw [List.foldlM_cons, hput]
    exact hrest

end Writing

/-! ## Reading tokens

`TablesFor` says that the two tables decode the two codes of the block. `Budget` says of a list of
tokens that no literal is followed by a copy whose bits would exceed a refill.
-/

theorem sinfl_copy_eq {α : Type} [Inhabited α] (offs len : ℕ) (out : List α) :
    sinfl_copy offs len out = copyBack offs len out := by
  induction len generalizing out with
  | zero => rfl
  | succ len ih => exact ih _

/-- The tables of a block decode its codes. -/
structure TablesFor (cod : SdeflCod) (freqOff : List ℕ) (t : SinflTables) : Prop where
  lits : Decodes 288 cod.litLen cod.litWord t.lits 10
  dsts : (∃ sym, sym < 32 ∧ read freqOff sym ≠ 0) → Decodes 32 cod.offLen cod.offWord t.dsts 8

/-- A literal and a copy behind it fit in what one refill promises. -/
def PairFits (cod : SdeflCod) : Token UInt8 → Token UInt8 → Prop
  | .lit b, .copy dist len =>
    (sdefl_token_bits cod (.lit b)).length + (sdefl_token_bits cod (.copy dist len)).length ≤ 56
  | _, _ => True

instance (cod : SdeflCod) : DecidableRel (PairFits cod)
  | .lit _, .copy _ _ => inferInstanceAs (Decidable (_ ≤ 56))
  | .lit _, .lit _ => .isTrue trivial
  | .copy _ _, _ => .isTrue trivial

/-- So do all of them in a block. -/
abbrev Budget (cod : SdeflCod) (ts : List (Token UInt8)) : Prop := ts.IsChain (PairFits cod)

section Reading

variable {cod : SdeflCod} {freqLit freqOff : List ℕ} {t : SinflTables} {inp : Bytes} {s : Sinfl}
  {rest : List Bool} {out : Written} {cap : ℕ}

theorem BlockCode.lit_len (h : BlockCode cod freqLit freqOff) {sym : ℕ} (hsym : sym < 288) :
    read cod.litLen sym ≤ 14 := h.lit.complete.le sym hsym

/-- The end of the block. -/
theorem read_end (hcode : BlockCode cod freqLit freqOff) (htbl : TablesFor cod freqOff t)
    (hread : Reading inp s (ofNat (read cod.litWord 256) (read cod.litLen 256) ++ rest))
    (hcnt : 15 ≤ s.bitcnt) (cap : ℕ) (out : Written) :
    ∃ s', pakka_sinfl_decode s t.lits 10 = some (256, s') ∧ Reading inp s' rest ∧
      sinfl_match cap t.dsts 256 s' out = some (.go (true, s', out)) := by
  obtain ⟨s', hdec, hread', -⟩ := htbl.lits inp s rest 256 (by decide)
    (hcode.lit.live 256 (by decide) hcode.eob) hread hcnt
  exact ⟨s', hdec, hread', by rw [sinfl_match, if_pos rfl]⟩

/-- A literal. -/
theorem read_lit (hcode : BlockCode cod freqLit freqOff) (htbl : TablesFor cod freqOff t) {b : UInt8}
    (hlive : TokenLive freqLit freqOff (.lit b))
    (hread : Reading inp s (sdefl_token_bits cod (.lit b) ++ rest)) (hcnt : 15 ≤ s.bitcnt) :
    ∃ s', pakka_sinfl_decode s t.lits 10 = some (b.toNat, s') ∧ Reading inp s' rest ∧
      s'.bitcnt = s.bitcnt - (sdefl_token_bits cod (.lit b)).length ∧
      (sdefl_token_bits cod (.lit b)).length ≤ 14 := by
  have hlt : b.toNat < 288 := lt_trans (UInt8.toNat_lt b) (by decide)
  obtain ⟨s', hdec, hread', hleft⟩ := htbl.lits inp s rest b.toNat hlt
    (hcode.lit.live b.toNat hlt hlive) hread hcnt
  have hlen : (sdefl_token_bits cod (.lit b)).length = read cod.litLen b.toNat := length_ofNat _ _
  rw [hlen]
  exact ⟨s', hdec, hread', hleft, hcode.lit_len hlt⟩

/-- A copy, when enough bits are promised. -/
theorem read_copy (hcode : BlockCode cod freqLit freqOff) (htbl : TablesFor cod freqOff t)
    {dist len : ℕ} (hlive : TokenLive freqLit freqOff (.copy dist len))
    (hread : Reading inp s (sdefl_token_bits cod (.copy dist len) ++ rest)) (hcnt : 34 ≤ s.bitcnt)
    (hroom : (sdefl_token_bits cod (.copy dist len)).length ≤ s.bitcnt)
    (hdist : dist ≤ out.length) (hcap : out.length + len ≤ cap) :
    ∃ s₁ s' sym, pakka_sinfl_decode s t.lits 10 = some (sym, s₁) ∧ ¬ sym < 256 ∧
      sinfl_match cap t.dsts sym s₁ out = some (.go (false, s', copyBack dist len out)) ∧
      Reading inp s' rest := by
  obtain ⟨⟨hpos, hmax, h3, hlen⟩, hcount⟩ := hlive
  obtain ⟨c, hc, hcoded⟩ := match_codes_spec hpos hmax h3 hlen
  obtain ⟨hlc, hdc⟩ := hcount c hc
  have hls := hcoded.ls_le
  have hlceq := hcoded.lc_eq
  have hdclt := hcoded.dc_lt
  have hlxn := hcoded.lxn_le
  have hdx := hcoded.dx_le
  have hlitlen := hcode.lit_len (show c.lc < 288 by omega)
  have hoffcode := hcode.off_code (show c.dc < 32 by omega) hdc
  have hbits : sdefl_token_bits cod (.copy dist len) = sdefl_copy_bits cod c dist len := by
    rw [sdefl_token_bits, hc]
    rfl
  have hcost : (sdefl_copy_bits cod c dist len).length = read cod.litLen c.lc +
      (sdefl_lxn.getD c.ls 0 + (read cod.offLen c.dc + c.dx)) := by
    simp only [sdefl_copy_bits, List.length_append, length_ofNat]
  rw [hbits] at hread hroom
  rw [hcost] at hroom
  rw [sdefl_copy_bits, List.append_assoc, List.append_assoc, List.append_assoc] at hread
  obtain ⟨s₁, hdec, hread₁, hleft₁⟩ := htbl.lits inp s _ c.lc (by omega)
    (hcode.lit.live c.lc (by omega) hlc) hread (by omega)
  obtain ⟨s₂, hget, hread₂, hleft₂⟩ := hread₁.get hcoded.len_lt (by omega) (by omega)
  obtain ⟨s₃, hdec', hread₃, hleft₃⟩ := htbl.dsts ⟨c.dc, by omega, hdc⟩ inp s₂ _ c.dc (by omega)
    (hoffcode.live c.dc (by omega) hdc) hread₂ (by omega)
  obtain ⟨s₄, hget', hread₄, -⟩ := hread₃.get hcoded.dist_lt (by omega) (by omega)
  refine ⟨s₁, s₄, c.lc, hdec, by omega, ?_, hread₄⟩
  have hlenge := hcoded.len_ge
  have hdistge := hcoded.dist_ge
  rw [sinfl_match, if_neg (by omega), if_neg (by omega)]
  dsimp only
  rw [show c.lc - 257 = c.ls by omega, hcoded.lbits_eq, hget]
  show (pakka_sinfl_decode s₂ t.dsts 8).bind _ = _
  rw [hdec']
  show (pakka_sinfl__get s₃ (sinfl_dbits.getD c.dc 0)).bind _ = _
  rw [hcoded.dbits_eq, hget']
  show (if out.length + (len - sdefl_lmin.getD c.ls 0 + sinfl_lbase.getD c.ls 0) > cap then _ else
    if dist - sdefl_dmin.getD c.dc 0 + sinfl_dbase.getD c.dc 0 > out.length then none else
    some (SinflOut.go (false, s₄, sinfl_copy (dist - sdefl_dmin.getD c.dc 0 + sinfl_dbase.getD c.dc 0)
      (len - sdefl_lmin.getD c.ls 0 + sinfl_lbase.getD c.ls 0) out))) = _
  rw [hcoded.lbase_eq, hcoded.dbase_eq, Nat.sub_add_cancel hlenge, Nat.sub_add_cancel hdistge,
    if_neg (by omega), if_neg (by omega), sinfl_copy_eq]

/-! ## A round

The three kinds of rounds, each with the state of the reader behind it.
-/

theorem round_end (hcode : BlockCode cod freqLit freqOff) (htbl : TablesFor cod freqOff t)
    (hread : Reading inp s (ofNat (read cod.litWord 256) (read cod.litLen 256) ++ rest))
    (cap : ℕ) (out : Written) :
    ∃ s', sinfl_round inp cap t s out = some (.go (true, s', out)) ∧ Reading inp s' rest := by
  obtain ⟨hread₁, hcnt₁⟩ := hread.refill
  obtain ⟨s', hdec, hread', hmatch⟩ := read_end hcode htbl hread₁ (by omega) cap out
  refine ⟨s', ?_, hread'⟩
  rw [sinfl_round, hdec]
  exact hmatch

theorem round_copy (hcode : BlockCode cod freqLit freqOff) (htbl : TablesFor cod freqOff t)
    {dist len : ℕ} (hlive : TokenLive freqLit freqOff (.copy dist len))
    (hread : Reading inp s (sdefl_token_bits cod (.copy dist len) ++ rest))
    (hroom : (sdefl_token_bits cod (.copy dist len)).length ≤ 56)
    (hdist : dist ≤ out.length) (hcap : out.length + len ≤ cap) :
    ∃ s', sinfl_round inp cap t s out = some (.go (false, s', copyBack dist len out)) ∧
      Reading inp s' rest := by
  obtain ⟨hread₁, hcnt₁⟩ := hread.refill
  obtain ⟨s₁, s', sym, hdec, hsym, hmatch, hread'⟩ :=
    read_copy hcode htbl hlive hread₁ (by omega) (by omega) hdist hcap
  refine ⟨s', ?_, hread'⟩
  rw [sinfl_round, hdec]
  show (if sym < 256 then _ else _) = _
  rw [if_neg hsym]
  exact hmatch

/-- A round that starts with a literal, in terms of its second symbol. -/
theorem round_lit (hcode : BlockCode cod freqLit freqOff) (htbl : TablesFor cod freqOff t) {b : UInt8}
    (hlive : TokenLive freqLit freqOff (.lit b))
    (hread : Reading inp s (sdefl_token_bits cod (.lit b) ++ rest)) (hcap : out.length < cap) :
    ∃ s₁, Reading inp s₁ rest ∧ 56 ≤ s₁.bitcnt + (sdefl_token_bits cod (.lit b)).length ∧
      (sdefl_token_bits cod (.lit b)).length ≤ 14 ∧
      ∀ sym s₂, pakka_sinfl_decode s₁ t.lits 10 = some (sym, s₂) →
        sinfl_round inp cap t s out = if sym < 256 then
          if out.length + 1 ≥ cap then some .full
          else some (.go (false, s₂, out ++ [some b] ++ [some (UInt8.ofNat sym)]))
        else sinfl_match cap t.dsts sym s₂ (out ++ [some b]) := by
  obtain ⟨hread₁, hcnt₁⟩ := hread.refill
  obtain ⟨s₁, hdec, hread', hleft, hlen⟩ := read_lit hcode htbl hlive hread₁ (by omega)
  refine ⟨s₁, hread', by omega, hlen, fun sym s₂ hsym => ?_⟩
  rw [sinfl_round, hdec]
  show (if b.toNat < 256 then if out.length ≥ cap then _ else
    (pakka_sinfl_decode s₁ t.lits 10).bind _ else _) = _
  rw [if_pos (UInt8.toNat_lt b), if_neg (by omega), hsym, UInt8.ofNat_toNat]
  show (if sym < 256 then if (out ++ [some b]).length ≥ cap then _ else _ else _) = _
  rw [List.length_append, List.length_singleton]
  rfl

end Reading

/-! ## The whole body

The tokens of the block and the end symbol. What the decoder has at the end is the text so far, as
known bytes.
-/

section Body

variable {cod : SdeflCod} {freqLit freqOff : List ℕ} {t : SinflTables} {inp x : Bytes}
  {rest : List Bool} {cap : ℕ}

/-- The bits of the tokens of a block, with its end. -/
def sdefl_body_bits (cod : SdeflCod) (ts : List (Token UInt8)) : List Bool :=
  ts.flatMap (sdefl_token_bits cod) ++ ofNat (read cod.litWord 256) (read cod.litLen 256)

theorem copy_bits_le (hcode : BlockCode cod freqLit freqOff) {dist len : ℕ}
    (hlive : TokenLive freqLit freqOff (.copy dist len)) :
    (sdefl_token_bits cod (.copy dist len)).length ≤ 47 := by
  obtain ⟨⟨hpos, hmax, h3, hlen⟩, hcount⟩ := hlive
  obtain ⟨c, hc, hcoded⟩ := match_codes_spec hpos hmax h3 hlen
  obtain ⟨hlc, hdc⟩ := hcount c hc
  have hls := hcoded.ls_le
  have hlceq := hcoded.lc_eq
  have hdclt := hcoded.dc_lt
  have hlxn := hcoded.lxn_le
  have hdx := hcoded.dx_le
  have hlitlen := hcode.lit_len (show c.lc < 288 by omega)
  have hofflen : read cod.offLen c.dc ≤ 15 :=
    (hcode.off_code (show c.dc < 32 by omega) hdc).complete.le c.dc (by omega)
  rw [sdefl_token_bits, hc]
  show (sdefl_copy_bits cod c dist len).length ≤ 47
  simp only [sdefl_copy_bits, List.length_append, length_ofNat]
  omega

theorem blk_end {s s' : Sinfl} {out out' : Written} {fuel : ℕ}
    (h : sinfl_round inp cap t s out = some (.go (true, s', out'))) (hfuel : 0 < fuel) :
    sinfl_blk inp cap t fuel s out = some (.go (s', out')) := by
  obtain ⟨k, rfl⟩ : ∃ k, fuel = k + 1 := ⟨fuel - 1, by omega⟩
  rw [sinfl_blk, h]
  rfl

theorem blk_next {s s' : Sinfl} {out out' : Written} {fuel : ℕ}
    (h : sinfl_round inp cap t s out = some (.go (false, s', out'))) :
    sinfl_blk inp cap t (fuel + 1) s out = sinfl_blk inp cap t fuel s' out' := by
  rw [sinfl_blk, h]
  rfl

/-- The text up to a place, known, as the decoder has written it. -/
theorem known_letter {p : ℕ} (hp : p < x.length) :
    sinfl_known (x.take p) ++ [some (x.getD p default)] = sinfl_known (x.take (p + 1)) := by
  rw [List.take_add_one, List.getElem?_eq_getElem hp, List.getD_eq_getElem _ _ hp, known_append]
  rfl

/-- A copy from where the text agrees with itself copies known bytes. -/
theorem known_copy {p dist : ℕ} (len : ℕ) (hpos : 0 < dist) (hdist : dist ≤ p)
    (hlen : p + len ≤ x.length)
    (hsame : ∀ k, k < len → x.getD (p - dist + k) default = x.getD (p + k) default) :
    copyBack dist len (sinfl_known (x.take p)) = sinfl_known (x.take (p + len)) := by
  have hknown : ∀ i, i < x.length → (sinfl_known x).getD i default = some (x.getD i default) := by
    intro i hi
    rw [List.getD_eq_getElem _ _ hi, List.getD_eq_getElem _ _ (by rwa [length_known])]
    exact List.getElem_map some
  have htake : ∀ n, sinfl_known (x.take n) = (sinfl_known x).take n := fun n => List.map_take
  rw [htake, htake]
  apply copyBack_take len hpos hdist (by rwa [length_known])
  intro k hk
  rw [hknown _ (by omega), hknown _ (by omega), hsame k hk]

/-- **The body of a block is read as what its tokens spell.** The induction is on the number of
tokens, as a round may take two. -/
theorem blk_spec (hcode : BlockCode cod freqLit freqOff) (htbl : TablesFor cod freqOff t)
    (n : ℕ) {ts : List (Token UInt8)} (hn : ts.length ≤ n) {s : Sinfl} {p q : ℕ} (fuel : ℕ)
    (hread : Reading inp s (sdefl_body_bits cod ts ++ rest))
    (hspell : Spells x p ts q) (hlive : ∀ k ∈ ts, TokenLive freqLit freqOff k)
    (hbudget : Budget cod ts) (hcap : q ≤ cap) (hfuel : q < p + fuel) :
    ∃ s', sinfl_blk inp cap t fuel s (sinfl_known (x.take p)) =
      some (.go (s', sinfl_known (x.take q))) ∧
      Reading inp s' rest := by
  -- by the number of tokens: a round takes one of them, or a literal and what follows it
  induction n generalizing ts s p fuel with
  | zero =>
    obtain rfl : ts = [] := List.length_eq_zero_iff.mp (by omega)
    cases hspell
    obtain ⟨s', hround, hread'⟩ := round_end hcode htbl hread cap (sinfl_known (x.take q))
    exact ⟨s', blk_end hround (by omega), hread'⟩
  | succ n ih =>
    have hle := hspell.le
    cases hspell with
    | nil hp =>
      obtain ⟨s', hround, hread'⟩ := round_end hcode htbl hread cap (sinfl_known (x.take q))
      exact ⟨s', blk_end hround (by omega), hread'⟩
    | @copy _ _ dist len ts hpos hdist hlen hsame h =>
      have hle' := h.le
      have hcopy := hlive _ List.mem_cons_self
      have hlenp : (sinfl_known (x.take p)).length = p := by
        rw [length_known, List.length_take_of_le (by omega)]
      have h47 := copy_bits_le hcode hcopy
      have hlen3 : 3 ≤ len := hcopy.1.2.2.1
      rw [sdefl_body_bits, List.flatMap_cons, List.append_assoc, List.append_assoc] at hread
      obtain ⟨k, rfl⟩ : ∃ k, fuel = k + 1 := ⟨fuel - 1, by omega⟩
      obtain ⟨s₁, hround, hread₁⟩ := round_copy hcode htbl hcopy hread (by omega)
        (show dist ≤ (sinfl_known (x.take p)).length by omega)
        (show (sinfl_known (x.take p)).length + len ≤ cap by omega)
      rw [known_copy len hpos hdist hlen hsame] at hround
      rw [← List.append_assoc] at hread₁
      obtain ⟨s', hblk, hread'⟩ := ih (by rw [List.length_cons] at hn; omega) k hread₁ h
        (fun i hi => hlive i (List.mem_cons_of_mem _ hi)) hbudget.tail (by omega)
      exact ⟨s', by rw [blk_next hround, hblk], hread'⟩
    | @lit _ _ ts hp h =>
      have hle' := h.le
      have hlenp : (sinfl_known (x.take p)).length = p := by
        rw [length_known, List.length_take_of_le (by omega)]
      obtain ⟨k, rfl⟩ : ∃ k, fuel = k + 1 := ⟨fuel - 1, by omega⟩
      rw [sdefl_body_bits, List.flatMap_cons, List.append_assoc, List.append_assoc] at hread
      -- behind a literal the round goes on without a refill, so the three cases come again
      obtain ⟨s₁, hread₁, hcnt₁, hlit14, hround⟩ := round_lit hcode htbl
        (hlive _ List.mem_cons_self) hread (show (sinfl_known (x.take p)).length < cap by omega)
      rw [known_letter hp, hlenp] at hround
      cases h with
      | nil _ =>
        obtain ⟨s', hdec, hread', hmatch⟩ := read_end hcode htbl hread₁ (by omega) cap
          (sinfl_known (x.take (p + 1)))
        have hfin := hround 256 s' hdec
        rw [if_neg (by decide), hmatch] at hfin
        exact ⟨s', blk_end hfin (Nat.succ_pos k), hread'⟩
      | @copy _ _ dist len ts hpos hdist hlen hsame h =>
        have hle'' := h.le
        have hcopy := hlive (.copy dist len) (by simp)
        have hlenp' : (sinfl_known (x.take (p + 1))).length = p + 1 := by
          rw [length_known, List.length_take_of_le (by omega)]
        have hboth : _ ≤ 56 := (List.isChain_cons_cons.mp hbudget).1
        have hlen3 : 3 ≤ len := hcopy.1.2.2.1
        rw [List.flatMap_cons, List.append_assoc] at hread₁
        obtain ⟨s₂, s₃, sym, hdec, hsym, hmatch, hread₃⟩ := read_copy hcode htbl hcopy
          hread₁ (by omega) (by omega) (show dist ≤ (sinfl_known (x.take (p + 1))).length by omega)
          (show (sinfl_known (x.take (p + 1))).length + len ≤ cap by omega)
        have hnext := hround sym s₂ hdec
        rw [if_neg hsym, hmatch, known_copy len hpos hdist hlen hsame] at hnext
        rw [← List.append_assoc] at hread₃
        obtain ⟨s', hblk, hread'⟩ := ih (by simp only [List.length_cons] at hn; omega) k hread₃ h
          (fun i hi => hlive i (List.mem_cons_of_mem _ (List.mem_cons_of_mem _ hi)))
          hbudget.tail.tail (by omega)
        exact ⟨s', by rw [blk_next hnext, hblk], hread'⟩
      | @lit _ _ ts hp' h =>
        have hle'' := h.le
        rw [List.flatMap_cons, List.append_assoc] at hread₁
        obtain ⟨s₂, hdec, hread₂, -, -⟩ := read_lit hcode htbl (hlive _ (by simp)) hread₁ (by omega)
        have hnext := hround _ s₂ hdec
        rw [if_pos (UInt8.toNat_lt _), if_neg (by omega), UInt8.ofNat_toNat,
          known_letter hp'] at hnext
        rw [← List.append_assoc] at hread₂
        obtain ⟨s', hblk, hread'⟩ := ih (by simp only [List.length_cons] at hn; omega) k hread₂ h
          (fun i hi => hlive i (List.mem_cons_of_mem _ (List.mem_cons_of_mem _ hi)))
          hbudget.tail.tail (by omega)
        exact ⟨s', by rw [blk_next hnext, hblk], hread'⟩

end Body

end Pakka
