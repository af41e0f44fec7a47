/-
What the stages of the codec are for.

Between the two ends of the codec stand the codes, the head that sends them, the sequences that
stand for the text and the choice between two forms of a block. The round trip needs each of them
only in the state that the run of the encoder leads to. Here every stage is stated for itself, for
every input it can have.

Codes: from any frequencies the construction gives a complete prefix code within its length limit,
and the decoder's table, of any width and over any old contents, takes its words off the stream. The
head: from any counts, what is sent lets the decoder build the tables of the block. The sequences:
at every level and in front of every block they unpack to the text. The costs: the numbers by which
the encoder chooses the form of a block are what the block takes.

Nothing is proved anew; the statements are assembled from the lemmas of the round trip, and each is
followed by an instance on fixed input.
-/
import Pakka.DeflateRoundTrip

set_option autoImplicit false

namespace Pakka

open Cells CanonicalCode BitString ByteImage Lz77

/-! ## Codes

The two sides of one construction. The encoder's side says what the code is, a word for every symbol
in use and exactly one word in front of any bits; the decoder's side says that the table finds it.
-/

section Codes

variable {n max_code_len : ℕ}

/-- **The codes of the encoder.** From any frequencies the symbols in use get words within the
limit, and whatever bits come, exactly one word stands in front of them. -/
theorem huff_exact (lens codes freqs : List ℕ) (h2 : 2 ≤ n) (hn : n ≤ 2 ^ 10)
    (hmax : n ≤ 2 ^ max_code_len) (hpos : 0 < max_code_len) (h16 : max_code_len ≤ 16)
    (hused : ∃ sym, sym < n ∧ read freqs sym ≠ 0) :
    let r := pakka_sdefl_huff lens codes freqs n max_code_len
    (∀ sym, sym < n → read freqs sym ≠ 0 → 0 < read r.1 sym) ∧
      (∀ sym, sym < n → read r.1 sym ≤ max_code_len) ∧
      ∀ x, ∃! sym, sym < n ∧ 0 < read r.1 sym ∧ x % 2 ^ read r.1 sym = read r.2 sym := by
  have hcode := huff_spec lens codes freqs h2 hn hmax hpos h16 hused
  generalize pakka_sdefl_huff lens codes freqs n max_code_len = r at hcode
  refine ⟨hcode.live, hcode.complete.le, fun x => ?_⟩
  obtain ⟨sym, hsym, hlen, hx⟩ := hcode.complete.exists_word x
  refine ⟨sym, ⟨hsym, hlen, by rw [hcode.word_eq sym hsym hlen, hx]⟩, ?_⟩
  rintro sym' ⟨hsym', hlen', hx'⟩
  rw [hcode.word_eq sym' hsym' hlen'] at hx'
  exact hcode.complete.fits.unique hsym' hsym hlen' hlen hx' hx

theorem huff_exact_two : ∃! sym, sym < 2 ∧
    0 < read (pakka_sdefl_huff [] [] [3, 5] 2 1).1 sym ∧
      5 % 2 ^ read (pakka_sdefl_huff [] [] [3, 5] 2 1).1 sym =
        read (pakka_sdefl_huff [] [] [3, 5] 2 1).2 sym :=
  (huff_exact [] [] [3, 5] (by decide) (by decide) (by decide) (by decide) (by decide)
    ⟨0, by decide, by decide⟩).2.2 5

/-- **The decoder's table** for such a code takes each of its words off the stream, whatever the
width of the table and whatever it held before. -/
theorem huff_decoded {bits : ℕ} (lens codes freqs tbl : List ℕ) (h2 : 2 ≤ n) (hn : n ≤ 2 ^ 10)
    (hmax : n ≤ 2 ^ max_code_len) (hpos : 0 < max_code_len) (h15 : max_code_len ≤ 15)
    (hbits : bits ≤ 15) {inp : Bytes} {s : Sinfl} {rest : List Bool} {sym : ℕ} (hsym : sym < n)
    (hlive : read freqs sym ≠ 0) (hcnt : 15 ≤ s.bitcnt) :
    let r := pakka_sdefl_huff lens codes freqs n max_code_len
    Reading inp s (ofNat (read r.2 sym) (read r.1 sym) ++ rest) →
      ∃ s', pakka_sinfl_decode s (pakka_sinfl_build tbl r.1 bits max_code_len n) bits =
        some (sym, s') ∧ Reading inp s' rest := by
  have hcode := huff_spec lens codes freqs h2 hn hmax hpos (by omega) ⟨sym, hsym, hlive⟩
  generalize pakka_sdefl_huff lens codes freqs n max_code_len = r at hcode
  dsimp only
  intro hread
  have hdec := hcode.decodes le_rfl hpos h15 (by omega) hbits le_rfl (fun _ _ => rfl)
    (fun sym hge hlt => absurd hlt (Nat.not_lt.mpr hge)) tbl
  obtain ⟨s', htake, hread', -⟩ := hdec inp s rest sym hsym (hcode.live sym hsym hlive) hread hcnt
  exact ⟨s', htake, hread'⟩

/-- A stream of one byte. -/
theorem huff_decoded_two : ∃ s', pakka_sinfl_decode (pakka_sinfl_refill [1] ⟨0, 0, 0⟩)
    (pakka_sinfl_build [] (pakka_sdefl_huff [] [] [3, 5] 2 1).1 1 1 2) 1 = some (1, s') ∧
      Reading [1] s' (List.replicate 7 false) := by
  obtain ⟨hread, hcnt⟩ := (reading_start [1]).refill
  exact huff_decoded [] [] [3, 5] [] (by decide) (by decide) (by decide) (by decide) (by decide)
    (by decide) (by decide) (by decide) (by omega) hread

end Codes

/-! ## The head of a block

The head is the most indirect part of the format: the lengths of two codes, run-length coded into
items, the items in a third code, and the lengths of that in a fixed order. Both directions are
composed here, from any counted state.
-/

/-- **The head of a block is read back.** Whatever was counted, the decoder gets tables for the codes
of the block from the head, up to the last bit of it. -/
theorem head_decoded (s₀ : Sdefl) {inp : Bytes} {s : Sinfl} {rest : List Bool} (t : SinflTables) :
    let e := sdefl_block_codes s₀
    let p := pakka_sdefl_precode e.cod.litLen e.cod.offLen
    Reading inp s (sdefl_head_bits p.1 p.2.items (sdefl_pre_code e).1 (sdefl_pre_code e).2 ++ rest) →
      ∃ s' t', sinfl_dyn inp s t = some (s', t') ∧ Reading inp s' rest ∧
        Decodes 288 e.cod.litLen e.cod.litWord t'.lits 10 ∧
        ((∃ sym, sym < 32 ∧ read e.freqOff sym ≠ 0) →
          Decodes 32 e.cod.offLen e.cod.offWord t'.dsts 8) := by
  have hcoded := block_codes_spec s₀
  generalize sdefl_block_codes s₀ = e at hcoded
  have hparts := head_parts hcoded.code
  dsimp only
  generalize pakka_sdefl_precode e.cod.litLen e.cod.offLen = p at hparts
  generalize sdefl_pre_code e = q at hparts
  intro hread
  exact dyn_spec hcoded.code hparts hread t

/-- Bits that are written are the bits of some bytes, up to the padding. -/
theorem Writes.stream {w : SdeflBits} {bs : List Bool} (h : Writes w bs) :
    ∃ inp k, ofBytes inp = bs ++ List.replicate k false := by
  obtain ⟨h0, k, -, -, hpad⟩ := h.pad
  have hbits := hpad.eq
  rw [h0, ofNat_zero, List.append_nil] at hbits
  exact ⟨_, k, hbits⟩

/-- Three letters counted, one of them twice, and a distance. -/
def counted_letters : Sdefl := { sdefl_zero with freqLit := [2, 1, 0, 1], freqOff := [0, 0, 1] }

theorem head_decoded_counted : ∃ inp s' t' k, sinfl_dyn inp ⟨0, 0, 0⟩ ⟨[], []⟩ = some (s', t') ∧
    Reading inp s' (List.replicate k false) ∧
    Decodes 288 (sdefl_block_codes counted_letters).cod.litLen
      (sdefl_block_codes counted_letters).cod.litWord t'.lits 10 ∧
    Decodes 32 (sdefl_block_codes counted_letters).cod.offLen
      (sdefl_block_codes counted_letters).cod.offWord t'.dsts 8 := by
  have hcoded := block_codes_spec counted_letters
  obtain ⟨inp, k, hbits⟩ := (writes_start.head (head_parts hcoded.code)).stream
  have hread := reading_start inp
  rw [hbits, List.nil_append] at hread
  obtain ⟨s', t', hdyn, hrest, hlits, hdsts⟩ := head_decoded counted_letters ⟨[], []⟩ hread
  refine ⟨inp, s', t', k, hdyn, hrest, hlits, hdsts ⟨2, by decide, ?_⟩⟩
  rw [hcoded.off_eq]
  decide

/-! ## The blocks of a text

What the search and the lazy matching put together, and what the block it goes into takes.
-/

section Blocks

variable {x : Bytes} {s : Sdefl} {bs : List Bool} {i lvl : ℕ} {z : SdeflLz}

/-- **The sequences of a block stand for it.** At every level and in front of every block, the
tokens unpack to the text up to the end of the block, and each of them is counted and within the
limits of the format. -/
theorem sequences_unpack (h : AtBlock x s bs i) (hi : i ≤ x.length)
    (hz : sdefl_sequences x lvl s i = some z) :
    (z.s.seq.flatMap (sdefl_seq_tokens x)).foldl Token.unpack (x.take i) =
        x.take (sdefl_blk_end x i) ∧
      ∀ t ∈ z.s.seq.flatMap (sdefl_seq_tokens x), TokenLive z.s.freqLit z.s.freqOff t := by
  obtain ⟨hinv, hend, hlit⟩ := sequences_some h hi hz
  have hspell := hinv.spells
  rw [hlit, Nat.sub_zero, hend] at hspell
  exact ⟨hspell.unpack, hinv.live⟩

/-- Ten letters, of which six repeat what stands three in front of them. -/
theorem sequences_unpack_ten : ∃ z,
    sdefl_sequences [7, 8, 9, 7, 8, 9, 7, 8, 9, 10] 5 sdefl_start 0 = some z ∧
    z.s.seq = [⟨0, 3⟩, ⟨-3, 6⟩, ⟨9, 1⟩] ∧
    (z.s.seq.flatMap (sdefl_seq_tokens [7, 8, 9, 7, 8, 9, 7, 8, 9, 10])).foldl Token.unpack [] =
      [7, 8, 9, 7, 8, 9, 7, 8, 9, 10] ∧
    ∀ t ∈ z.s.seq.flatMap (sdefl_seq_tokens [7, 8, 9, 7, 8, 9, 7, 8, 9, 10]),
      TokenLive z.s.freqLit z.s.freqOff t := by
  have hmap : (sdefl_sequences [7, 8, 9, 7, 8, 9, 7, 8, 9, 10] 5 sdefl_start 0).map
      (fun z => z.s.seq) = some [⟨0, 3⟩, ⟨-3, 6⟩, ⟨9, 1⟩] := by decide +kernel
  obtain ⟨z, hz, hseq⟩ := Option.map_eq_some_iff.mp hmap
  obtain ⟨hunpack, hlive⟩ := sequences_unpack (start_atBlock _) (Nat.zero_le _) hz
  exact ⟨z, hz, hseq, hunpack, hlive⟩

/-- **The cost of a block is what it takes.** The encoder chooses between two forms of a block by
comparing costs; with codes of its own the block takes exactly the cost counted and its header of
three bits, and as it is no more than the cost counted for that and two bits. -/
theorem block_cost_exact (h : AtBlock x s bs i) (hi : i ≤ x.length)
    (hz : sdefl_sequences x lvl s i = some z) (last : Bool) :
    let e := sdefl_block_codes z.s
    ∃ w B, sdefl_block x e last i (sdefl_blk_end x i) = some w ∧ Writes w (bs ++ B) ∧
      (sdefl_kind e (sdefl_blk_end x i - i) = .dyn →
        B.length = 3 + sdefl_dyn_cost e (sdefl_item_cnt (sdefl_pre_code e).1)
          (pakka_sdefl_precode e.cod.litLen e.cod.offLen).2.freqs (sdefl_pre_code e).1) ∧
      (sdefl_kind e (sdefl_blk_end x i - i) = .ucompr →
        B.length ≤ 2 + sdefl_fix_cost (sdefl_blk_end x i - i)) := by
  obtain ⟨hinv, hend, hlit⟩ := sequences_some h hi hz
  obtain ⟨hw, hcode, hspell, hlive, hcount⟩ := coded_block h.writes hinv hlit
  rw [hend] at hspell
  generalize sdefl_block_codes z.s = e at hw hcode hspell hlive hcount
  dsimp only
  rcases hkind : sdefl_kind e (sdefl_blk_end x i - i) with _ | _
  · obtain ⟨w, B, hput, hwrites, hroom, -, -⟩ := block_spec last hw hcode hspell hlive hcount
    exact ⟨w, B, hput, hwrites, fun hdyn => absurd hdyn (by simp), fun _ => hroom⟩
  · obtain ⟨w, hput, hwrites⟩ := hw.dynamic hcode (head_parts hcode) x last hlive
    refine ⟨w, _, ?_, hwrites, fun _ => dyn_cost_spec hcode hcount hlive last,
      fun hraw => absurd hraw (by simp)⟩
    rw [block_eq, hkind]
    exact hput

/-- The block of 320 equal letters has codes of its own, and takes what was counted. -/
theorem block_cost_exact_equal : ∃ z w B, sdefl_sequences equal_letters 5 sdefl_start 0 = some z ∧
    sdefl_kind (sdefl_block_codes z.s) 320 = .dyn ∧
    sdefl_block equal_letters (sdefl_block_codes z.s) true 0 320 = some w ∧ Writes w ([] ++ B) ∧
    B.length = 3 + sdefl_dyn_cost (sdefl_block_codes z.s)
      (sdefl_item_cnt (sdefl_pre_code (sdefl_block_codes z.s)).1)
      (pakka_sdefl_precode (sdefl_block_codes z.s).cod.litLen
        (sdefl_block_codes z.s).cod.offLen).2.freqs
      (sdefl_pre_code (sdefl_block_codes z.s)).1 := by
  obtain ⟨z, hz, hseq⟩ := Option.map_eq_some_iff.mp equal_letters_seq
  have hdyn := equal_letters_dyn hz hseq
  have hlen := length_equal_letters
  have hcosts := block_cost_exact (start_atBlock equal_letters) (Nat.zero_le _) hz true
  rw [short_blk_end (by omega), hlen] at hcosts
  obtain ⟨w, B, hput, hwrites, hcost, -⟩ := hcosts
  exact ⟨z, w, B, hz, hdyn, hput, hwrites, hcost hdyn⟩

end Blocks

end Pakka
