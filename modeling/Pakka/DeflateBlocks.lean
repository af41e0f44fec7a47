/-
Block after block.

A stretch of the stream inflates to a part of the text: wherever it stands in a stream, on top of
the text in front, the decoder gets as far as the end of the part, in fewer rounds than there are
bits. This is `Inflates`, and it is the form in which the whole round trip is composed: stretches
put one behind the other inflate to the parts put together.

A block with codes of its own is such a stretch, if every literal with the copy behind it fits in
what a refill promises. So is a run of stored chunks, if the decoder's promise at each of them is
not more than what is left of the stream. The decoder finds a stored chunk by counting back from the
bits it was promised; near the end of the input a refill promises bits that are not there, and then
it would count back too far. A chunk of three bytes or more is always far enough from the end.

What stands in the buffer of the decoder at a stretch is known to the byte, so the lemmas speak of
`sinfl_known` output throughout.
-/
import Pakka.SdeflLz

set_option autoImplicit false

namespace Pakka

open Cells BitString ByteImage Lz77 Function

/-! ## Stretches of the stream

A stretch is quantified over the stream it stands in, the state of the decoder and its tables, so
that composing two of them needs nothing but the two.
-/

/-- The bits `B`, put when `pos` bits are there, inflate to the text from `p` on up to `q`. -/
def Inflates (x : Bytes) (p q : ℕ) (last : Bool) (pos : ℕ) (B : List Bool) : Prop :=
  ∃ k, k ≤ B.length ∧ ∀ (inp : Bytes) (s : Sinfl) (t : SinflTables) (rest : List Bool) (cap fuel : ℕ),
    Reading inp s (B ++ rest) → 8 ∣ pos + B.length + rest.length → q ≤ cap →
      ∃ s' t', Reading inp s' rest ∧ sinfl_blocks inp cap (fuel + k) s t (sinfl_known (x.take p)) =
        if last then some (some (sinfl_known (x.take q)))
        else sinfl_blocks inp cap fuel s' t' (sinfl_known (x.take q))

section Stretches

variable {x : Bytes} {p q r pos : ℕ} {last : Bool} {B C : List Bool}

theorem inflates_nil (x : Bytes) (p pos : ℕ) : Inflates x p p false pos [] :=
  ⟨0, le_rfl, fun _ s t _ _ _ hread _ _ => ⟨s, t, hread, rfl⟩⟩

/-- **Stretches compose.** -/
theorem Inflates.append (h : Inflates x p q false pos B)
    (h' : Inflates x q r last (pos + B.length) C) (hqr : q ≤ r) :
    Inflates x p r last pos (B ++ C) := by
  obtain ⟨k, hk, hfirst⟩ := h
  obtain ⟨k', hk', hsecond⟩ := h'
  refine ⟨k' + k, by rw [List.length_append]; omega, fun inp s t rest cap fuel hread hdvd hcap => ?_⟩
  rw [List.append_assoc] at hread
  rw [List.length_append, ← Nat.add_assoc] at hdvd
  obtain ⟨s₁, t₁, hread₁, hrun₁⟩ := hfirst inp s t (C ++ rest) cap (fuel + k') hread
    (by rw [List.length_append]; omega) (by omega)
  obtain ⟨s₂, t₂, hread₂, hrun₂⟩ := hsecond inp s₁ t₁ rest cap fuel hread₁ hdvd hcap
  refine ⟨s₂, t₂, hread₂, ?_⟩
  rw [← Nat.add_assoc, hrun₁, if_neg Bool.false_ne_true, hrun₂]

end Stretches

/-! ## The header of a block

Three bits, taken after a refill. How many bits are promised behind them matters to the stored
block.
-/

section Header

variable {inp : Bytes} {s : Sinfl} {rest : List Bool} {last : Bool} {type : ℕ}

/-- The first three bits of a block. -/
theorem blocks_head (hread : Reading inp s (ofNat last.toNat 1 ++ (ofNat type 2 ++ rest)))
    (htype : type < 4) :
    ∃ s', Reading inp s' rest ∧ (53 ≤ s'.bitcnt ∧ s'.bitcnt ≤ 60) ∧
      (56 ≤ 3 + rest.length → s'.bitcnt ≤ rest.length) ∧
      ∀ cap fuel t out, sinfl_blocks inp cap (fuel + 1) s t out =
        (sinfl_block inp cap type s' t out).bind fun r => match r with
          | .ret out => some (some out)
          | .full => some none
          | .go (s, t, out) => if last then some (some out)
            else sinfl_blocks inp cap fuel s t out := by
  obtain ⟨hread₁, hcnt₁⟩ := hread.refill
  have hreal := hread₁.real
  have hle := hread₁.cnt_le
  simp only [List.length_append, length_ofNat] at hreal
  obtain ⟨s₂, hget₂, hread₂, hcnt₂⟩ := hread₁.get (show last.toNat < 2 ^ 1 from Bool.toNat_lt last)
    (by omega) (by decide)
  obtain ⟨s₃, hget₃, hread₃, hcnt₃⟩ := hread₂.get (show type < 2 ^ 2 from htype)
    (by omega) (by decide)
  refine ⟨s₃, hread₃, ⟨by omega, by omega⟩, fun hlen => ?_, fun cap fuel t out => ?_⟩
  · have := hreal (by omega)
    omega
  · rw [sinfl_blocks, hget₂]
    show (pakka_sinfl__get s₂ 2).bind _ = _
    rw [hget₃]
    show (sinfl_block inp cap type s₃ t out).bind _ = _
    congr 1
    funext r
    cases r with
    | ret out => rfl
    | full => rfl
    | go a => cases last <;> rfl

end Header

/-! ## Stored chunks

The padding depends on how many bits the encoder has put, and the decoder's count agrees with it by
eight. Both are carried through here.
-/

/-- The bits of a stored chunk, with `k` bits up to the next byte. -/
def sdefl_chunk_bits (last : Bool) (k : ℕ) (chunk : Bytes) : List Bool :=
  ofNat last.toNat 1 ++ (ofNat 0 2 ++ (ofNat 0 k ++
    (ofNat chunk.length 16 ++ (ofNat (0xffff - chunk.length) 16 ++ ofBytes chunk))))

section Chunk

variable {inp : Bytes} {last : Bool} {k : ℕ} {chunk : Bytes}

theorem length_chunk_bits : (sdefl_chunk_bits last k chunk).length =
    3 + k + 32 + 8 * chunk.length := by
  simp only [sdefl_chunk_bits, List.length_append, length_ofNat, length_ofBytes]
  omega

/-- The bytes of a chunk, counted back from the promise. -/
theorem stored_spec {s : Sinfl} {rest : List Bool} {cap : ℕ} {out : Written}
    (hread : Reading inp s (ofNat 0 k ++
      (ofNat chunk.length 16 ++ (ofNat (0xffff - chunk.length) 16 ++ (ofBytes chunk ++ rest)))))
    (hk : k < 8) (hdvd : 8 ∣ rest.length) (hlen : chunk.length ≤ 65535) (hcnt : 53 ≤ s.bitcnt)
    (hreal : s.bitcnt ≤ k + 32 + 8 * chunk.length + rest.length)
    (hcap : out.length + chunk.length ≤ cap) :
    ∃ s', sinfl_stored inp cap s out = some (.go (s', out ++ sinfl_known chunk)) ∧
      Reading inp s' rest := by
  have hpad : s.bitcnt &&& 7 = k := by
    have hbehind := hread.behind
    simp only [List.length_append, length_ofNat, length_ofBytes] at hbehind
    rw [show (7 : ℕ) = 2 ^ 3 - 1 from rfl, Nat.and_two_pow_sub_one_eq_mod]
    omega
  obtain ⟨s₁, hget₁, hread₁, hcnt₁⟩ := hread.get (Nat.two_pow_pos k) (by omega) (by omega)
  obtain ⟨s₂, hget₂, hread₂, hcnt₂⟩ := hread₁.get (show chunk.length < 2 ^ 16 by omega)
    (by omega) (by decide)
  obtain ⟨s₃, hget₃, hread₃, hcnt₃⟩ := hread₂.get (show 0xffff - chunk.length < 2 ^ 16 by omega)
    (by omega) (by decide)
  have hbehind := hread₃.behind
  have hptr := hread₃.ptr_le
  have hsuf := hread₃.suffix
  have hle := hread.suffix.length_le
  simp only [List.length_append, length_ofNat, length_ofBytes] at hbehind hle
  obtain ⟨n, hn⟩ := hdvd
  -- what is left when the promise is given back
  have hback : s₃.bitptr - s₃.bitcnt / 8 = inp.length - (chunk.length + n) := by omega
  have hfits : s₃.bitcnt / 8 ≤ s₃.bitptr := by omega
  have hbytes : ofBytes (inp.drop (inp.length - (chunk.length + n))) = ofBytes chunk ++ rest :=
    (eq_ofBytes_drop hsuf (by rw [List.length_append, length_ofBytes]; omega)).symm
  have hchunk : (inp.drop (inp.length - (chunk.length + n))).take chunk.length = chunk ∧
      rest = ofBytes (inp.drop (inp.length - (chunk.length + n) + chunk.length)) := by
    rw [← List.take_append_drop chunk.length (inp.drop (inp.length - (chunk.length + n))),
      ofBytes_append] at hbytes
    obtain ⟨htake, hdrop⟩ := List.append_inj hbytes (by
      rw [length_ofBytes, length_ofBytes, List.length_take, List.length_drop]
      omega)
    exact ⟨ofBytes_inj htake, by rw [← hdrop, List.drop_drop]⟩
  refine ⟨⟨inp.length - (chunk.length + n) + chunk.length, 0, 0⟩, ?_, ?_⟩
  · rw [sinfl_stored, hpad, hget₁]
    show (pakka_sinfl__get s₁ 16).bind _ = _
    rw [hget₂]
    show (pakka_sinfl__get s₂ 16).bind _ = _
    rw [hget₃]
    dsimp only [Option.bind_some]
    rw [if_neg (show ¬ s₃.bitcnt / 8 > s₃.bitptr by omega), hback,
      if_neg (show ¬ chunk.length ≠ 0xffff - (0xffff - chunk.length) by omega)]
    show (if chunk.length > inp.length - (inp.length - (chunk.length + n)) then _ else
      if out.length + chunk.length > cap then _ else some (SinflOut.go
        ((⟨inp.length - (chunk.length + n) + chunk.length, 0, 0⟩ : Sinfl),
          out ++ sinfl_known ((inp.drop (inp.length - (chunk.length + n))).take chunk.length)))) = _
    rw [if_neg (by omega), if_neg (by omega), hchunk.1]
  · refine ⟨?_, fun j hj => absurd hj (Nat.not_lt_zero j), fun j hj => ?_, Nat.zero_le _, ?_, ?_,
      fun _ => Nat.zero_le _, fun _ => ?_⟩
    · exact (List.suffix_append _ _).trans hsuf
    · rw [Nat.zero_testBit] at hj
      exact absurd hj Bool.false_ne_true
    · dsimp only
      omega
    · dsimp only
      omega
    · dsimp only
      omega

/-- **A stored chunk.** -/
theorem chunk_inflates {x : Bytes} {p pos : ℕ} (hk : k < 8) (hdvd : 8 ∣ pos + 3 + k)
    (hchunk : chunk = (x.drop p).take chunk.length) (hroom : p + chunk.length ≤ x.length)
    (hlen : chunk.length ≤ 65535) (hthree : 3 ≤ chunk.length) :
    Inflates x p (p + chunk.length) last pos (sdefl_chunk_bits last k chunk) := by
  refine ⟨1, by rw [length_chunk_bits]; omega, fun inp s t rest cap fuel hread hdvd' hcap => ?_⟩
  rw [length_chunk_bits] at hdvd'
  rw [sdefl_chunk_bits] at hread
  simp only [List.append_assoc] at hread
  obtain ⟨s₁, hread₁, hcnt₁, hreal₁, hblocks⟩ := blocks_head hread (by decide)
  simp only [List.length_append, length_ofNat, length_ofBytes] at hreal₁
  have hp : (sinfl_known (x.take p)).length = p := by
    rw [length_known, List.length_take_of_le (by omega)]
  obtain ⟨s', hstored, hread'⟩ := stored_spec hread₁ hk (by omega) hlen hcnt₁.1
    (by have := hreal₁ (by omega); omega)
    (show (sinfl_known (x.take p)).length + chunk.length ≤ cap by omega)
  have hall : sinfl_known (x.take p) ++ sinfl_known chunk =
      sinfl_known (x.take (p + chunk.length)) := by
    rw [← known_append, List.take_add, ← hchunk]
  rw [hall] at hstored
  refine ⟨s', t, hread', ?_⟩
  rw [hblocks, sinfl_block, if_pos rfl, hstored]
  rfl

/-- Putting a stored chunk. -/
theorem Writes.stored {w : SdeflBits} {bs : List Bool} (hw : Writes w bs) (inp : Bytes) (fin : Bool)
    {at_ amount : ℕ} (hroom : at_ + amount ≤ inp.length) :
    ∃ w' k, sdefl_put_stored inp w fin at_ amount = some w' ∧ k < 8 ∧ 8 ∣ bs.length + 3 + k ∧
      Writes w' (bs ++ sdefl_chunk_bits fin k ((inp.drop at_).take amount)) := by
  have hlen : ((inp.drop at_).take amount).length = amount := by
    rw [List.length_take, List.length_drop]
    omega
  have h1 := hw.put (show fin.toNat < 2 ^ 1 from Bool.toNat_lt fin)
  have h2 := h1.put (show 0 < 2 ^ 2 by decide)
  obtain ⟨h0, k, hk, hdvd, h3⟩ := h2.pad
  rw [sdefl_put_stored]
  dsimp only
  generalize (if (pakka_sdefl_put (pakka_sdefl_put w fin.toNat 1) 0 2).bitcnt ≠ 0 then
    pakka_sdefl_put (pakka_sdefl_put (pakka_sdefl_put w fin.toNat 1) 0 2) 0
      (8 - (pakka_sdefl_put (pakka_sdefl_put w fin.toNat 1) 0 2).bitcnt)
    else pakka_sdefl_put (pakka_sdefl_put w fin.toNat 1) 0 2) = w₃ at h0 h3 ⊢
  rw [if_neg (by omega)]
  obtain ⟨h4, h04⟩ := h3.put16 h0 amount
  obtain ⟨h5, h05⟩ := h4.put16 h04 (0xffff - amount)
  have h6 := h5.bytes h05 ((inp.drop at_).take amount)
  simp only [List.length_append, length_ofNat] at hdvd
  refine ⟨_, k, rfl, hk, by omega, ?_⟩
  rw [sdefl_chunk_bits, hlen]
  simp only [List.append_assoc] at h6
  rw [← ofNat_of_zero] at h6
  exact h6

end Chunk

/-! ## Stored blocks

The encoder cuts a block into chunks of 65535 bytes. Only the last chunk of the last block can be
near the end of the input.
-/

/-- **A block as it is.** Each round puts a chunk; the decoder wants three bytes in the last of
them. -/
theorem ucompr_spec {w : SdeflBits} {bs : List Bool} (inp : Bytes) (is_last : Bool)
    {blk_begin n k p left : ℕ} (hw : Writes w bs) (hk : k ≤ n) (hleft : k = (left + 65534) / 65535)
    (hp : 0 < k → p = blk_begin + (n - k) * 65535) (hend : p + left ≤ inp.length) :
    ∃ w' B, sdefl_ucompr inp is_last blk_begin n k left w = some w' ∧ Writes w' (bs ++ B) ∧
      (B.length ≤ 40 * k + 8 * left + 2 ∧ (8 ∣ bs.length → B.length ≤ 40 * k + 8 * left)) ∧
      ((0 < left → 3 ≤ (left - 1) % 65535 + 1) →
        Inflates inp p (p + left) (is_last && decide (0 < k)) bs.length B) := by
  induction k generalizing w bs p left with
  | zero =>
    obtain rfl : left = 0 := by omega
    refine ⟨w, [], rfl, by rwa [List.append_nil], ⟨Nat.zero_le _, fun _ => Nat.zero_le _⟩,
      fun _ => ?_⟩
    rw [decide_eq_false (Nat.lt_irrefl 0), Bool.and_false]
    exact inflates_nil _ _ _
  | succ k ih =>
    obtain ⟨amount, hamount, hle, hmax, hmin⟩ : ∃ a, a = (if left < PAKKA_SDEFL_RAW_BLK_SIZE then left
        else PAKKA_SDEFL_RAW_BLK_SIZE) ∧ a ≤ left ∧ a ≤ 65535 ∧
          (left < 65535 ∧ a = left ∨ a = 65535) := by
      refine ⟨_, rfl, ?_⟩
      dsimp only [PAKKA_SDEFL_RAW_BLK_SIZE]
      split_ifs <;> omega
    rw [sdefl_ucompr, ← hamount, ← hp (Nat.succ_pos k)]
    -- only the last chunk of the last block ends the stream
    have hlast : (is_last && decide (n - (k + 1) + 1 = n)) = (is_last && !decide (0 < k)) := by
      congr 1
      -- a chunk with others behind it is full, so the next one starts where the source says
      by_cases hk0 : 0 < k
      · rw [decide_eq_true hk0, decide_eq_false (by omega)]
        rfl
      · rw [decide_eq_false hk0, decide_eq_true (by omega)]
        rfl
    rw [hlast]
    obtain ⟨w₁, pad, hput, hpad, hdvd, hw₁⟩ := hw.stored inp (is_last && !decide (0 < k))
      (show p + amount ≤ inp.length by omega)
    rw [hput]
    have hlen : ((inp.drop p).take amount).length = amount := by
      rw [List.length_take, List.length_drop]
      omega
    have hchunk (h3 : 3 ≤ amount) :
        Inflates inp p (p + ((inp.drop p).take amount).length) (is_last && !decide (0 < k)) bs.length
          (sdefl_chunk_bits (is_last && !decide (0 < k)) pad ((inp.drop p).take amount)) :=
      chunk_inflates hpad hdvd (by rw [hlen]) (by omega) (by omega) (by omega)
    rw [hlen] at hchunk
    rw [decide_eq_true (Nat.succ_pos k), Bool.and_true]
    by_cases hk0 : 0 < k
    · rw [decide_eq_true hk0, Bool.not_true, Bool.and_false] at hchunk hw₁
      have hnext : p + amount = blk_begin + (n - k) * 65535 := by
        rw [hp (Nat.succ_pos k), show n - k = n - (k + 1) + 1 by omega]
        omega
      obtain ⟨w', B, hrest, hw', ⟨-, hroom⟩, hinf⟩ := ih hw₁ (by omega)
        (show k = (left - amount + 65534) / 65535 by omega) (fun _ => hnext) (by omega)
      rw [List.append_assoc] at hw'
      rw [show p + amount + (left - amount) = p + left by omega, List.length_append,
        decide_eq_true hk0, Bool.and_true] at hinf
      rw [List.length_append, length_chunk_bits, hlen] at hroom
      refine ⟨w', _, hrest, hw', ?_, fun hthree =>
        (hchunk (by omega)).append (hinf (by omega)) (by omega)⟩
      rw [List.length_append, length_chunk_bits, hlen]
      have hrest' := hroom (by omega)
      exact ⟨by omega, by omega⟩
    · obtain rfl : k = 0 := by omega
      obtain rfl : amount = left := by omega
      rw [decide_eq_false hk0, Bool.not_false, Bool.and_true] at hchunk hw₁
      refine ⟨w₁, _, rfl, hw₁, ?_, fun hthree => hchunk (by omega)⟩
      rw [length_chunk_bits, hlen]
      exact ⟨by omega, by omega⟩

/-! ## Blocks with codes of their own

The head, the body and the end of the block, each from its own module, put together.
-/

section Dynamic

variable {cod : SdeflCod} {freqLit freqOff items lens codes : List ℕ} {symcnt : SdeflSymcnt}
  {inp : Bytes} {last : Bool}

/-- The bits of a block with codes of its own. -/
def sdefl_dyn_bits (last : Bool) (cod : SdeflCod) (symcnt : SdeflSymcnt) (items lens codes : List ℕ)
    (ts : List (Token UInt8)) : List Bool :=
  ofNat last.toNat 1 ++ (ofNat 2 2 ++
    (sdefl_head_bits symcnt items lens codes ++ sdefl_body_bits cod ts))

/-- **A block with codes of its own.** -/
theorem dyn_inflates {p q pos : ℕ} {ts : List (Token UInt8)} (hcode : BlockCode cod freqLit freqOff)
    (hparts : HeadParts cod symcnt items lens codes) (hspell : Spells inp p ts q)
    (hlive : ∀ t ∈ ts, TokenLive freqLit freqOff t) (hbudget : Budget cod ts) :
    Inflates inp p q last pos (sdefl_dyn_bits last cod symcnt items lens codes ts) := by
  refine ⟨1, ?_, fun y s t rest cap fuel hread _ hcap => ?_⟩
  · rw [sdefl_dyn_bits, List.length_append, length_ofNat]
    omega
  rw [sdefl_dyn_bits] at hread
  simp only [List.append_assoc] at hread
  obtain ⟨s₁, hread₁, -, -, hblocks⟩ := blocks_head hread (by decide)
  obtain ⟨s₂, t', hdyn, hread₂, hlits, hdsts⟩ := dyn_spec hcode hparts hread₁ t
  obtain ⟨s₃, hblk, hread₃⟩ := blk_spec hcode ⟨hlits, hdsts⟩ ts.length le_rfl (cap + 1) hread₂ hspell
    hlive hbudget hcap (by omega)
  refine ⟨s₃, t', hread₃, ?_⟩
  rw [hblocks, sinfl_block, if_neg (by decide), if_neg (by decide), if_pos rfl, hdyn]
  show ((sinfl_blk y cap t' (cap + 1) s₂ (sinfl_known (inp.take p))).map _).bind _ = _
  rw [hblk]
  rfl

/-- Putting a block with codes of its own. -/
theorem Writes.dynamic {s : Sdefl} {bs : List Bool} (hw : Writes s.w bs)
    (hcode : BlockCode s.cod freqLit freqOff) (hparts : HeadParts s.cod symcnt items lens codes)
    (inp : Bytes) (is_last : Bool)
    (hlive : ∀ t ∈ s.seq.flatMap (sdefl_seq_tokens inp), TokenLive freqLit freqOff t) :
    ∃ w', sdefl_dynamic inp s is_last symcnt items codes lens (sdefl_item_cnt lens) = some w' ∧
      Writes w' (bs ++ sdefl_dyn_bits is_last s.cod symcnt items lens codes
        (s.seq.flatMap (sdefl_seq_tokens inp))) := by
  have h1 := hw.put (show is_last.toNat < 2 ^ 1 from Bool.toNat_lt is_last)
  have h2 := (h1.put (show 2 < 2 ^ 2 by decide)).head hparts
  obtain ⟨w₃, hseqs, h3⟩ := h2.seqs hcode inp hlive
  have h4 := h3.put (hcode.lit.word_lt (show 256 < 288 by decide) hcode.eob)
  refine ⟨pakka_sdefl_put w₃ (read s.cod.litWord 256) (read s.cod.litLen 256), ?_, ?_⟩
  · rw [sdefl_dynamic]
    show (s.seq.foldlM (sdefl_put_seq inp s.cod) _).bind _ = _
    rw [hseqs]
    rfl
  · rw [sdefl_dyn_bits, sdefl_body_bits]
    simp only [List.append_assoc] at h4
    exact h4

end Dynamic

end Pakka
