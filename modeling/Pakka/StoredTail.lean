/-
The last bytes of a stream.

A refill promises 56 bits also where fewer are left. A stored chunk is found by counting back from
the promise, so a last chunk of one byte, or of two behind a short padding, is looked for too far in
front: the decoder takes bytes of its length field for it.

Such a block is well formed, and an encoder may end a stream with one. Which of these streams the
decoder gets right is an exact condition, and for a stream that is one stored block the condition is
about its only byte (`stored_stream_iff`).
-/
import Pakka.DeflateRoundTrip
import Pakka.SinflCapacity

set_option autoImplicit false

namespace Pakka

open Cells BitString ByteImage Lz77

/-- What the decoder takes for a last chunk of one or two bytes behind `k` bits of padding: what
stands two or three bytes before the end of its length field and itself. -/
def sinfl_tail (k : ℕ) (chunk : Bytes) : Bytes :=
  ((UInt8.ofNat (0xff - chunk.length) :: 0xff :: chunk).drop
    (if k < 5 then chunk.length - 1 else chunk.length)).take chunk.length

section Tail

variable {inp : Bytes} {s : Sinfl} {k cap : ℕ} {chunk : Bytes} {out : Written}
  {last : Bool}

/-- **A last chunk of one or two bytes.** -/
theorem stored_tail (hread : Reading inp s (ofNat 0 k ++
      (ofNat chunk.length 16 ++ (ofNat (0xffff - chunk.length) 16 ++ ofBytes chunk))))
    (hk : k < 8) (hpos : 0 < chunk.length) (hle : chunk.length ≤ 2) (hcnt : 53 ≤ s.bitcnt)
    (hcnt' : s.bitcnt ≤ 60) (hcap : out.length + chunk.length ≤ cap) :
    ∃ s', sinfl_stored inp cap s out = some (.go (s', out ++ sinfl_known (sinfl_tail k chunk))) := by
  have halign := hread.align
  simp only [List.length_append, length_ofNat, length_ofBytes] at halign
  have hpad : s.bitcnt &&& 7 = k := by
    rw [show (7 : ℕ) = 2 ^ 3 - 1 from rfl, Nat.and_two_pow_sub_one_eq_mod]
    have := halign (by omega)
    omega
  have hmod := halign (by omega)
  obtain ⟨s₁, hget₁, hread₁, hcnt₁⟩ := hread.get (Nat.two_pow_pos k) (by omega) (by omega)
  obtain ⟨s₂, hget₂, hread₂, hcnt₂⟩ := hread₁.get (show chunk.length < 2 ^ 16 by omega)
    (by omega) (by decide)
  obtain ⟨s₃, hget₃, hread₃, hcnt₃⟩ := hread₂.get (show 0xffff - chunk.length < 2 ^ 16 by omega)
    (by omega) (by decide)
  have hbehind := hread₃.behind
  have hptr := hread₃.ptr_le
  have hsuf := hread₂.suffix
  have hroom := hsuf.length_le
  simp only [List.length_append, length_ofNat, length_ofBytes] at hbehind hroom
  -- the length field ends right before the chunk
  have hfield : ofNat (0xffff - chunk.length) 16 ++ ofBytes chunk =
      ofBytes (UInt8.ofNat (0xff - chunk.length) :: 0xff :: chunk) := by
    rcases (by omega : chunk.length = 1 ∨ chunk.length = 2) with h | h <;> rw [h] <;> rfl
  have hend : inp.drop (inp.length - (chunk.length + 2)) =
      UInt8.ofNat (0xff - chunk.length) :: 0xff :: chunk := by
    apply ofBytes_inj
    rw [← hfield]
    exact (eq_ofBytes_drop hsuf (by
      rw [List.length_append, length_ofNat, length_ofBytes]
      omega)).symm
  have hback : s₃.bitptr - s₃.bitcnt / 8 = inp.length - (chunk.length + 2) +
      (if k < 5 then chunk.length - 1 else chunk.length) := by
    split_ifs <;> omega
  have hmore : chunk.length ≤ inp.length - (s₃.bitptr - s₃.bitcnt / 8) := by
    rw [hback]
    split_ifs <;> omega
  refine ⟨⟨s₃.bitptr - s₃.bitcnt / 8 + chunk.length, 0, 0⟩, ?_⟩
  rw [sinfl_stored, hpad, hget₁]
  show (pakka_sinfl__get s₁ 16).bind _ = _
  rw [hget₂]
  show (pakka_sinfl__get s₂ 16).bind _ = _
  rw [hget₃]
  dsimp only [Option.bind_some]
  rw [if_neg (show ¬ s₃.bitcnt / 8 > s₃.bitptr by omega),
    if_neg (show ¬ chunk.length ≠ 0xffff - (0xffff - chunk.length) by omega)]
  show (if chunk.length > inp.length - (s₃.bitptr - s₃.bitcnt / 8) then _ else
    if out.length + chunk.length > cap then _ else some (SinflOut.go
      ((⟨s₃.bitptr - s₃.bitcnt / 8 + chunk.length, 0, 0⟩ : Sinfl),
        out ++ sinfl_known ((inp.drop (s₃.bitptr - s₃.bitcnt / 8)).take chunk.length)))) = _
  rw [if_neg (by omega), if_neg (by omega), sinfl_tail, ← hend, List.drop_drop, ← hback]

/-- A block that is such a chunk ends the output with what is taken for it. -/
theorem tail_blocks (hread : Reading inp s (sdefl_chunk_bits true k chunk)) (hk : k < 8)
    (hpos : 0 < chunk.length) (hle : chunk.length ≤ 2) (hcap : out.length + chunk.length ≤ cap)
    (fuel : ℕ) (t : SinflTables) :
    sinfl_blocks inp cap (fuel + 1) s t out =
      some (some (out ++ sinfl_known (sinfl_tail k chunk))) := by
  rw [sdefl_chunk_bits] at hread
  obtain ⟨s₁, hread₁, hcnt₁, -, hblocks⟩ := blocks_head hread (by decide)
  obtain ⟨s₂, hstored⟩ := stored_tail hread₁ hk hpos hle hcnt₁.1 hcnt₁.2 hcap
  rw [hblocks, sinfl_block, if_pos rfl, hstored]
  rfl

end Tail

/-- One final block, stored. -/
def stored_stream (b : Bytes) : Bytes :=
  1 :: ([UInt8.ofNat (b.length &&& 0xff), UInt8.ofNat (b.length >>> 8)] ++
    ([UInt8.ofNat ((0xffff - b.length) &&& 0xff), UInt8.ofNat ((0xffff - b.length) >>> 8)] ++ b))

theorem stored_stream_bits (b : Bytes) : ofBytes (stored_stream b) = sdefl_chunk_bits true 5 b := by
  rw [stored_stream, ofBytes_cons, ofBytes_append, ofBytes_append, ofBytes_pair, ofBytes_pair,
    sdefl_chunk_bits]
  rfl

/-- **A stored stream is decoded to its bytes** if and only if it is not one byte other than 255. -/
theorem stored_stream_iff {b : Bytes} {cap : ℕ} (hlen : b.length ≤ 65535) (hcap : b.length ≤ cap) :
    pakka_sinflate cap (stored_stream b) = some (some (sinfl_known b)) ↔
      (b.length = 1 → b = [0xff]) := by
  have hread := reading_start (stored_stream b)
  rw [stored_stream_bits] at hread
  rw [pakka_sinflate, pakka_sinfl_decompress]
  rcases Nat.lt_or_ge b.length 3 with hshort | hlong
  · rcases Nat.eq_zero_or_pos b.length with h0 | hpos
    · obtain rfl := List.eq_nil_of_length_eq_zero h0
      have hempty : sinfl_blocks (stored_stream []) 0 41 ⟨0, 0, 0⟩ ⟨[], []⟩ [] = some (some []) := by
        decide
      have h := blocks_limit cap _ (left_start _) (Nat.zero_le _) (Nat.zero_le _) hempty
      exact ⟨fun _ h1 => absurd h1 (by decide), fun _ => h⟩
    · rw [tail_blocks hread (by decide) hpos (by omega) (by simpa using hcap)]
      rcases b with _ | ⟨b₁, _ | ⟨b₂, b⟩⟩
      · exact absurd hpos (by decide)
      · exact ⟨fun h _ => (known_inj.mp (Option.some_inj.mp (Option.some_inj.mp h))).symm,
          fun h => by rw [h rfl]; rfl⟩
      · obtain rfl : b = [] := by
          rw [List.length_cons, List.length_cons] at hshort
          exact List.eq_nil_of_length_eq_zero (by omega)
        exact ⟨fun _ h1 => absurd h1 (by simp), fun _ => rfl⟩
  · refine ⟨fun _ h1 => by omega, fun _ => ?_⟩
    have hchunk : Inflates b 0 (0 + b.length) true 0 (sdefl_chunk_bits true 5 b) :=
      chunk_inflates (by decide) (by decide) (List.take_length).symm (by omega) hlen hlong
    obtain ⟨k, hk, hrun⟩ := hchunk
    have hfuel := length_ofBytes (stored_stream b)
    rw [stored_stream_bits] at hfuel
    obtain ⟨s', t', -, hblocks⟩ := hrun (stored_stream b) ⟨0, 0, 0⟩ ⟨[], []⟩ [] cap
      (8 * (stored_stream b).length + 1 - k) (by rwa [List.append_nil])
      (by rw [hfuel, List.length_nil]; omega) (by omega)
    rw [Nat.sub_add_cancel (by omega), if_pos rfl, Nat.zero_add, List.take_length,
      List.take_zero] at hblocks
    exact hblocks

/-- One byte is misread. -/
theorem stored_stream_one :
    pakka_sinflate 1 (stored_stream [7]) ≠ some (some (sinfl_known [7])) := fun h =>
  absurd ((stored_stream_iff (by decide) (by decide)).mp h rfl) (by decide)

end Pakka
