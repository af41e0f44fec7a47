/-
The Daikatana byte codec, `dk_codec.c`: the whole-buffer decoder and the greedy
encoder.

Both are loops over an index. The decoder carries the input still to be read and
the bytes produced so far; the encoder carries its four locals. Each `while` is a
recursion on a count of the iterations that can still happen, and the count each
loop starts with is one it cannot use up before its own condition fails
(`dk_inflate_loop_fuel` for the decoder, the run lemma of the encoder for the other).

The encoder is greedy: at each position it measures a run of zeros, a run of equal bytes and the
best match among the distances it can express, takes the one that `dk_choose` prefers, and leaves a
byte pending when none of them is long enough. In the choice a run of zeros counts double, as its
word is the shortest.
-/
import Pakka.Basic

set_option autoImplicit false

namespace Pakka

open ByteImage

/-! ## Decoder

A copy is made byte by byte, because a back reference may overlap what it produces. An output that
would exceed the capacity is an error before anything of it is written.
-/

/-- The byte-by-byte copy of a back reference: `n` times the byte `distance` back. -/
def dk_copy_back (distance : ℕ) : ℕ → Bytes → Bytes
  | 0, out => out
  | n + 1, out => dk_copy_back distance n (out ++ [out.getD (out.length - distance) 0])

/-- The decoding loop: `inp` is the unread input, `out` what was produced. -/
def dk_inflate_loop (out_len : ℕ) : ℕ → Bytes → Bytes → Except Status Bytes
  | 0, _, out => .ok out
  | _ + 1, [], out => .ok out
  | fuel + 1, b :: inp, out =>
    let opcode := b.toNat
    if opcode < 64 then
      let copy_len := opcode + 1
      if copy_len > inp.length then .error .format
      else if copy_len > out_len - out.length then .error .format
      else dk_inflate_loop out_len fuel (inp.drop copy_len) (out ++ inp.take copy_len)
    else if opcode < 128 then
      let copy_len := opcode - 62
      if copy_len > out_len - out.length then .error .format
      else dk_inflate_loop out_len fuel inp (out ++ List.replicate copy_len 0)
    else if opcode < 192 then
      match inp with
      | [] => .error .format
      | v :: inp =>
        let copy_len := opcode - 126
        if copy_len > out_len - out.length then .error .format
        else dk_inflate_loop out_len fuel inp (out ++ List.replicate copy_len v)
    else if opcode < 254 then
      match inp with
      | [] => .error .format
      | d :: inp =>
        let copy_len := opcode - 190
        let distance := d.toNat + 2
        if distance > out.length then .error .format
        else if copy_len > out_len - out.length then .error .format
        else dk_inflate_loop out_len fuel inp (dk_copy_back distance copy_len out)
    else if opcode = 254 then .error .format
    -- the terminator, trailing input is ignored
    else .ok out

/-- `pakka_dk_inflate`. The result is the output buffer. -/
def pakka_dk_inflate (inp : Bytes) (out_len : ℕ) : Except Status Bytes :=
  match dk_inflate_loop out_len inp.length inp [] with
  | .error s => .error s
  | .ok out => if out.length ≠ out_len then .error .format else .ok out

/-! ## Encoder

The limits are the macros of the source. A search stops at its limit or at the end of the input; a
match is taken only if it is longer than what was found before. Pending literals are flushed when
there are as many as an opcode can say, in front of a token, and at the end.
-/

abbrev DK_MAX_ZERO_RUN : ℕ := 64
abbrev DK_MAX_BYTE_RUN : ℕ := 64
abbrev DK_MAX_BACK_REF : ℕ := 62
abbrev DK_MAX_BACK_DIST : ℕ := 257
abbrev DK_MAX_LITERAL : ℕ := 64
abbrev DK_MIN_ZERO_RUN : ℕ := 2
abbrev DK_MIN_BYTE_RUN : ℕ := 3
abbrev DK_MIN_BACK_REF : ℕ := 3

/-- `while (len < max && p(len)) len++`, with `max - len` steps left. -/
def dk_extend (p : ℕ → Bool) : ℕ → ℕ → ℕ
  | 0, len => len
  | k + 1, len => if p len then dk_extend p k (len + 1) else len

def dk_count_zero_run (inp : Bytes) (i : ℕ) : ℕ :=
  let max := if inp.length - i > DK_MAX_ZERO_RUN then DK_MAX_ZERO_RUN else inp.length - i
  dk_extend (fun len => inp.getD (i + len) 0 = 0) max 0

def dk_count_byte_run (inp : Bytes) (i : ℕ) : ℕ :=
  if i ≥ inp.length then 0
  else
    let b := inp.getD i 0
    let max := if inp.length - i > DK_MAX_BYTE_RUN then DK_MAX_BYTE_RUN else inp.length - i
    dk_extend (fun len => inp.getD (i + len) 0 = b) (max - 1) 1

/-- The search over distances from `d` on, `k` of them left, with the best length and
distance so far. -/
def dk_find_match_loop (inp : Bytes) (i remaining : ℕ) : ℕ → ℕ → ℕ → ℕ → ℕ × ℕ
  | 0, _, best_len, best_dist => (best_len, best_dist)
  | k + 1, d, best_len, best_dist =>
    let cap := if d < DK_MAX_BACK_REF then d else DK_MAX_BACK_REF
    let per_d_cap := if cap > remaining then remaining else cap
    if per_d_cap < DK_MIN_BACK_REF then
      dk_find_match_loop inp i remaining k (d + 1) best_len best_dist
    else if inp.getD (i - d) 0 ≠ inp.getD i 0 then
      dk_find_match_loop inp i remaining k (d + 1) best_len best_dist
    else
      let len := dk_extend (fun len => inp.getD (i + len) 0 = inp.getD (i + len - d) 0)
        (per_d_cap - 1) 1
      if len > best_len then
        if len = DK_MAX_BACK_REF then (len, d)
        else dk_find_match_loop inp i remaining k (d + 1) len d
      else dk_find_match_loop inp i remaining k (d + 1) best_len best_dist

/-- `dk_find_match`: the length and the distance, which stays `0` (the caller's
initial value) when the length is `0`. -/
def dk_find_match (inp : Bytes) (i : ℕ) : ℕ × ℕ :=
  if i < 2 then (0, 0)
  else
    let max_d := if i < DK_MAX_BACK_DIST then i else DK_MAX_BACK_DIST
    let remaining := inp.length - i
    if remaining < DK_MIN_BACK_REF then (0, 0)
    else
      let best := dk_find_match_loop inp i remaining (max_d - 1) 2 0 0
      if best.1 < DK_MIN_BACK_REF then (0, 0) else best

/-- What the encoder decides to emit at a position. -/
inductive DkKind where
  | literal
  | zero_run
  | byte_run
  | back_ref
  deriving DecidableEq, Repr

/-- The choice at one position: the kind and how many bytes it takes. -/
def dk_choose (zlen rlen mlen : ℕ) : DkKind × ℕ :=
  let z_eff := if zlen ≥ DK_MIN_ZERO_RUN then zlen else 0
  let r_eff := if rlen ≥ DK_MIN_BYTE_RUN then rlen else 0
  let m_eff := if mlen ≥ DK_MIN_BACK_REF then mlen else 0
  if z_eff = 0 ∧ r_eff = 0 ∧ m_eff = 0 then (.literal, 1)
  else if z_eff * 2 > r_eff ∧ z_eff * 2 > m_eff then (.zero_run, z_eff)
  else if m_eff > r_eff then (.back_ref, m_eff)
  else (.byte_run, r_eff)

/-- Flush the pending literals: opcode and bytes. -/
def dk_literal (inp : Bytes) (literal_start literal_len : ℕ) : Bytes :=
  UInt8.ofNat (literal_len - 1) :: slice inp literal_start literal_len

/-- The locals of the encoding loop. `out` is the output buffer up to `op`. -/
structure DkState where
  i : ℕ
  out : Bytes
  literal_start : ℕ
  literal_len : ℕ

/-- The flush in front of a token and at the end. -/
def dk_flush (inp : Bytes) (s : DkState) : Bytes :=
  if s.literal_len > 0 then s.out ++ dk_literal inp s.literal_start s.literal_len else s.out

/-- One iteration of the encoding loop. -/
def dk_deflate_step (inp : Bytes) (s : DkState) : DkState :=
  let m := dk_find_match inp s.i
  let choice := dk_choose (dk_count_zero_run inp s.i) (dk_count_byte_run inp s.i) m.1
  match choice.1 with
  | .literal =>
    let start := if s.literal_len = 0 then s.i else s.literal_start
    let len := s.literal_len + 1
    if len = DK_MAX_LITERAL then ⟨s.i + 1, s.out ++ dk_literal inp start len, start, 0⟩
    else ⟨s.i + 1, s.out, start, len⟩
  | .zero_run =>
    ⟨s.i + choice.2, dk_flush inp s ++ [UInt8.ofNat (choice.2 + 62)], s.literal_start, 0⟩
  | .byte_run =>
    ⟨s.i + choice.2, dk_flush inp s ++ [UInt8.ofNat (choice.2 + 126), inp.getD s.i 0],
      s.literal_start, 0⟩
  | .back_ref =>
    ⟨s.i + choice.2, dk_flush inp s ++ [UInt8.ofNat (choice.2 + 190), UInt8.ofNat (m.2 - 2)],
      s.literal_start, 0⟩

/-- `while (i < in_len)`. -/
def dk_deflate_loop (inp : Bytes) : ℕ → DkState → DkState
  | 0, s => s
  | fuel + 1, s => if s.i < inp.length then dk_deflate_loop inp fuel (dk_deflate_step inp s) else s

/-- The size the encoder asks for up front. (No input object is long enough to wrap the 64-bit
sum.) -/
def dk_worst (n : ℕ) : ℕ := n + (n + 63) / 64 + 1

/-- `pakka_dk_deflate`. The result is the output buffer up to `*out_len`. -/
def pakka_dk_deflate (inp : Bytes) (out_cap : ℕ) : Except Status Bytes :=
  if dk_worst inp.length > out_cap then .error .limit
  else .ok (dk_flush inp (dk_deflate_loop inp inp.length ⟨0, [], 0, 0⟩) ++ [0xFF])

example : pakka_dk_deflate [7, 0, 0, 0, 9, 9, 9] 20 = .ok [0, 7, 65, 129, 9, 255] := by decide

end Pakka
