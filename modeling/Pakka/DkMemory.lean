/-
The Daikatana codec on checked memory.

The decoder and the encoder once more, as the source indexes its buffers: a read outside a
buffer, a write past the room it has, a `size_t` difference that would wrap, and a loop that is
still running when its count is used up are all faults. A run with no fault that returns what
the model of the codec returns is therefore one that terminates and stays in its buffers.

For the decoder the output buffer has `out_len` bytes. For the encoder the room is a parameter
of its own, so that the bound on what is written can be smaller than the capacity.

The reads and writes go through the checked buffers that the DEFLATE decoder uses too. Each checked
function is compared with the plain one by an equation, under the bounds its caller keeps, and the
equations compose to one for the decoder and one for the encoder.
-/
import Pakka.DkRoundTrip
import Pakka.Lib.Buffer

set_option autoImplicit false

namespace Pakka

open ByteImage

/-! ## Checked memory

The subtraction of sizes. A buffer and its accesses are those of `Lib/Buffer.lean`.
-/

/-- A `size_t` difference. -/
def minus (a b : ℕ) : Option ℕ := if b ≤ a then some (a - b) else none

theorem minus_of_le {a b : ℕ} (h : b ≤ a) : minus a b = some (a - b) := if_pos h

/-! ## Decoder

Equal to the plain decoder without a condition: the decoder checks everything it does against the
two lengths.
-/

/-- The copy of a back reference, a byte at a time. -/
def dk_copy_back_checked (out_len distance : ℕ) : ℕ → Bytes → Option Bytes
  | 0, out => some out
  | n + 1, out => do
    let from_pos ← minus out.length distance
    let b ← Buffer.get out from_pos
    let out ← Buffer.push out_len out [b]
    dk_copy_back_checked out_len distance n out

/-- The decoding loop. `read` is the position in the input, and the output buffer is filled up
to the end of `out`. -/
def dk_inflate_loop_checked (inp : Bytes) (out_len : ℕ) :
    ℕ → ℕ → Bytes → Option (Except Status Bytes)
  | 0, _, _ => none
  | fuel + 1, read, out =>
    if read < inp.length then do
      let b ← Buffer.get inp read
      let read := read + 1
      let opcode := b.toNat
      let in_room ← minus inp.length read
      let out_room ← minus out_len out.length
      if opcode < 64 then do
        let copy_len := opcode + 1
        if copy_len > in_room then some (.error .format)
        else if copy_len > out_room then some (.error .format)
        else do
          let bytes ← Buffer.load inp read copy_len
          let out ← Buffer.push out_len out bytes
          dk_inflate_loop_checked inp out_len fuel (read + copy_len) out
      else if opcode < 128 then do
        let copy_len ← minus opcode 62
        if copy_len > out_room then some (.error .format)
        else do
          let out ← Buffer.push out_len out (List.replicate copy_len 0)
          dk_inflate_loop_checked inp out_len fuel read out
      else if opcode < 192 then
        if read ≥ inp.length then some (.error .format)
        else do
          let copy_len ← minus opcode 126
          if copy_len > out_room then some (.error .format)
          else do
            let v ← Buffer.get inp read
            let out ← Buffer.push out_len out (List.replicate copy_len v)
            dk_inflate_loop_checked inp out_len fuel (read + 1) out
      else if opcode < 254 then
        if read ≥ inp.length then some (.error .format)
        else do
          let copy_len ← minus opcode 190
          let d ← Buffer.get inp read
          let distance := d.toNat + 2
          if distance > out.length then some (.error .format)
          else if copy_len > out_room then some (.error .format)
          else do
            let out ← dk_copy_back_checked out_len distance copy_len out
            dk_inflate_loop_checked inp out_len fuel (read + 1) out
      else if opcode = 254 then some (.error .format)
      else some (.ok out)
    else some (.ok out)

/-- `pakka_dk_inflate`. -/
def dk_inflate_checked (inp : Bytes) (out_len : ℕ) : Option (Except Status Bytes) := do
  match ← dk_inflate_loop_checked inp out_len (inp.length + 1) 0 [] with
  | .error s => some (.error s)
  | .ok out => some (if out.length ≠ out_len then .error .format else .ok out)

theorem dk_copy_back_length (distance n : ℕ) (out : Bytes) :
    (dk_copy_back distance n out).length = out.length + n := by
  induction n generalizing out with
  | zero => rfl
  | succ n ih =>
    rw [dk_copy_back, ih, List.length_append, List.length_singleton]
    omega

/-- The copy stays behind the start of the output and inside the buffer. -/
theorem dk_copy_back_checked_eq {out_len distance n : ℕ} {out : Bytes} (hd : 0 < distance)
    (hback : distance ≤ out.length) (hroom : out.length + n ≤ out_len) :
    dk_copy_back_checked out_len distance n out = some (dk_copy_back distance n out) := by
  induction n generalizing out with
  | zero => rfl
  | succ n ih =>
    have hstore : out.length + [out.getD (out.length - distance) 0].length ≤ out_len := by
      rw [List.length_singleton]
      omega
    simp only [dk_copy_back_checked, dk_copy_back, Option.bind_eq_bind]
    rw [minus_of_le hback, Option.bind_some, Buffer.get_of_lt (by omega) 0, Option.bind_some,
      Buffer.push_of_le hstore, Option.bind_some]
    apply ih
    · rw [List.length_append]
      omega
    · rw [List.length_append, List.length_singleton]
      omega

/-- **One run of the loop**, from any position: no fault, and the outcome of the model. The
induction is on the count, which is more than the input that is left. -/
theorem dk_inflate_loop_checked_eq {inp : Bytes} {out_len : ℕ} (fuel : ℕ) {read : ℕ} {out : Bytes}
    (hfuel : inp.length < read + fuel) (hread : read ≤ inp.length) (hout : out.length ≤ out_len) :
    dk_inflate_loop_checked inp out_len fuel read out =
      some (dk_decode out_len (inp.drop read) out) := by
  induction fuel generalizing read out with
  | zero => omega
  | succ fuel ih =>
    rw [dk_inflate_loop_checked]
    by_cases hlt : read < inp.length
    case neg =>
      rw [if_neg hlt, List.drop_of_length_le (by omega), dk_decode_nil]
    rw [if_pos hlt]
    have hcons : inp.drop read = inp.getD read 0 :: inp.drop (read + 1) := by
      rw [List.getD_eq_getElem _ _ hlt, List.drop_eq_getElem_cons hlt]
    have hleft : (inp.drop (read + 1)).length = inp.length - (read + 1) := List.length_drop
    -- what follows the opcode, where there is something
    have hnext : ¬ read + 1 ≥ inp.length →
        inp.drop (read + 1) = inp.getD (read + 1) 0 :: inp.drop (read + 1 + 1) := by
      intro h
      rw [List.getD_eq_getElem _ _ (by omega), List.drop_eq_getElem_cons (by omega)]
    have hnone : read + 1 ≥ inp.length → inp.drop (read + 1) = [] := fun h =>
      List.drop_of_length_le h
    rw [hcons, dk_decode_cons, hleft]
    simp only [Option.bind_eq_bind]
    rw [Buffer.get_of_lt hlt 0, Option.bind_some, minus_of_le hlt, Option.bind_some, minus_of_le hout,
      Option.bind_some]
    generalize (inp.getD read 0).toNat = opcode
    by_cases h64 : opcode < 64
    · rw [if_pos h64, if_pos h64]
      split_ifs with hin hroom
      · rfl
      · rfl
      · have hbytes : ((inp.drop (read + 1)).take (opcode + 1)).length = opcode + 1 :=
          length_slice_of_le (by omega)
        rw [Buffer.load_of_le (by omega), Option.bind_some, Buffer.push_of_le (by omega),
          Option.bind_some, ih (by omega) (by omega) (by rw [List.length_append]; omega), List.drop_drop]
    rw [if_neg h64, if_neg h64]
    by_cases h128 : opcode < 128
    · rw [if_pos h128, if_pos h128, minus_of_le (by omega), Option.bind_some]
      split_ifs with hroom
      · rfl
      · have hstore : out.length + (List.replicate (opcode - 62) (0 : UInt8)).length ≤ out_len := by
          rw [List.length_replicate]
          omega
        rw [Buffer.push_of_le hstore, Option.bind_some,
          ih (by omega) (by omega) (by rw [List.length_append]; omega)]
    rw [if_neg h128, if_neg h128]
    by_cases h192 : opcode < 192
    · rw [if_pos h192, if_pos h192]
      by_cases hend : read + 1 ≥ inp.length
      · rw [if_pos hend, hnone hend]
      rw [if_neg hend, hnext hend, minus_of_le (by omega), Option.bind_some]
      simp only
      split_ifs with hroom
      · rfl
      · have hstore : out.length +
            (List.replicate (opcode - 126) (inp.getD (read + 1) 0)).length ≤ out_len := by
          rw [List.length_replicate]
          omega
        rw [Buffer.get_of_lt (by omega) 0, Option.bind_some, Buffer.push_of_le hstore,
          Option.bind_some, ih (by omega) (by omega) (by rw [List.length_append]; omega)]
    rw [if_neg h192, if_neg h192]
    by_cases h254 : opcode < 254
    · rw [if_pos h254, if_pos h254]
      by_cases hend : read + 1 ≥ inp.length
      · rw [if_pos hend, hnone hend]
      rw [if_neg hend, hnext hend, minus_of_le (by omega), Option.bind_some,
        Buffer.get_of_lt (by omega) 0, Option.bind_some]
      simp only
      split_ifs with hback hroom
      · rfl
      · rfl
      · rw [dk_copy_back_checked_eq (by omega) (by omega) (by omega), Option.bind_some,
          ih (by omega) (by omega) (by rw [dk_copy_back_length]; omega)]
    rw [if_neg h254, if_neg h254]
    split_ifs <;> rfl

/-- The decoder terminates without a fault, and does what the model does. -/
theorem dk_inflate_checked_eq (inp : Bytes) (out_len : ℕ) :
    dk_inflate_checked inp out_len = some (pakka_dk_inflate inp out_len) := by
  have hfuel : inp.length < 0 + (inp.length + 1) := by omega
  have hstart : ([] : Bytes).length ≤ out_len := Nat.zero_le _
  have hloop := dk_inflate_loop_checked_eq (inp.length + 1) hfuel (Nat.zero_le _) hstart
  have hdec : dk_inflate_loop out_len inp.length inp [] = dk_decode out_len inp [] := rfl
  unfold dk_inflate_checked pakka_dk_inflate
  rw [hloop, hdec, List.drop_zero]
  simp only [Option.bind_eq_bind, Option.bind_some]
  cases dk_decode out_len inp [] <;> rfl

/-- **The decoder accepts exactly the token grammar.** It succeeds on the streams that read, up to
the terminator or the end of the input, as tokens that reach no further back than the output and
denote as many bytes as were asked for, and its output is what they denote. On every input it
terminates, with each access inside the input, inside the output buffer and behind the start of
the output. And it accepts a stream for one output length at most. -/
theorem dk_inflate_grammar (inp : Bytes) (out_len : ℕ) :
    (∀ out, pakka_dk_inflate inp out_len = .ok out ↔
      ∃ ts, dk_code.Reads inp ts ∧ dk_in_reach 0 ts ∧ dk_denote [] ts = out ∧
        out.length = out_len) ∧
    dk_inflate_checked inp out_len = some (pakka_dk_inflate inp out_len) ∧
    ∀ out_len' out out', pakka_dk_inflate inp out_len = .ok out →
      pakka_dk_inflate inp out_len' = .ok out' → out_len = out_len' :=
  ⟨dk_inflate_iff inp out_len, dk_inflate_checked_eq inp out_len,
    fun _ _ _ => dk_inflate_length_unique⟩

-- an overlapping reference, an early terminator with junk behind it, and a truncated token
example : pakka_dk_inflate [1, 5, 6, 194, 0, 255, 9] 6 = .ok [5, 6, 5, 6, 5, 6] := by decide
example : pakka_dk_inflate [1, 5, 6, 194] 6 = .error .format := by decide

/-! ## Encoder

The encoder trusts the bound it computed for its output, so its equation needs that bound as a
hypothesis, and the round-trip module's length lemma supplies it.
-/

/-- `while (len < max && p(len)) len++`. -/
def dk_extend_checked (p : ℕ → Option Bool) : ℕ → ℕ → Option ℕ
  | 0, len => some len
  | k + 1, len => do
    if ← p len then dk_extend_checked p k (len + 1) else some len

def dk_count_zero_run_checked (inp : Bytes) (i : ℕ) : Option ℕ := do
  let left ← minus inp.length i
  let max := if left > DK_MAX_ZERO_RUN then DK_MAX_ZERO_RUN else left
  dk_extend_checked (fun len => do
    let b ← Buffer.get inp (i + len)
    some (b = 0)) max 0

def dk_count_byte_run_checked (inp : Bytes) (i : ℕ) : Option ℕ :=
  if i ≥ inp.length then some 0
  else do
    let b ← Buffer.get inp i
    let left ← minus inp.length i
    let max := if left > DK_MAX_BYTE_RUN then DK_MAX_BYTE_RUN else left
    dk_extend_checked (fun len => do
      let c ← Buffer.get inp (i + len)
      some (c = b)) (max - 1) 1

/-- The search over distances. -/
def dk_find_match_loop_checked (inp : Bytes) (i remaining : ℕ) :
    ℕ → ℕ → ℕ → ℕ → Option (ℕ × ℕ)
  | 0, _, best_len, best_dist => some (best_len, best_dist)
  | k + 1, d, best_len, best_dist =>
    let cap := if d < DK_MAX_BACK_REF then d else DK_MAX_BACK_REF
    let per_d_cap := if cap > remaining then remaining else cap
    if per_d_cap < DK_MIN_BACK_REF then
      dk_find_match_loop_checked inp i remaining k (d + 1) best_len best_dist
    else do
      let from_pos ← minus i d
      let a ← Buffer.get inp from_pos
      let b ← Buffer.get inp i
      if a ≠ b then dk_find_match_loop_checked inp i remaining k (d + 1) best_len best_dist
      else do
        let len ← dk_extend_checked (fun len => do
          let b ← Buffer.get inp (i + len)
          let from_pos ← minus (i + len) d
          let a ← Buffer.get inp from_pos
          some (b = a)) (per_d_cap - 1) 1
        if len > best_len then
          if len = DK_MAX_BACK_REF then some (len, d)
          else dk_find_match_loop_checked inp i remaining k (d + 1) len d
        else dk_find_match_loop_checked inp i remaining k (d + 1) best_len best_dist

def dk_find_match_checked (inp : Bytes) (i : ℕ) : Option (ℕ × ℕ) :=
  if i < 2 then some (0, 0)
  else do
    let max_d := if i < DK_MAX_BACK_DIST then i else DK_MAX_BACK_DIST
    let remaining ← minus inp.length i
    if remaining < DK_MIN_BACK_REF then some (0, 0)
    else do
      let best ← dk_find_match_loop_checked inp i remaining (max_d - 1) 2 0 0
      if best.1 < DK_MIN_BACK_REF then some (0, 0) else some best

/-- Flush the pending literals, an opcode and a `memcpy`. -/
def dk_literal_checked (inp : Bytes) (room : ℕ) (out : Bytes) (literal_start literal_len : ℕ) :
    Option Bytes := do
  let out ← Buffer.push room out [UInt8.ofNat (literal_len - 1)]
  let bytes ← Buffer.load inp literal_start literal_len
  Buffer.push room out bytes

def dk_flush_checked (inp : Bytes) (room : ℕ) (s : DkState) : Option Bytes :=
  if s.literal_len > 0 then dk_literal_checked inp room s.out s.literal_start s.literal_len
  else some s.out

/-- One iteration of the encoding loop. -/
def dk_deflate_step_checked (inp : Bytes) (room : ℕ) (s : DkState) : Option DkState := do
  let zlen ← dk_count_zero_run_checked inp s.i
  let rlen ← dk_count_byte_run_checked inp s.i
  let m ← dk_find_match_checked inp s.i
  let choice := dk_choose zlen rlen m.1
  match choice.1 with
  | .literal =>
    let start := if s.literal_len = 0 then s.i else s.literal_start
    let len := s.literal_len + 1
    if len = DK_MAX_LITERAL then do
      let out ← dk_literal_checked inp room s.out start len
      some ⟨s.i + 1, out, start, 0⟩
    else some ⟨s.i + 1, s.out, start, len⟩
  | .zero_run => do
    let out ← dk_flush_checked inp room s
    let out ← Buffer.push room out [UInt8.ofNat (choice.2 + 62)]
    some ⟨s.i + choice.2, out, s.literal_start, 0⟩
  | .byte_run => do
    let out ← dk_flush_checked inp room s
    let out ← Buffer.push room out [UInt8.ofNat (choice.2 + 126)]
    let b ← Buffer.get inp s.i
    let out ← Buffer.push room out [b]
    some ⟨s.i + choice.2, out, s.literal_start, 0⟩
  | .back_ref => do
    let out ← dk_flush_checked inp room s
    let out ← Buffer.push room out [UInt8.ofNat (choice.2 + 190)]
    let dist ← minus m.2 2
    let out ← Buffer.push room out [UInt8.ofNat dist]
    some ⟨s.i + choice.2, out, s.literal_start, 0⟩

/-- `while (i < in_len)`. -/
def dk_deflate_loop_checked (inp : Bytes) (room : ℕ) : ℕ → DkState → Option DkState
  | 0, _ => none
  | fuel + 1, s =>
    if s.i < inp.length then do
      let s ← dk_deflate_step_checked inp room s
      dk_deflate_loop_checked inp room fuel s
    else some s

/-- `pakka_dk_deflate` with room for `room` bytes of output. -/
def dk_deflate_checked (inp : Bytes) (out_cap room : ℕ) : Option (Except Status Bytes) :=
  if dk_worst inp.length > out_cap then some (.error .limit)
  else do
    let s ← dk_deflate_loop_checked inp room (inp.length + 1) ⟨0, [], 0, 0⟩
    let out ← dk_flush_checked inp room s
    let out ← Buffer.push room out [0xFF]
    some (.ok out)

/-- A scan with a test that faults nowhere is the scan. -/
theorem dk_extend_checked_eq {p : ℕ → Option Bool} {q : ℕ → Bool} (k len : ℕ)
    (h : ∀ j, j < len + k → p j = some (q j)) :
    dk_extend_checked p k len = some (dk_extend q k len) := by
  induction k generalizing len with
  | zero => rfl
  | succ k ih =>
    rw [dk_extend_checked, dk_extend, h len (by omega)]
    simp only [Option.bind_eq_bind, Option.bind_some]
    split_ifs
    · exact ih (len + 1) fun j hj => h j (by omega)
    · rfl

theorem dk_count_zero_run_checked_eq {inp : Bytes} {i : ℕ} (hi : i ≤ inp.length) :
    dk_count_zero_run_checked inp i = some (dk_count_zero_run inp i) := by
  unfold dk_count_zero_run_checked dk_count_zero_run
  rw [minus_of_le hi]
  simp only [Option.bind_eq_bind, Option.bind_some]
  apply dk_extend_checked_eq
  intro j hj
  have hlt : i + j < inp.length := by
    split_ifs at hj <;> omega
  rw [Buffer.get_of_lt hlt 0]
  rfl

theorem dk_count_byte_run_checked_eq (inp : Bytes) (i : ℕ) :
    dk_count_byte_run_checked inp i = some (dk_count_byte_run inp i) := by
  unfold dk_count_byte_run_checked dk_count_byte_run
  by_cases hi : i ≥ inp.length
  · rw [if_pos hi, if_pos hi]
  rw [if_neg hi, if_neg hi, minus_of_le (by omega), Buffer.get_of_lt (by omega) 0]
  simp only [Option.bind_eq_bind, Option.bind_some]
  apply dk_extend_checked_eq
  intro j hj
  have hlt : i + j < inp.length := by
    split_ifs at hj <;> omega
  rw [Buffer.get_of_lt hlt 0]
  rfl

/-- The search reads inside the input, and in front of the position it goes back from. -/
theorem dk_find_match_loop_checked_eq {inp : Bytes} {i : ℕ} (hi : i < inp.length)
    (k d best_len best_dist : ℕ) (hd : 2 ≤ d) (hk : d + k ≤ i + 1) :
    dk_find_match_loop_checked inp i (inp.length - i) k d best_len best_dist =
      some (dk_find_match_loop inp i (inp.length - i) k d best_len best_dist) := by
  induction k generalizing d best_len best_dist with
  | zero => rfl
  | succ k ih =>
    have hnext : ∀ bl bd, dk_find_match_loop_checked inp i (inp.length - i) k (d + 1) bl bd =
        some (dk_find_match_loop inp i (inp.length - i) k (d + 1) bl bd) :=
      fun bl bd => ih (d + 1) bl bd (by omega) (by omega)
    simp only [dk_find_match_loop_checked, dk_find_match_loop, hnext]
    generalize hcap : (if (if d < DK_MAX_BACK_REF then d else DK_MAX_BACK_REF) > inp.length - i
      then inp.length - i else if d < DK_MAX_BACK_REF then d else DK_MAX_BACK_REF) = cap
    have hcaple : cap ≤ inp.length - i := by
      rw [← hcap]
      split_ifs <;> omega
    by_cases hsmall : cap < DK_MIN_BACK_REF
    · rw [if_pos hsmall, if_pos hsmall]
    rw [if_neg hsmall, if_neg hsmall]
    simp only [DK_MIN_BACK_REF] at hsmall
    rw [minus_of_le (by omega), Buffer.get_of_lt hi 0]
    simp only [Option.bind_eq_bind, Option.bind_some]
    rw [Buffer.get_of_lt (by omega) 0, Option.bind_some]
    by_cases hfirst : inp.getD (i - d) 0 ≠ inp.getD i 0
    · rw [if_pos hfirst, if_pos hfirst]
    rw [if_neg hfirst, if_neg hfirst]
    rw [dk_extend_checked_eq (q := fun len => inp.getD (i + len) 0 = inp.getD (i + len - d) 0)]
    · rw [Option.bind_some]
      split_ifs <;> rfl
    · intro j hj
      rw [Buffer.get_of_lt (by omega) 0, Option.bind_some, minus_of_le (by omega), Option.bind_some,
        Buffer.get_of_lt (by omega) 0, Option.bind_some]

theorem dk_find_match_checked_eq {inp : Bytes} {i : ℕ} (hi : i < inp.length) :
    dk_find_match_checked inp i = some (dk_find_match inp i) := by
  unfold dk_find_match_checked dk_find_match
  by_cases hi2 : i < 2
  · rw [if_pos hi2, if_pos hi2]
  rw [if_neg hi2, if_neg hi2, minus_of_le (Nat.le_of_lt hi)]
  simp only [Option.bind_eq_bind, Option.bind_some]
  by_cases hrem : inp.length - i < DK_MIN_BACK_REF
  · rw [if_pos hrem, if_pos hrem]
  rw [if_neg hrem, if_neg hrem]
  generalize hmax : (if i < DK_MAX_BACK_DIST then i else DK_MAX_BACK_DIST) = max_d
  have hmaxle : max_d ≤ i := by
    rw [← hmax]
    split_ifs <;> omega
  rw [dk_find_match_loop_checked_eq hi (max_d - 1) 2 0 0 (Nat.le_refl 2) (by omega),
    Option.bind_some]
  split_ifs <;> rfl

theorem dk_literal_checked_eq {inp out : Bytes} {room start len : ℕ}
    (hin : start + len ≤ inp.length)
    (hroom : (out ++ dk_literal inp start len).length ≤ room) :
    dk_literal_checked inp room out start len = some (out ++ dk_literal inp start len) := by
  have hlen : ((inp.drop start).take len).length = len := length_slice_of_le hin
  rw [dk_literal, List.length_append, List.length_cons, slice, hlen] at hroom
  unfold dk_literal_checked
  simp only [Option.bind_eq_bind]
  rw [Buffer.push_of_le (by rw [List.length_singleton]; omega), Option.bind_some,
    Buffer.load_of_le hin, Option.bind_some, Buffer.push_of_le, List.append_assoc]
  · rfl
  · rw [List.length_append, List.length_singleton, hlen]
    omega

theorem dk_flush_checked_eq {inp : Bytes} {room : ℕ} {s : DkState} (h : DkInvariant inp s)
    (hroom : (dk_flush inp s).length ≤ room) :
    dk_flush_checked inp room s = some (dk_flush inp s) := by
  unfold dk_flush_checked
  unfold dk_flush at hroom ⊢
  by_cases hpos : s.literal_len > 0
  · rw [if_pos hpos] at hroom
    rw [if_pos hpos, if_pos hpos]
    exact dk_literal_checked_eq (h.lit_start hpos ▸ h.le) hroom
  · rw [if_neg hpos, if_neg hpos]

/-- Two bytes behind a flush. -/
private theorem store_two {room : ℕ} {out : Bytes} {a b : UInt8}
    (hroom : (out ++ [a, b]).length ≤ room) :
    Buffer.push room out [a] = some (out ++ [a]) ∧
      Buffer.push room (out ++ [a]) [b] = some (out ++ [a, b]) := by
  rw [List.length_append, List.length_cons, List.length_singleton] at hroom
  constructor
  · exact Buffer.push_of_le (by rw [List.length_singleton]; omega)
  · rw [Buffer.push_of_le (by rw [List.length_append, List.length_singleton,
      List.length_singleton]; omega),
      List.append_assoc]
    rfl

/-- **One iteration of the encoder**: no fault, when there is room for what the iteration
writes. -/
theorem dk_deflate_step_checked_eq {inp : Bytes} {room : ℕ} {s : DkState} (h : DkInvariant inp s)
    (hlt : s.i < inp.length) (hroom : (dk_deflate_step inp s).out.length ≤ room) :
    dk_deflate_step_checked inp room s = some (dk_deflate_step inp s) := by
  have hspec := dk_choose_spec (dk_count_zero_run inp s.i) (dk_count_byte_run inp s.i)
    (dk_find_match inp s.i).1
  have hmatch := dk_find_match_spec (Nat.le_of_lt hlt)
  unfold dk_deflate_step_checked
  unfold dk_deflate_step at hroom ⊢
  rw [dk_count_zero_run_checked_eq h.le, dk_count_byte_run_checked_eq,
    dk_find_match_checked_eq hlt]
  simp only [Option.bind_eq_bind, Option.bind_some] at hroom ⊢
  generalize dk_choose (dk_count_zero_run inp s.i) (dk_count_byte_run inp s.i)
    (dk_find_match inp s.i).1 = choice at hspec hroom ⊢
  obtain ⟨kind, take⟩ := choice
  -- a token leaves room for the flush in front of it
  have hflush : ∀ tok, (dk_flush inp s ++ tok).length ≤ room →
      dk_flush_checked inp room s = some (dk_flush inp s) := by
    intro tok htok
    rw [List.length_append] at htok
    exact dk_flush_checked_eq h (Nat.le_of_add_right_le htok)
  cases kind with
  | literal =>
    simp only at hroom ⊢
    have hstart : (if s.literal_len = 0 then s.i else s.literal_start) + (s.literal_len + 1) =
        s.i + 1 := by
      split_ifs with h0
      · omega
      · have := h.lit_start (by omega)
        omega
    generalize (if s.literal_len = 0 then s.i else s.literal_start) = start at hstart hroom ⊢
    by_cases hfull : s.literal_len + 1 = DK_MAX_LITERAL
    · rw [if_pos hfull] at hroom
      rw [if_pos hfull, if_pos hfull, dk_literal_checked_eq (by omega) hroom, Option.bind_some]
    · rw [if_neg hfull, if_neg hfull]
  | zero_run =>
    simp only at hroom ⊢
    rw [hflush _ hroom, Option.bind_some, Buffer.push_of_le (by rwa [List.length_append] at hroom),
      Option.bind_some]
  | byte_run =>
    simp only at hroom ⊢
    obtain ⟨hfirst, hsecond⟩ := store_two hroom
    rw [hflush _ hroom, Option.bind_some, hfirst, Option.bind_some, Buffer.get_of_lt hlt 0,
      Option.bind_some, hsecond, Option.bind_some]
  | back_ref =>
    simp only at hroom ⊢
    obtain ⟨rfl, hmin⟩ := hspec
    obtain ⟨hfirst, hsecond⟩ := store_two hroom
    rw [hflush _ hroom, Option.bind_some, hfirst, Option.bind_some,
      minus_of_le (hmatch hmin).min_dist, Option.bind_some, hsecond, Option.bind_some]

/-- **The whole loop**, in a buffer for the worst case. -/
theorem dk_deflate_loop_checked_eq {inp : Bytes} {room : ℕ} (hroom : dk_worst inp.length ≤ room)
    (fuel : ℕ) {s : DkState} (h : DkInvariant inp s) (hfuel : inp.length ≤ s.i + fuel) :
    dk_deflate_loop_checked inp room (fuel + 1) s = some (dk_deflate_loop inp fuel s) := by
  induction fuel generalizing s with
  | zero =>
    rw [dk_deflate_loop_checked, dk_deflate_loop, if_neg (by omega)]
  | succ fuel ih =>
    rw [dk_deflate_loop_checked, dk_deflate_loop]
    by_cases hlt : s.i < inp.length
    · obtain ⟨hs, hi⟩ := dk_deflate_step_spec h hlt
      have hout : (dk_deflate_step inp s).out.length ≤ room := by
        have hle := dk_flush_le hs
        have hgrow : (dk_deflate_step inp s).out.length ≤
            (dk_flush inp (dk_deflate_step inp s)).length := by
          unfold dk_flush
          split_ifs
          · rw [List.length_append]
            exact Nat.le_add_right _ _
          · exact Nat.le_refl _
        omega
      rw [if_pos hlt, if_pos hlt, dk_deflate_step_checked_eq h hlt hout]
      exact ih hs (by omega)
    · rw [if_neg hlt, if_neg hlt]

/-- The encoder terminates without a fault when there is room for the worst case. -/
theorem dk_deflate_checked_eq (inp : Bytes) (out_cap room : ℕ)
    (hroom : dk_worst inp.length ≤ out_cap → dk_worst inp.length ≤ room) :
    dk_deflate_checked inp out_cap room = some (pakka_dk_deflate inp out_cap) := by
  unfold dk_deflate_checked pakka_dk_deflate
  by_cases hcap : dk_worst inp.length > out_cap
  · rw [if_pos hcap, if_pos hcap]
  have hfits := hroom (by omega)
  obtain ⟨hinv, -⟩ := dk_deflate_loop_spec inp.length (dk_initial_invariant inp) (by simp)
  have hlast := dk_flush_le hinv
  rw [if_neg hcap, if_neg hcap,
    dk_deflate_loop_checked_eq hfits inp.length (dk_initial_invariant inp) (by simp)]
  simp only [Option.bind_eq_bind, Option.bind_some]
  rw [dk_flush_checked_eq hinv (by omega), Option.bind_some,
    Buffer.push_of_le (by rw [List.length_singleton]; omega), Option.bind_some]

/-- **The encoder's bound.** On an input of length `n`, with any capacity, the encoder reads only
inside its input and writes no more than `n + ⌈n / 64⌉ + 1` bytes: with no more room than that, and
with no more room than the capacity, no access is a fault. -/
theorem dk_deflate_in_bounds (x : Bytes) (out_cap : ℕ) :
    dk_deflate_checked x out_cap (x.length + (x.length + 63) / 64 + 1) =
        some (pakka_dk_deflate x out_cap) ∧
      dk_deflate_checked x out_cap out_cap = some (pakka_dk_deflate x out_cap) ∧
      ∀ bs, pakka_dk_deflate x out_cap = .ok bs →
        bs.length ≤ x.length + (x.length + 63) / 64 + 1 ∧ bs.length ≤ out_cap := by
  refine ⟨dk_deflate_checked_eq x out_cap _ fun _ => Nat.le_refl _,
    dk_deflate_checked_eq x out_cap _ id, ?_⟩
  intro bs h
  have hlen := dk_deflate_length h
  refine ⟨hlen, hlen.trans ?_⟩
  unfold pakka_dk_deflate at h
  split_ifs at h with hcap
  omega

end Pakka
