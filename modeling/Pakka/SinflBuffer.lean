/-
The decoder over the output buffer.

In the C the output is a buffer of a fixed size, and a match is copied in words of 16 or 8 bytes
where there is room behind it, so that a copy stores past its end; the bytes there are written
again later, or lie behind what is returned. Over the buffer every load and store is checked. The
decoder over the buffer gives what the decoder over lists gives, with and without the vector
instructions and whatever the buffer held (`sinflate_buffer`): the wide copies stay in the buffer,
and what they put down up to the end of the match is what a copy byte by byte puts down.

The proof is by functions, side by side. `Alike` says of two results that both are missing, or both
are there and hold the same; a copy is the only place where the two decoders do different things,
and `copy_match_spec` covers it.
-/
import Pakka.DeflateTokens
import Pakka.Lib.Buffer

set_option autoImplicit false

namespace Pakka

open Lz77 ByteImage

/-! ## Copies

The wide copies as the source has them, with and without vector instructions, and the copy of a
match put together from them.
-/

/-- The pointers of a copy. -/
structure SinflPtrs where
  mem : Bytes
  dst : ℕ
  src : ℕ

/-- All of a word is loaded before the first byte of it is stored. -/
def sinfl_copy_word (w : ℕ) (s : SinflPtrs) : Option SinflPtrs := do
  let n ← Buffer.load s.mem s.src w
  let mem ← Buffer.store s.mem s.dst n
  return ⟨mem, s.dst + w, s.src + w⟩

def pakka_sinfl_copy128 : SinflPtrs → Option SinflPtrs := sinfl_copy_word 16

def pakka_sinfl_copy64 : SinflPtrs → Option SinflPtrs := sinfl_copy_word 8

/-- `*dst++ = *src++`. -/
def sinfl_copy_byte : SinflPtrs → Option SinflPtrs := sinfl_copy_word 1

/-- A word with one byte in all its places; the pointer goes on by 8 for both widths. -/
def sinfl_write_word (w : ℕ) (c : UInt8) (s : SinflPtrs) : Option SinflPtrs := do
  let mem ← Buffer.store s.mem s.dst (List.replicate w c)
  return ⟨mem, s.dst + 8, s.src⟩

def pakka_sinfl_write128 : UInt8 → SinflPtrs → Option SinflPtrs := sinfl_write_word 16

def pakka_sinfl_write64 : UInt8 → SinflPtrs → Option SinflPtrs := sinfl_write_word 8

/-- `do step while (dst < out)`. -/
def sinfl_do (step : SinflPtrs → Option SinflPtrs) (out : ℕ) : ℕ → SinflPtrs → Option SinflPtrs
  | 0, _ => none
  | fuel + 1, s => do
    let s ← step s
    if s.dst < out then sinfl_do step out fuel s else return s

/-- Two steps, and one or more up to `out`. -/
def sinfl_steps (step : SinflPtrs → Option SinflPtrs) (out : ℕ) (s : SinflPtrs) :
    Option SinflPtrs := do
  let s ← step s
  let s ← step s
  sinfl_do step out (out + 1) s

/-- The copy of a match with vector instructions; `room` is `oe - out`. -/
def sinfl_copy_simd (room offs out : ℕ) (s : SinflPtrs) : Option SinflPtrs :=
  if room ≥ 16 * 3 then
    if offs ≥ 16 then sinfl_steps pakka_sinfl_copy128 out s
    else if offs ≥ 8 then sinfl_steps pakka_sinfl_copy64 out s
    else if offs = 1 then do
      let c ← Buffer.get s.mem s.src
      sinfl_steps (pakka_sinfl_write128 c) out s
    else sinfl_steps sinfl_copy_byte out s
  else sinfl_steps sinfl_copy_byte out s

/-- The copy of a match with `PAKKA_SINFL_NO_SIMD`. -/
def sinfl_copy_no_simd (room offs out : ℕ) (s : SinflPtrs) : Option SinflPtrs :=
  if room ≥ 3 * 8 - 3 then
    if offs ≥ 8 then sinfl_steps pakka_sinfl_copy64 out s
    else if offs = 1 then do
      let c ← Buffer.get s.mem s.src
      sinfl_steps (pakka_sinfl_write64 c) out s
    else sinfl_steps sinfl_copy_byte out s
  else sinfl_steps sinfl_copy_byte out s

/-- The copy of a match, on a build with vector instructions or without. -/
def sinfl_copy_match (simd : Bool) (room offs out : ℕ) (s : SinflPtrs) : Option SinflPtrs :=
  if simd then sinfl_copy_simd room offs out s else sinfl_copy_no_simd room offs out s

/-! ## The decoder

The decoder again, with the buffer in place of the list. It reads the stream by the same functions.
-/

/-- The buffer from `o` to `oe`, and `out`. -/
structure SinflBuf where
  mem : Bytes
  pos : ℕ

/-- What is written. -/
def SinflBuf.out (b : SinflBuf) : Bytes := b.mem.take b.pos

/-- `*out++ = c`, and the copy of a stored block. -/
def SinflBuf.put (b : SinflBuf) (bytes : Bytes) : Option SinflBuf :=
  (Buffer.store b.mem b.pos bytes).map (⟨·, b.pos + bytes.length⟩)

/-- `sinfl_stored`, over the buffer. -/
def sinfl_stored_buf (inp : Bytes) (s : Sinfl) (b : SinflBuf) :
    Option (SinflOut Bytes (Sinfl × SinflBuf)) := do
  let (_, s) ← pakka_sinfl__get s (s.bitcnt &&& 7)
  let (len, s) ← pakka_sinfl__get s 16
  let (nlen, s) ← pakka_sinfl__get s 16
  let rewind := if s.bitcnt / 8 > s.bitptr then s.bitptr else s.bitcnt / 8
  let bitptr := s.bitptr - rewind
  if len ≠ 0xffff - nlen then return .ret b.out
  if len > inp.length - bitptr then return .ret b.out
  if b.pos + len > b.mem.length then return .full
  let b ← b.put ((inp.drop bitptr).take len)
  return .go (⟨bitptr + len, 0, 0⟩, b)

/-- `sinfl_match`, over the buffer. -/
def sinfl_match_buf (simd : Bool) (dsts : List ℕ) (sym : ℕ) (s : Sinfl) (b : SinflBuf) :
    Option (SinflOut Bytes (Bool × Sinfl × SinflBuf)) :=
  if sym = 256 then some (.go (true, s, b))
  else if sym ≥ 286 then some (.ret b.out)
  else do
    let sym := sym - 257
    let (x, s) ← pakka_sinfl__get s (sinfl_lbits.getD sym 0)
    let len := x + sinfl_lbase.getD sym 0
    let (dsym, s) ← pakka_sinfl_decode s dsts 8
    let (y, s) ← pakka_sinfl__get s (sinfl_dbits.getD dsym 0)
    let offs := y + sinfl_dbase.getD dsym 0
    let out := b.pos + len
    if out > b.mem.length then return .full
    -- before the buffer
    if offs > b.pos then none
    let p ← sinfl_copy_match simd (b.mem.length - out) offs out ⟨b.mem, b.pos, b.pos - offs⟩
    return .go (false, s, ⟨p.mem, out⟩)

/-- `sinfl_round`, over the buffer. -/
def sinfl_round_buf (simd : Bool) (inp : Bytes) (t : SinflTables) (s : Sinfl) (b : SinflBuf) :
    Option (SinflOut Bytes (Bool × Sinfl × SinflBuf)) := do
  let (sym, s) ← pakka_sinfl_decode (pakka_sinfl_refill inp s) t.lits 10
  if sym < 256 then
    if b.pos ≥ b.mem.length then return .full
    let b ← b.put [UInt8.ofNat sym]
    let (sym, s) ← pakka_sinfl_decode s t.lits 10
    if sym < 256 then
      if b.pos ≥ b.mem.length then return .full
      let b ← b.put [UInt8.ofNat sym]
      return .go (false, s, b)
    sinfl_match_buf simd t.dsts sym s b
  else sinfl_match_buf simd t.dsts sym s b

/-- `sinfl_blk`, over the buffer. -/
def sinfl_blk_buf (simd : Bool) (inp : Bytes) (t : SinflTables) :
    ℕ → Sinfl → SinflBuf → Option (SinflOut Bytes (Sinfl × SinflBuf))
  | 0, _, _ => none
  | fuel + 1, s, b => do
    match ← sinfl_round_buf simd inp t s b with
    | .ret out => return .ret out
    | .full => return .full
    | .go (true, s, b) => return .go (s, b)
    | .go (false, s, b) => sinfl_blk_buf simd inp t fuel s b

/-- `sinfl_block`, over the buffer. -/
def sinfl_block_buf (simd : Bool) (inp : Bytes) (type : ℕ) (s : Sinfl) (t : SinflTables)
    (b : SinflBuf) : Option (SinflOut Bytes (Sinfl × SinflTables × SinflBuf)) :=
  if type = 0 then (sinfl_stored_buf inp s b).map (sinfl_carry t)
  else if type = 1 then
    (sinfl_blk_buf simd inp (sinfl_fixed t) (b.mem.length + 1) s b).map
      (sinfl_carry (sinfl_fixed t))
  else if type = 2 then do
    let (s, t) ← sinfl_dyn inp s t
    (sinfl_blk_buf simd inp t (b.mem.length + 1) s b).map (sinfl_carry t)
  else some (.ret b.out)

/-- `sinfl_blocks`, over the buffer. -/
def sinfl_blocks_buf (simd : Bool) (inp : Bytes) :
    ℕ → Sinfl → SinflTables → SinflBuf → Option (Option Bytes)
  | 0, _, _, _ => none
  | fuel + 1, s, t, b => do
    let (last, s) ← pakka_sinfl__get (pakka_sinfl_refill inp s) 1
    let (type, s) ← pakka_sinfl__get s 2
    match ← sinfl_block_buf simd inp type s t b with
    | .ret out => return some out
    | .full => return none
    | .go (s, t, b) => if last ≠ 0 then return some b.out else sinfl_blocks_buf simd inp fuel s t b

/-- `pakka_sinflate` into a buffer that holds `mem`: what it holds up to the count returned. -/
def pakka_sinflate_buf (simd : Bool) (mem inp : Bytes) : Option (Option Bytes) :=
  sinfl_blocks_buf simd inp (8 * inp.length + 1) ⟨0, 0, 0⟩ ⟨[], []⟩ ⟨mem, 0⟩

/-! ## What a copy puts down

Each of the copying loops writes what a copy byte by byte would, and whatever it writes behind that
stays inside the buffer. The cases are those of the source: words where the match is far enough
back, a repeated byte, and byte after byte otherwise.
-/

/-- The first `n` bytes of a copy behind `text` are put down. -/
structure Copying (offs : ℕ) (text : Bytes) (cap : ℕ) (s : SinflPtrs) (n : ℕ) : Prop where
  dst : s.dst = text.length + n
  mem : s.mem.take s.dst = copyBack offs n text
  size : s.mem.length = cap

section Copies

variable {offs len cap a w n : ℕ} {text : Bytes} {s : SinflPtrs}

/-- Storing a word behind what is put down. The first `a` bytes of it count. -/
theorem Copying.store (h : Copying offs text cap s n) {word : Bytes}
    (hroom : s.dst + word.length ≤ cap)
    (ha : a ≤ word.length) (hword : copyBack offs (n + a) text = copyBack offs n text ++ word.take a)
    (src : ℕ) :
    ∃ mem, Buffer.store s.mem s.dst word = some mem ∧
      Copying offs text cap ⟨mem, s.dst + a, src⟩ (n + a) := by
  have hsize := h.size
  have hlen : (s.mem.take s.dst).length = s.dst := List.length_take_of_le (by omega)
  refine ⟨_, if_pos (by omega), ?_, ?_, ?_⟩
  · dsimp only
    rw [h.dst, Nat.add_assoc]
  · dsimp only
    rw [hword, List.append_assoc, ← h.mem]
    conv_lhs => rw [show s.dst + a = (s.mem.take s.dst).length + a by rw [hlen]]
    rw [List.take_length_add_append, List.take_append_of_le_length ha]
  · dsimp only
    rw [List.length_append, List.length_append, hlen, List.length_drop]
    omega

theorem Copying.copy_word (h : Copying offs text cap s n) (hsrc : s.src + offs = s.dst)
    (hw : w ≤ offs)
    (hroom : text.length + n + w ≤ cap) :
    ∃ s', sinfl_copy_word w s = some s' ∧ Copying offs text cap s' (n + w) ∧
      s'.src + offs = s'.dst := by
  have hdst := h.dst
  have hsize := h.size
  have hload : Buffer.load s.mem s.src w = some ((s.mem.drop s.src).take w) :=
    Buffer.load_of_le (by omega)
  have hlen : ((s.mem.drop s.src).take w).length = w :=
    List.length_take_of_le (by rw [List.length_drop]; omega)
  -- the word is loaded from what is put down
  have hword : copyBack offs (n + w) text =
      copyBack offs n text ++ ((s.mem.drop s.src).take w).take w := by
    rw [copyBack_add, copyBack_slice hw (by rw [length_copyBack]; omega), length_copyBack, ← hdst,
      ← h.mem, List.drop_take, List.take_take, List.take_take, Nat.min_self,
      show s.dst - (s.dst - offs) = offs by omega, Nat.min_eq_left hw,
      show s.dst - offs = s.src by omega]
  obtain ⟨mem, hstore, hcopy⟩ := h.store (by omega) (le_of_eq hlen.symm) hword (s.src + w)
  refine ⟨_, ?_, hcopy, by dsimp only; omega⟩
  rw [sinfl_copy_word, hload, Option.bind_eq_bind, Option.bind_some, hstore]
  rfl

theorem Copying.write_word {front : Bytes} {c : UInt8} (h : Copying 1 (front ++ [c]) cap s n)
    (hw : 8 ≤ w)
    (hroom : (front ++ [c]).length + n + w ≤ cap) :
    ∃ s', sinfl_write_word w c s = some s' ∧ Copying 1 (front ++ [c]) cap s' (n + 8) := by
  have hdst := h.dst
  have hword : copyBack 1 (n + 8) (front ++ [c]) =
      copyBack 1 n (front ++ [c]) ++ (List.replicate w c).take 8 := by
    rw [copyBack_one, copyBack_one, List.take_replicate, Nat.min_eq_left hw,
      ← List.replicate_append_replicate, ← List.append_assoc]
  obtain ⟨mem, hstore, hcopy⟩ := h.store (by rw [List.length_replicate]; omega)
    (by rwa [List.length_replicate]) hword s.src
  refine ⟨_, ?_, hcopy⟩
  rw [sinfl_write_word, hstore]
  rfl

/-- The steps of a copy, when each of them goes on by `a`. -/
theorem do_spec {step : SinflPtrs → Option SinflPtrs} {I : SinflPtrs → ℕ → Prop} {pos : ℕ}
    (ha : 0 < a) (hdst : ∀ s n, I s n → s.dst = pos + n)
    (hstep : ∀ s n, I s n → n ≤ 2 * a ∨ n < len → ∃ s', step s = some s' ∧ I s' (n + a))
    (fuel : ℕ) (h : I s n) (hn : n ≤ 2 * a ∨ n < len) (hfuel : len ≤ n + fuel) (hpos : 0 < fuel) :
    ∃ s' m, sinfl_do step (pos + len) fuel s = some s' ∧ I s' m ∧ len ≤ m := by
  induction fuel generalizing s n with
  | zero => omega
  | succ fuel ih =>
    obtain ⟨s', hs', hI⟩ := hstep s n h hn
    have hnext := hdst s' _ hI
    rw [sinfl_do, hs', Option.bind_eq_bind, Option.bind_some]
    by_cases hlt : s'.dst < pos + len
    · rw [if_pos hlt]
      exact ih hI (by omega) (by omega) (by omega)
    · rw [if_neg hlt]
      exact ⟨s', n + a, rfl, hI, by omega⟩

/-- Two steps and the loop, with what every step keeps. -/
theorem steps_run {step : SinflPtrs → Option SinflPtrs} {I : SinflPtrs → ℕ → Prop} {pos : ℕ}
    (ha : 0 < a) (hdst : ∀ s n, I s n → s.dst = pos + n)
    (hstep : ∀ s n, I s n → n ≤ 2 * a ∨ n < len → ∃ s', step s = some s' ∧ I s' (n + a))
    (h : I s 0) : ∃ s' m, sinfl_steps step (pos + len) s = some s' ∧ I s' m ∧ len ≤ m := by
  obtain ⟨s₁, hs₁, h₁⟩ := hstep s 0 h (by omega)
  obtain ⟨s₂, hs₂, h₂⟩ := hstep s₁ (0 + a) h₁ (by omega)
  obtain ⟨s', m, hdo, hI, hle⟩ := do_spec ha hdst hstep (pos + len + 1) h₂ (by omega) (by omega)
    (by omega)
  refine ⟨s', m, ?_, hI, hle⟩
  rw [sinfl_steps, hs₁, Option.bind_eq_bind, Option.bind_some, hs₂, Option.bind_some, hdo]

theorem steps_spec {step : SinflPtrs → Option SinflPtrs} {I : SinflPtrs → ℕ → Prop} (ha : 0 < a)
    (hcopy : ∀ s n, I s n → Copying offs text cap s n)
    (hstep : ∀ s n, I s n → n ≤ 2 * a ∨ n < len → ∃ s', step s = some s' ∧ I s' (n + a))
    (h : I s 0) :
    ∃ s', sinfl_steps step (text.length + len) s = some s' ∧ s'.mem.length = cap ∧
      s'.mem.take (text.length + len) = copyBack offs len text := by
  obtain ⟨s', m, hrun, hI, hle⟩ := steps_run ha (fun s n hI => (hcopy s n hI).dst) hstep h
  have hlast := hcopy s' m hI
  refine ⟨s', hrun, hlast.size, ?_⟩
  rw [← take_copyBack offs text hle, ← hlast.mem, hlast.dst, List.take_take,
    Nat.min_eq_left (by omega)]

theorem steps_copy (len : ℕ) (hpos : 0 < w) (hw : w ≤ offs)
    (h : Copying offs text cap s 0) (hsrc : s.src + offs = s.dst)
    (hroom : text.length + 3 * w ≤ cap) (hend : text.length + len + w ≤ cap + 1) :
    ∃ s', sinfl_steps (sinfl_copy_word w) (text.length + len) s = some s' ∧ s'.mem.length = cap ∧
      s'.mem.take (text.length + len) = copyBack offs len text :=
  steps_spec (I := fun s n => Copying offs text cap s n ∧ s.src + offs = s.dst) hpos
    (fun _ _ hI => hI.1) (fun _ _ hI hn => hI.1.copy_word hI.2 hw (by omega)) ⟨h, hsrc⟩

theorem steps_write (len : ℕ) {front : Bytes} {c : UInt8} (hw : 8 ≤ w)
    (h : Copying 1 (front ++ [c]) cap s 0)
    (hroom : (front ++ [c]).length + 16 + w ≤ cap)
    (hend : (front ++ [c]).length + len + w ≤ cap + 1) :
    ∃ s', sinfl_steps (sinfl_write_word w c) ((front ++ [c]).length + len) s = some s' ∧
      s'.mem.length = cap ∧
        s'.mem.take ((front ++ [c]).length + len) = copyBack 1 len (front ++ [c]) :=
  steps_spec (I := Copying 1 (front ++ [c]) cap) (by decide) (fun _ _ hI => hI)
    (fun _ _ hI hn => hI.write_word hw (by omega)) h

/-- **The copy of a match** from before `out` stays in the buffer, and puts down what a copy byte by
byte does. -/
theorem copy_match_behind (simd : Bool) (mem : Bytes) (pos offs : ℕ) (hpos : 0 < offs)
    (hoffs : offs ≤ pos)
    (h3 : 3 ≤ len) (hout : pos + len ≤ mem.length) :
    ∃ p, sinfl_copy_match simd (mem.length - (pos + len)) offs (pos + len) ⟨mem, pos, pos - offs⟩ =
        some p ∧
      p.mem.length = mem.length ∧ p.mem.take (pos + len) = sinfl_copy offs len (mem.take pos) := by
  have hlen : (mem.take pos).length = pos := List.length_take_of_le (by omega)
  have hstart : Copying offs (mem.take pos) mem.length ⟨mem, pos, pos - offs⟩ 0 :=
    ⟨by rw [hlen, Nat.add_zero], rfl, rfl⟩
  have hcopy {w : ℕ} (hw0 : 0 < w) (hw : w ≤ offs) (hroom : pos + 3 * w ≤ mem.length)
      (hend : pos + len + w ≤ mem.length + 1) :
      ∃ p, sinfl_steps (sinfl_copy_word w) (pos + len) ⟨mem, pos, pos - offs⟩ = some p ∧
        p.mem.length = mem.length ∧ p.mem.take (pos + len) = sinfl_copy offs len (mem.take pos) := by
    have h := steps_copy len hw0 hw hstart (Nat.sub_add_cancel hoffs) (by omega) (by omega)
    rwa [hlen, ← sinfl_copy_eq] at h
  have hwrite {w : ℕ} (hw : 8 ≤ w) (h1 : offs = 1) (hroom : pos + 16 + w ≤ mem.length)
      (hend : pos + len + w ≤ mem.length + 1) :
      ∃ p, (do
          let c ← Buffer.get mem (pos - offs)
          sinfl_steps (sinfl_write_word w c) (pos + len) ⟨mem, pos, pos - offs⟩) = some p ∧
        p.mem.length = mem.length ∧ p.mem.take (pos + len) = sinfl_copy offs len (mem.take pos) := by
    have hlast : pos - offs < mem.length := by omega
    -- the byte repeated is the last one written
    have htext : mem.take pos = mem.take (pos - offs) ++ [mem[pos - offs]] := by
      rw [List.take_append_getElem, show pos - offs + 1 = pos by omega]
    rw [Buffer.get, List.getElem?_eq_getElem hlast, Option.bind_eq_bind, Option.bind_some]
    rw [h1, htext] at hstart
    rw [htext] at hlen
    have h := steps_write len hw hstart (by omega) (by omega)
    rwa [hlen, ← htext, ← sinfl_copy_eq, ← h1] at h
  cases simd with
  | true =>
    rw [sinfl_copy_match, if_pos rfl, sinfl_copy_simd]
    split_ifs with hroom h16 h8 h1
    · exact hcopy (by decide) h16 (by omega) (by omega)
    · exact hcopy (by decide) h8 (by omega) (by omega)
    · exact hwrite (by decide) h1 (by omega) (by omega)
    · exact hcopy (by decide) hpos (by omega) (by omega)
    · exact hcopy (by decide) hpos (by omega) (by omega)
  | false =>
    rw [sinfl_copy_match, if_neg Bool.false_ne_true, sinfl_copy_no_simd]
    split_ifs with hroom h8 h1
    · exact hcopy (by decide) h8 (by omega) (by omega)
    · exact hwrite (by decide) h1 (by omega) (by omega)
    · exact hcopy (by decide) hpos (by omega) (by omega)
    · exact hcopy (by decide) hpos (by omega) (by omega)

/-- A byte that is copied to its own place changes nothing. -/
theorem copy_byte_self (hself : s.src = s.dst) (hroom : s.dst < s.mem.length) :
    sinfl_copy_byte s = some ⟨s.mem, s.dst + 1, s.src + 1⟩ := by
  have hbyte : (s.mem.drop s.dst).take 1 = [s.mem[s.dst]] := by
    rw [List.drop_eq_getElem_cons hroom, List.take_succ_cons, List.take_zero]
  have hload : Buffer.load s.mem s.src 1 = some [s.mem[s.dst]] := by
    rw [hself, Buffer.load_of_le (by omega), hbyte]
  have hstore : Buffer.store s.mem s.dst [s.mem[s.dst]] = some s.mem := by
    rw [Buffer.store, if_pos (by rw [List.length_singleton]; omega), List.length_singleton,
      List.take_append_getElem, List.take_append_drop]
  rw [sinfl_copy_byte, sinfl_copy_word, hload, Option.bind_eq_bind, Option.bind_some, hstore]
  rfl

/-- **The copy of a match at offset 0** leaves the buffer as it is, on every build: no wide copy is
taken for it. -/
theorem copy_match_self (simd : Bool) (mem : Bytes) (pos : ℕ) (h3 : 3 ≤ len)
    (hout : pos + len ≤ mem.length) :
    ∃ p, sinfl_copy_match simd (mem.length - (pos + len)) 0 (pos + len) ⟨mem, pos, pos⟩ = some p ∧
      p.mem = mem := by
  have hbytes : sinfl_copy_match simd (mem.length - (pos + len)) 0 (pos + len) ⟨mem, pos, pos⟩ =
      sinfl_steps sinfl_copy_byte (pos + len) ⟨mem, pos, pos⟩ := by
    cases simd with
    | true =>
      rw [sinfl_copy_match, if_pos rfl, sinfl_copy_simd, if_neg (show ¬ 0 ≥ 16 by decide),
        if_neg (show ¬ 0 ≥ 8 by decide), if_neg (show ¬ 0 = 1 by decide), ite_self]
    | false =>
      rw [sinfl_copy_match, if_neg Bool.false_ne_true, sinfl_copy_no_simd,
        if_neg (show ¬ 0 ≥ 8 by decide), if_neg (show ¬ 0 = 1 by decide), ite_self]
  obtain ⟨p, m, hrun, hI, -⟩ : ∃ p m, sinfl_steps sinfl_copy_byte (pos + len) ⟨mem, pos, pos⟩ =
      some p ∧ (p.mem = mem ∧ p.src = p.dst ∧ p.dst = pos + m) ∧ len ≤ m := by
    refine steps_run (I := fun s n => s.mem = mem ∧ s.src = s.dst ∧ s.dst = pos + n)
      Nat.one_pos (fun _ _ hI => hI.2.2) ?_ ⟨rfl, rfl, rfl⟩
    rintro s n ⟨hmem, hself, hdst⟩ hn
    refine ⟨_, copy_byte_self hself (by rw [hmem]; omega), hmem, ?_, ?_⟩
    · dsimp only
      rw [hself]
    · dsimp only
      rw [hdst, Nat.add_assoc]
  exact ⟨p, hbytes.trans hrun, hI.1⟩

end Copies

/-! ## What is known of the buffer

`Shows` relates the cells of the buffer to the output over lists: where a byte is known the cell
holds it. A copy with offset zero leaves the cells as they are.
-/

/-- The bytes are as many as the cells, and every cell that is known is the byte there. -/
def Shows (bytes : Bytes) (out : Written) : Prop :=
  List.Forall₂ (fun v c => ∀ u, c = some u → v = u) bytes out

section Shows

variable {bytes more : Bytes} {out out' : Written}

theorem Shows.length_eq (h : Shows bytes out) : bytes.length = out.length :=
  List.Forall₂.length_eq h

theorem shows_known (bytes : Bytes) : Shows bytes (sinfl_known bytes) :=
  List.forall₂_map_right_iff.mpr (List.forall₂_same.mpr fun _ _ _ hu => Option.some.inj hu)

/-- Where all is known there is nothing to choose. -/
theorem shows_known_iff {x : Bytes} : Shows bytes (sinfl_known x) ↔ bytes = x := by
  refine ⟨fun h => ?_, fun h => h ▸ shows_known bytes⟩
  have heq : List.Forall₂ Eq bytes x :=
    (List.forall₂_map_right_iff.mp h).imp fun _ v hv => hv v rfl
  rwa [List.forall₂_eq_eq_eq] at heq

theorem Shows.append (h : Shows bytes out) (h' : Shows more out') :
    Shows (bytes ++ more) (out ++ out') :=
  List.rel_append h h'

/-- Nothing is known of the new bytes. -/
theorem Shows.unknown (h : Shows bytes out) (more : Bytes) :
    Shows (bytes ++ more) (out ++ List.replicate more.length none) := by
  refine h.append ?_
  induction more with
  | nil => exact .nil
  | cons v more ih => exact .cons (fun _ hu => nomatch hu) ih

/-- A byte and its cell. -/
theorem Shows.getD (h : Shows bytes out) {i : ℕ} (hi : i < out.length) (u : UInt8)
    (hu : out.getD i default = some u) : bytes.getD i default = u := by
  have hi' : i < bytes.length := h.length_eq ▸ hi
  rw [List.getD_eq_getElem _ _ hi] at hu
  rw [List.getD_eq_getElem _ _ hi']
  exact List.Forall₂.get h hi' hi u hu

/-- Copied byte by byte from before the end, what is known is copied too. -/
theorem Shows.copy (h : Shows bytes out) {offs : ℕ} (hpos : 0 < offs) (hoffs : offs ≤ out.length)
    (len : ℕ) : Shows (sinfl_copy offs len bytes) (sinfl_copy offs len out) := by
  induction len generalizing bytes out with
  | zero => exact h
  | succ len ih =>
    rw [sinfl_copy, sinfl_copy, h.length_eq]
    refine ih (h.append (.cons ?_ .nil)) ?_
    · exact h.getD (by omega)
    · rw [List.length_append]
      omega

/-- What is copied to its own place is not known. -/
theorem copy_zero (len : ℕ) (out : Written) :
    sinfl_copy 0 len out = out ++ List.replicate len none := by
  induction len generalizing out with
  | zero => rw [sinfl_copy, List.replicate_zero, List.append_nil]
  | succ len ih =>
    have hend : out.getD out.length default = none :=
      List.getD_eq_default _ _ le_rfl
    rw [sinfl_copy, Nat.sub_zero, hend, ih, List.append_assoc, List.singleton_append,
      ← List.replicate_succ]

/-- **The copy of a match** stays in the buffer, and what is known of it stands there. -/
theorem copy_match_spec (simd : Bool) (mem : Bytes) (pos offs len : ℕ) (hoffs : offs ≤ pos)
    (h3 : 3 ≤ len) (hout : pos + len ≤ mem.length) (hshows : Shows (mem.take pos) out) :
    ∃ p, sinfl_copy_match simd (mem.length - (pos + len)) offs (pos + len) ⟨mem, pos, pos - offs⟩ =
        some p ∧
      p.mem.length = mem.length ∧ Shows (p.mem.take (pos + len)) (sinfl_copy offs len out) := by
  have hlen : out.length = pos := by
    rw [← hshows.length_eq, List.length_take_of_le (by omega)]
  rcases Nat.eq_zero_or_pos offs with rfl | hpos
  · obtain ⟨p, hcopy, hmem⟩ := copy_match_self simd mem pos h3 hout
    have hrest : ((mem.drop pos).take len).length = len :=
      List.length_take_of_le (by rw [List.length_drop]; omega)
    have hmore := hshows.unknown ((mem.drop pos).take len)
    rw [hrest] at hmore
    refine ⟨p, hcopy, congrArg List.length hmem, ?_⟩
    rw [hmem, copy_zero, List.take_add]
    exact hmore
  · obtain ⟨p, hcopy, hsize, htake⟩ := copy_match_behind simd mem pos offs hpos hoffs h3 hout
    refine ⟨p, hcopy, hsize, ?_⟩
    rw [htake]
    exact hshows.copy hpos (by omega) len

end Shows

/-! ## The decoders side by side

Function by function, and then from the start of the stream.
-/

/-- The buffer holds what is written. -/
structure SinflBuf.Holds (b : SinflBuf) (cap : ℕ) (out : Written) : Prop where
  size : b.mem.length = cap
  le : b.pos ≤ cap
  shows_out : Shows b.out out

/-- Both parts end alike, and what they hand on corresponds. -/
inductive Alike {α β : Type} (R : α → β → Prop) :
    Option (SinflOut Bytes α) → Option (SinflOut Written β) → Prop
  | none : Alike R none none
  | ret {bytes : Bytes} {out : Written} (h : Shows bytes out) :
      Alike R (some (.ret bytes)) (some (.ret out))
  | full : Alike R (some .full) (some .full)
  | go {a : α} {b : β} (h : R a b) : Alike R (some (.go a)) (some (.go b))

theorem Alike.bind {α β γ : Type} {R : α → β → Prop} (x : Option γ)
    {f : γ → Option (SinflOut Bytes α)} {g : γ → Option (SinflOut Written β)}
    (h : ∀ c, Alike R (f c) (g c)) : Alike R (x.bind f) (x.bind g) := by
  rcases x with _ | c
  · exact .none
  · exact h c

section Alike

variable {cap : ℕ} {b : SinflBuf} {out : Written}

theorem SinflBuf.Holds.length (h : b.Holds cap out) : out.length = b.pos := by
  rw [← h.shows_out.length_eq, SinflBuf.out, List.length_take_of_le]
  rw [h.size]
  exact h.le

theorem SinflBuf.Holds.put (h : b.Holds cap out) (bytes : Bytes)
    (hroom : out.length + bytes.length ≤ cap) :
    ∃ b', b.put bytes = some b' ∧ b'.Holds cap (out ++ sinfl_known bytes) := by
  have hlen := h.length
  have hsize := h.size
  have hbytes : (b.mem.take b.pos ++ bytes).length = b.pos + bytes.length := by
    rw [List.length_append, List.length_take_of_le (by omega)]
  refine ⟨⟨b.mem.take b.pos ++ bytes ++ b.mem.drop (b.pos + bytes.length), b.pos + bytes.length⟩,
    ?_, ?_, ?_, ?_⟩
  · rw [SinflBuf.put, Buffer.store, if_pos (by omega)]
    rfl
  · dsimp only
    rw [List.length_append, hbytes, List.length_drop]
    omega
  · dsimp only
    omega
  · rw [SinflBuf.out, List.take_left' hbytes]
    exact h.shows_out.append (shows_known bytes)

/-- What a part with a flag hands on. -/
def AlikeRound (cap : ℕ) (x : Bool × Sinfl × SinflBuf) (y : Bool × Sinfl × Written) : Prop :=
  x.1 = y.1 ∧ x.2.1 = y.2.1 ∧ x.2.2.Holds cap y.2.2

/-- What the body of a block hands on. -/
def AlikeBody (cap : ℕ) (x : Sinfl × SinflBuf) (y : Sinfl × Written) : Prop :=
  x.1 = y.1 ∧ x.2.Holds cap y.2

/-- What a block hands on. -/
def AlikeBlock (cap : ℕ) (x : Sinfl × SinflTables × SinflBuf) (y : Sinfl × SinflTables × Written) :
    Prop :=
  x.1 = y.1 ∧ x.2.1 = y.2.1 ∧ x.2.2.Holds cap y.2.2

theorem stored_alike (inp : Bytes) (s : Sinfl) (h : b.Holds cap out) :
    Alike (AlikeBody cap) (sinfl_stored_buf inp s b) (sinfl_stored inp cap s out) := by
  apply Alike.bind
  rintro ⟨_, s₁⟩
  apply Alike.bind
  rintro ⟨len, s₂⟩
  apply Alike.bind
  rintro ⟨nlen, s₃⟩
  dsimp only
  generalize s₃.bitptr - (if s₃.bitcnt / 8 > s₃.bitptr then s₃.bitptr else s₃.bitcnt / 8) = bitptr
  rw [h.size, ← h.length]
  by_cases hlens : len ≠ 0xffff - nlen
  · rw [if_pos hlens, if_pos hlens]
    exact .ret h.shows_out
  rw [if_neg hlens, if_neg hlens]
  by_cases hmore : len > inp.length - bitptr
  · rw [if_pos hmore, if_pos hmore]
    exact .ret h.shows_out
  rw [if_neg hmore, if_neg hmore]
  by_cases hroom : out.length + len > cap
  · rw [if_pos hroom, if_pos hroom]
    exact .full
  rw [if_neg hroom, if_neg hroom]
  have hbytes : ((inp.drop bitptr).take len).length = len :=
    List.length_take_of_le (by rw [List.length_drop]; omega)
  obtain ⟨b', hput, hb'⟩ := h.put ((inp.drop bitptr).take len) (by omega)
  rw [hput]
  exact .go ⟨rfl, hb'⟩

/-- Every length of a match is three or more. -/
theorem lbase_ge : ∀ sym, sym < 29 → 3 ≤ sinfl_lbase.getD sym 0 := by decide

theorem match_alike (simd : Bool) (dsts : List ℕ) {sym : ℕ} (hsym : 256 ≤ sym) (s : Sinfl)
    (h : b.Holds cap out) :
    Alike (AlikeRound cap) (sinfl_match_buf simd dsts sym s b) (sinfl_match cap dsts sym s out) := by
  rw [sinfl_match_buf, sinfl_match]
  by_cases hend : sym = 256
  · rw [if_pos hend, if_pos hend]
    exact .go ⟨rfl, rfl, h⟩
  rw [if_neg hend, if_neg hend]
  by_cases hbad : sym ≥ 286
  · rw [if_pos hbad, if_pos hbad]
    exact .ret h.shows_out
  rw [if_neg hbad, if_neg hbad]
  apply Alike.bind
  rintro ⟨x, s₁⟩
  apply Alike.bind
  rintro ⟨dsym, s₂⟩
  apply Alike.bind
  rintro ⟨y, s₃⟩
  dsimp only
  have h3 : 3 ≤ x + sinfl_lbase.getD (sym - 257) 0 := by
    have := lbase_ge (sym - 257) (by omega)
    omega
  generalize x + sinfl_lbase.getD (sym - 257) 0 = len at h3 ⊢
  generalize y + sinfl_dbase.getD dsym 0 = offs
  have hlen := h.length
  rw [hlen, h.size]
  by_cases hroom : b.pos + len > cap
  · rw [if_pos hroom, if_pos hroom]
    exact .full
  rw [if_neg hroom, if_neg hroom]
  by_cases hoffs : offs > b.pos
  · rw [if_pos hoffs, if_pos hoffs]
    exact .none
  rw [if_neg hoffs, if_neg hoffs]
  obtain ⟨p, hcopy, hsize, hshows⟩ := copy_match_spec simd b.mem b.pos offs len (by omega) h3
    (by rw [h.size]; omega) h.shows_out
  rw [h.size] at hcopy hsize
  rw [hcopy]
  exact .go ⟨rfl, rfl, hsize, by dsimp only; omega, hshows⟩

theorem round_alike (simd : Bool) (inp : Bytes) (t : SinflTables) (s : Sinfl) (h : b.Holds cap out) :
    Alike (AlikeRound cap) (sinfl_round_buf simd inp t s b) (sinfl_round inp cap t s out) := by
  apply Alike.bind
  rintro ⟨sym, s₁⟩
  dsimp only
  by_cases hlit : sym < 256
  · rw [if_pos hlit, if_pos hlit, ← h.length, h.size]
    by_cases hfull : out.length ≥ cap
    · rw [if_pos hfull, if_pos hfull]
      exact .full
    rw [if_neg hfull, if_neg hfull]
    obtain ⟨b', hput, hb'⟩ := h.put [UInt8.ofNat sym] (by rw [List.length_singleton]; omega)
    rw [hput, Option.bind_eq_bind, Option.bind_some]
    apply Alike.bind
    rintro ⟨sym', s₂⟩
    dsimp only
    have hone : sinfl_known [UInt8.ofNat sym] = [some (UInt8.ofNat sym)] := rfl
    rw [hone] at hb'
    by_cases hlit' : sym' < 256
    · rw [if_pos hlit', if_pos hlit', ← hb'.length, hb'.size]
      by_cases hfull' : (out ++ [some (UInt8.ofNat sym)]).length ≥ cap
      · rw [if_pos hfull', if_pos hfull']
        exact .full
      rw [if_neg hfull', if_neg hfull']
      obtain ⟨b'', hput', hb''⟩ := hb'.put [UInt8.ofNat sym']
        (by rw [List.length_singleton]; omega)
      rw [hput']
      exact .go ⟨rfl, rfl, hb''⟩
    · rw [if_neg hlit', if_neg hlit']
      exact match_alike simd t.dsts (by omega) s₂ hb'
  · rw [if_neg hlit, if_neg hlit]
    exact match_alike simd t.dsts (by omega) s₁ h

theorem blk_alike (simd : Bool) (inp : Bytes) (t : SinflTables) (fuel : ℕ) (s : Sinfl)
    (h : b.Holds cap out) :
    Alike (AlikeBody cap) (sinfl_blk_buf simd inp t fuel s b) (sinfl_blk inp cap t fuel s out) := by
  induction fuel generalizing s b out with
  | zero => exact .none
  | succ fuel ih =>
    have hround := round_alike simd inp t s h
    rw [sinfl_blk_buf, sinfl_blk]
    generalize sinfl_round_buf simd inp t s b = x at hround ⊢
    generalize sinfl_round inp cap t s out = y at hround ⊢
    cases hround with
    | none => exact .none
    | ret h => exact .ret h
    | full => exact .full
    | @go a a' h =>
      obtain ⟨f, s₁, b₁⟩ := a
      obtain ⟨f', s₁', out₁⟩ := a'
      obtain ⟨rfl, rfl, hb⟩ := h
      cases f with
      | true => exact .go ⟨rfl, hb⟩
      | false => exact ih _ hb

theorem Alike.carry {x : Option (SinflOut Bytes (Sinfl × SinflBuf))}
    {y : Option (SinflOut Written (Sinfl × Written))} (t : SinflTables)
    (h : Alike (AlikeBody cap) x y) :
    Alike (AlikeBlock cap) (x.map (sinfl_carry t)) (y.map (sinfl_carry t)) := by
  cases h with
  | none => exact .none
  | ret h => exact .ret h
  | full => exact .full
  | go h => exact .go ⟨h.1, rfl, h.2⟩

theorem block_alike (simd : Bool) (inp : Bytes) (type : ℕ) (s : Sinfl) (t : SinflTables)
    (h : b.Holds cap out) :
    Alike (AlikeBlock cap) (sinfl_block_buf simd inp type s t b)
      (sinfl_block inp cap type s t out) := by
  rw [sinfl_block_buf, sinfl_block, h.size]
  split_ifs with h0 h1 h2
  · exact (stored_alike inp s h).carry t
  · exact (blk_alike simd inp _ _ s h).carry _
  · apply Alike.bind
    rintro ⟨s₁, t₁⟩
    exact (blk_alike simd inp t₁ _ s₁ h).carry t₁
  · exact .ret h.shows_out

theorem blocks_alike (simd : Bool) (inp : Bytes) (fuel : ℕ) (s : Sinfl) (t : SinflTables)
    (h : b.Holds cap out) :
    Option.Rel (Option.Rel Shows) (sinfl_blocks_buf simd inp fuel s t b)
      (sinfl_blocks inp cap fuel s t out) := by
  induction fuel generalizing s t b out with
  | zero => exact .none
  | succ fuel ih =>
    rw [sinfl_blocks_buf, sinfl_blocks]
    rcases pakka_sinfl__get (pakka_sinfl_refill inp s) 1 with _ | ⟨last, s₁⟩
    · exact .none
    simp only [Option.bind_eq_bind, Option.bind_some]
    rcases pakka_sinfl__get s₁ 2 with _ | ⟨type, s₂⟩
    · exact .none
    simp only [Option.bind_some]
    have hblock := block_alike simd inp type s₂ t h
    generalize sinfl_block_buf simd inp type s₂ t b = x at hblock ⊢
    generalize sinfl_block inp cap type s₂ t out = y at hblock ⊢
    cases hblock with
    | none => exact .none
    | ret h => exact .some (.some h)
    | full => exact .some .none
    | @go a a' h =>
      obtain ⟨s₃, t₃, b₃⟩ := a
      obtain ⟨s₃', t₃', out₃⟩ := a'
      obtain ⟨rfl, rfl, hb⟩ := h
      show Option.Rel _ (if last ≠ 0 then some (some b₃.out) else _)
        (if last ≠ 0 then some (some out₃) else _)
      split_ifs
      · exact .some (.some hb.shows_out)
      · exact ih _ _ hb

end Alike

/-- Where all is known, the bytes are the same. -/
theorem buffer_known (simd : Bool) {mem inp x : Bytes}
    (h : pakka_sinflate mem.length inp = some (some (sinfl_known x))) :
    pakka_sinflate_buf simd mem inp = some (some x) := by
  have hrel := blocks_alike simd inp (8 * inp.length + 1) ⟨0, 0, 0⟩ ⟨[], []⟩
    (b := ⟨mem, 0⟩) ⟨rfl, Nat.zero_le mem.length, .nil⟩
  change Option.Rel _ (pakka_sinflate_buf simd mem inp) (pakka_sinflate mem.length inp) at hrel
  rw [h] at hrel
  generalize pakka_sinflate_buf simd mem inp = r at hrel
  rcases hrel with ⟨⟨hshows⟩⟩ | _
  rw [shows_known_iff.mp hshows]

/-- **The decoder over the buffer is the decoder over cells**: with wide copies and without, and
whatever the buffer held, it refuses the same streams, returns the same count, and holds every byte
that is known. -/
theorem sinflate_buffer (simd : Bool) (mem inp : Bytes) :
    Option.Rel (Option.Rel Shows) (pakka_sinflate_buf simd mem inp)
      (pakka_sinflate mem.length inp) :=
  blocks_alike simd inp _ _ _ ⟨rfl, Nat.zero_le _, .nil⟩

end Pakka
