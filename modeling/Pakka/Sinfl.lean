/-
The vendored decoder, `vendor/sinfl/sinfl.h`.

The reader is a 64-bit buffer over the input with a count of the bits that are promised; a failing
`assert` gives no result, and neither does an access outside an object. Decoding tables are arrays
with no end. A `while` is a recursion on a count it cannot use up: lengths are below 16, a code has
at most `symcnt` words, a round of a block writes a byte or ends the block, and a block takes a bit
of the input. A match is copied byte by byte; the wide copies are in a module of their own.

What stands in the output is a list of cells, `Written`: a byte that the decoder put there, or
nothing where it left what was in the buffer. The source has an output pointer and an end; the cells
are what lies between the start of the buffer and the pointer.
-/
import Pakka.Basic
import Pakka.Lib.Cells
import Mathlib.Data.Nat.Log

set_option autoImplicit false
set_option linter.style.nameCheck false

namespace Pakka

open Cells ByteImage

/-! ## The reader

Refill, look, drop. A refill reads eight bytes or, near the end, what is left.
-/

/-- The fields of `struct pakka_sinfl` that the reader uses. `bitptr` counts from the start of the
input. -/
structure Sinfl where
  bitptr : ℕ
  bitbuf : ℕ
  bitcnt : ℕ
  deriving DecidableEq, Repr

/-- `pakka_sinfl_read64`. -/
def pakka_sinfl_read64 (b : Bytes) : ℕ :=
  (b.getD 0 0).toNat ||| (b.getD 1 0).toNat <<< 8 ||| (b.getD 2 0).toNat <<< 16 |||
    (b.getD 3 0).toNat <<< 24 ||| (b.getD 4 0).toNat <<< 32 ||| (b.getD 5 0).toNat <<< 40 |||
    (b.getD 6 0).toNat <<< 48 ||| (b.getD 7 0).toNat <<< 56

def pakka_sinfl_refill (inp : Bytes) (s : Sinfl) : Sinfl :=
  let avail := inp.length - s.bitptr
  let n := if avail ≥ 8 then pakka_sinfl_read64 (inp.drop s.bitptr)
    -- what is there, in a stub of zeros
    else pakka_sinfl_read64 (inp.drop s.bitptr ++ List.replicate (8 - avail) 0)
  let adv := (63 - s.bitcnt) >>> 3
  { bitbuf := (s.bitbuf ||| (n <<< s.bitcnt)) % 2 ^ 64
    bitptr := s.bitptr + (if adv > avail then avail else adv)
    bitcnt := s.bitcnt ||| 56 }

def pakka_sinfl_peek (s : Sinfl) (cnt : ℕ) : Option ℕ :=
  if cnt ≤ 56 ∧ cnt ≤ s.bitcnt then some (s.bitbuf &&& ((1 <<< cnt) - 1)) else none

def pakka_sinfl_eat (s : Sinfl) (cnt : ℕ) : Option Sinfl :=
  if cnt ≤ s.bitcnt then some { s with bitbuf := s.bitbuf >>> cnt, bitcnt := s.bitcnt - cnt }
  else none

/-- `pakka_sinfl__get`: without a refill. -/
def pakka_sinfl__get (s : Sinfl) (cnt : ℕ) : Option (ℕ × Sinfl) := do
  let res ← pakka_sinfl_peek s cnt
  let s ← pakka_sinfl_eat s cnt
  return (res, s)

def pakka_sinfl_get (inp : Bytes) (s : Sinfl) (cnt : ℕ) : Option (ℕ × Sinfl) :=
  pakka_sinfl__get (pakka_sinfl_refill inp s) cnt

/-! ## The decoding tables

A first table and behind it the sub-tables, in one array.
-/

/-- `struct pakka_sinfl_gen`: the length at hand, how many words of it are left, the next word and
the place of its symbol in `sort`. -/
structure SinflGen where
  len : ℕ
  cnt : ℕ
  word : ℕ
  sorted : ℕ

/-- The next word of a length whose greatest word is `ones`. -/
def sinfl_next_word (word ones : ℕ) : ℕ :=
  let bit := 1 <<< (word ^^^ ones).log2
  (word &&& (bit - 1)) ||| bit

/-- `while (!(gen->cnt = cnt[gen->len])) ++gen->len`. -/
def sinfl_first_len (cnt : List ℕ) : ℕ → ℕ → ℕ
  | 0, len => len
  | fuel + 1, len => if read cnt len = 0 then sinfl_first_len cnt fuel (len + 1) else len

/-- `memcpy(&tbl[tbl_end], tbl, tbl_end)`. -/
def sinfl_double (tbl : List ℕ) (tbl_end : ℕ) : List ℕ :=
  let low := tbl.take tbl_end ++ List.replicate (tbl_end - tbl.length) 0
  low ++ low ++ tbl.drop (2 * tbl_end)

/-- The words of one length in `pakka_sinfl_build_tbl`, with `k` of them left. The flag tells that
the greatest word was reached. -/
def sinfl_fill (sort : List ℕ) (len : ℕ) : ℕ → SinflGen × List ℕ → Bool × SinflGen × List ℕ
  | 0, (gen, tbl) => (false, gen, tbl)
  | k + 1, (gen, tbl) =>
    let tbl := write tbl gen.word ((read sort gen.sorted <<< 16) ||| len)
    let gen := { gen with sorted := gen.sorted + 1 }
    if gen.word = (1 <<< len) - 1 then (true, gen, tbl)
    else sinfl_fill sort len k
      ({ gen with word := sinfl_next_word gen.word ((1 <<< len) - 1), cnt := k }, tbl)

/-- `do { if (++gen->len <= tbl_bits) double the table } while (!(gen->cnt = cnt[gen->len]))`. The
end of the table is `1 << len` as long as the table grows. -/
def sinfl_next_len (cnt : List ℕ) (tbl_bits : ℕ) : ℕ → SinflGen × List ℕ → SinflGen × List ℕ
  | 0, s => s
  | fuel + 1, (gen, tbl) =>
    let tbl := if gen.len + 1 ≤ tbl_bits then sinfl_double tbl (1 <<< gen.len) else tbl
    let gen := { gen with len := gen.len + 1, cnt := read cnt (gen.len + 1) }
    if gen.cnt = 0 then sinfl_next_len cnt tbl_bits fuel (gen, tbl) else (gen, tbl)

/-- The outer loop of `pakka_sinfl_build_tbl`. The flag is its result. -/
def sinfl_build_tbl_loop (sort cnt : List ℕ) (tbl_bits : ℕ) :
    ℕ → SinflGen × List ℕ → Bool × SinflGen × List ℕ
  | 0, s => (false, s)
  | fuel + 1, (gen, tbl) =>
    if gen.len ≤ tbl_bits then
      match sinfl_fill sort gen.len gen.cnt (gen, tbl) with
      | (true, gen, tbl) =>
        -- `for (; gen->len < tbl_bits; gen->len++)` double the table
        (true, gen, (tbl_bits - gen.len).fold (fun i _ tbl =>
          sinfl_double tbl (1 <<< (gen.len + i))) tbl)
      | (false, gen, tbl) =>
        sinfl_build_tbl_loop sort cnt tbl_bits fuel (sinfl_next_len cnt tbl_bits 16 (gen, tbl))
    else (false, gen, tbl)

def pakka_sinfl_build_tbl (sort cnt : List ℕ) (gen : SinflGen) (tbl : List ℕ) (tbl_bits : ℕ) :
    Bool × SinflGen × List ℕ :=
  let len := sinfl_first_len cnt 16 gen.len
  sinfl_build_tbl_loop sort cnt tbl_bits 16 ({ gen with len := len, cnt := read cnt len }, tbl)

/-- The locals of `pakka_sinfl_build_subtbl`. No sub-table is open when `sub_prefix` is `none`. -/
structure SinflSub where
  gen : SinflGen
  sub_bits : ℕ
  sub_start : ℕ
  sub_prefix : Option ℕ
  tbl_end : ℕ
  tbl : List ℕ

/-- `while (used < (1 << sub_bits))`: how many bits the sub-table needs. -/
def sinfl_sub_bits (cnt : List ℕ) (tbl_bits : ℕ) : ℕ → ℕ → ℕ → ℕ
  | 0, sub_bits, _ => sub_bits
  | fuel + 1, sub_bits, used =>
    if used < 1 <<< sub_bits then
      sinfl_sub_bits cnt tbl_bits fuel (sub_bits + 1)
        ((used <<< 1) + read cnt (tbl_bits + (sub_bits + 1)))
    else sub_bits

/-- Start a new sub-table when the word's first bits are new. -/
def sinfl_sub_open (cnt : List ℕ) (tbl_bits : ℕ) (s : SinflSub) : SinflSub :=
  let pre := s.gen.word &&& ((1 <<< tbl_bits) - 1)
  if s.sub_prefix ≠ some pre then
    let sub_bits := sinfl_sub_bits cnt tbl_bits 16 (s.gen.len - tbl_bits) s.gen.cnt
    { s with
      sub_prefix := some pre
      sub_start := s.tbl_end
      sub_bits := sub_bits
      tbl_end := s.tbl_end + (1 <<< sub_bits)
      tbl := write s.tbl pre ((s.tbl_end <<< 16) ||| 0x10 ||| (sub_bits &&& 0xf)) }
  else s

/-- `do { tbl[i] = entry; i += stride; } while (i < tbl_end)`. -/
def sinfl_stride (entry stride tbl_end : ℕ) : ℕ → ℕ → List ℕ → List ℕ
  | 0, _, tbl => tbl
  | fuel + 1, i, tbl =>
    let tbl := write tbl i entry
    if i + stride < tbl_end then sinfl_stride entry stride tbl_end fuel (i + stride) tbl else tbl

/-- Fill the cells of a word in the open sub-table. -/
def sinfl_sub_fill (sort : List ℕ) (tbl_bits : ℕ) (s : SinflSub) : SinflSub :=
  let entry := (read sort s.gen.sorted <<< 16) ||| ((s.gen.len - tbl_bits) &&& 0xf)
  { s with
    gen := { s.gen with sorted := s.gen.sorted + 1 }
    tbl := sinfl_stride entry (1 <<< (s.gen.len - tbl_bits)) s.tbl_end s.tbl_end
      (s.sub_start + (s.gen.word >>> tbl_bits)) s.tbl }

/-- `while (!gen->cnt) gen->cnt = cnt[++gen->len]`. -/
def sinfl_sub_len (cnt : List ℕ) : ℕ → SinflGen → SinflGen
  | 0, gen => gen
  | fuel + 1, gen =>
    if gen.cnt = 0 then
      sinfl_sub_len cnt fuel { gen with len := gen.len + 1, cnt := read cnt (gen.len + 1) }
    else gen

/-- The loop of `pakka_sinfl_build_subtbl`, a word a round. -/
def sinfl_build_subtbl_loop (sort cnt : List ℕ) (tbl_bits : ℕ) : ℕ → SinflSub → List ℕ
  | 0, s => s.tbl
  | fuel + 1, s =>
    let s := sinfl_sub_fill sort tbl_bits (sinfl_sub_open cnt tbl_bits s)
    if s.gen.word = (1 <<< s.gen.len) - 1 then s.tbl
    else
      let word := sinfl_next_word s.gen.word ((1 <<< s.gen.len) - 1)
      let gen := sinfl_sub_len cnt 16 { s.gen with word := word, cnt := s.gen.cnt - 1 }
      sinfl_build_subtbl_loop sort cnt tbl_bits fuel { s with gen := gen }

def pakka_sinfl_build_subtbl (sort cnt : List ℕ) (gen : SinflGen) (tbl : List ℕ)
    (tbl_bits symcnt : ℕ) : List ℕ :=
  sinfl_build_subtbl_loop sort cnt tbl_bits symcnt ⟨gen, 0, 0, none, 1 <<< tbl_bits, tbl⟩

/-- `pakka_sinfl_build`. `tbl` is what the table holds before. -/
def pakka_sinfl_build (tbl lens : List ℕ) (tbl_bits maxlen symcnt : ℕ) : List ℕ :=
  let cnt := symcnt.fold (fun i _ cnt => write cnt (read lens i) (read cnt (read lens i) + 1)) []
  let off := write [] 1 (read cnt 0)
  let (off, used) := (maxlen - 1).fold (fun i _ s =>
    (write s.1 (i + 2) (read s.1 (i + 1) + read cnt (i + 1)), (s.2 <<< 1) + read cnt (i + 1)))
    (off, 0)
  let used := (used <<< 1) + read cnt maxlen
  let (off, sort) := symcnt.fold (fun i _ s =>
    (write s.1 (read lens i) (read s.1 (read lens i) + 1), write s.2 (read s.1 (read lens i)) i))
    (off, [])
  let gen : SinflGen := { len := 1, cnt := 0, word := 0, sorted := read off 0 }
  if used < 1 <<< maxlen then
    -- not a complete code: one bit a symbol, and the symbol is `0`
    (1 <<< tbl_bits).fold (fun i _ tbl => write tbl i 1) tbl
  else
    match pakka_sinfl_build_tbl sort cnt gen tbl tbl_bits with
    | (true, _, tbl) => tbl
    | (false, gen, tbl) => pakka_sinfl_build_subtbl sort cnt gen tbl tbl_bits symcnt

/-- `pakka_sinfl_decode`. -/
def pakka_sinfl_decode (s : Sinfl) (tbl : List ℕ) (bit_len : ℕ) : Option (ℕ × Sinfl) := do
  let idx ← pakka_sinfl_peek s bit_len
  let key := read tbl idx
  if key &&& 0x10 ≠ 0 then
    let s ← pakka_sinfl_eat s bit_len
    let idx ← pakka_sinfl_peek s (key &&& 0x0f)
    let key := read tbl (((key >>> 16) &&& 0xffff) + idx)
    let s ← pakka_sinfl_eat s (key &&& 0x0f)
    return ((key >>> 16) &&& 0x0fff, s)
  else
    let s ← pakka_sinfl_eat s (key &&& 0x0f)
    return ((key >>> 16) &&& 0x0fff, s)

/-! ## Blocks

The three kinds of blocks. What a copy with offset zero produces is not known, and the output says
so; everything else does not depend on it.
-/

/-- The output as far as `out` has gone. A byte is unknown where the decoder did not put one: a match
from 0 back (the distance symbols 30 and 31 have base 0 and no extra bits) reads the place it writes
to, and leaves there what the buffer of the caller held. -/
abbrev Written := List (Option UInt8)

/-- Bytes that are known. -/
def sinfl_known (b : Bytes) : Written := b.map some

@[simp] theorem length_known (b : Bytes) : (sinfl_known b).length = b.length := List.length_map _

theorem known_append (a b : Bytes) : sinfl_known (a ++ b) = sinfl_known a ++ sinfl_known b :=
  List.map_append

theorem known_inj {a b : Bytes} : sinfl_known a = sinfl_known b ↔ a = b :=
  (List.map_injective_iff.mpr (Option.some_injective _)).eq_iff

/-- How a part of the decoder ends: with a result of the whole, what is written so far or `-2`, or
with what it hands on. -/
inductive SinflOut (ω α : Type) where
  | ret (out : ω)
  | full
  | go (a : α)
  deriving DecidableEq, Repr

/-- The two tables in `struct pakka_sinfl`. -/
structure SinflTables where
  lits : List ℕ
  dsts : List ℕ

def sinfl_order : List ℕ := [16, 17, 18, 0, 8, 7, 9, 6, 10, 5, 11, 4, 12, 3, 13, 2, 14, 1, 15]

def sinfl_dbase : List ℕ := [1, 2, 3, 4, 5, 7, 9, 13, 17, 25, 33, 49, 65, 97, 129, 193, 257, 385,
  513, 769, 1025, 1537, 2049, 3073, 4097, 6145, 8193, 12289, 16385, 24577]

def sinfl_dbits : List ℕ := [0, 0, 0, 0, 1, 1, 2, 2, 3, 3, 4, 4, 5, 5, 6, 6, 7, 7, 8, 8, 9, 9, 10,
  10, 11, 11, 12, 12, 13, 13, 0, 0]

def sinfl_lbase : List ℕ := [3, 4, 5, 6, 7, 8, 9, 10, 11, 13, 15, 17, 19, 23, 27, 31, 35, 43, 51,
  59, 67, 83, 99, 115, 131, 163, 195, 227, 258, 0, 0]

def sinfl_lbits : List ℕ := [0, 0, 0, 0, 0, 0, 0, 0, 1, 1, 1, 1, 2, 2, 2, 2, 3, 3, 3, 3, 4, 4, 4,
  4, 5, 5, 5, 5, 0, 0, 0]

/-- `case stored`. -/
def sinfl_stored (inp : Bytes) (cap : ℕ) (s : Sinfl) (out : Written) :
    Option (SinflOut Written (Sinfl × Written)) := do
  let (_, s) ← pakka_sinfl__get s (s.bitcnt &&& 7)
  let (len, s) ← pakka_sinfl__get s 16
  let (nlen, s) ← pakka_sinfl__get s 16
  let rewind := if s.bitcnt / 8 > s.bitptr then s.bitptr else s.bitcnt / 8
  let bitptr := s.bitptr - rewind
  if len ≠ 0xffff - nlen then return .ret out
  if len > inp.length - bitptr then return .ret out
  if out.length + len > cap then return .full
  return .go (⟨bitptr + len, 0, 0⟩, out ++ sinfl_known ((inp.drop bitptr).take len))

/-- `case fixed`. -/
def sinfl_fixed (t : SinflTables) : SinflTables :=
  let lens := List.replicate 144 8 ++ List.replicate 112 9 ++ List.replicate 24 7 ++
    List.replicate 8 8 ++ List.replicate 32 5
  { lits := pakka_sinfl_build t.lits lens 10 15 288
    dsts := pakka_sinfl_build t.dsts (lens.drop 288) 8 15 32 }

/-- The lengths of the code for code lengths, in their order. -/
def sinfl_nlens (inp : Bytes) : List ℕ → Sinfl × List ℕ → Option (Sinfl × List ℕ)
  | [], r => some r
  | sym :: order, (s, nlens) => do
    let (len, s) ← pakka_sinfl_get inp s 3
    sinfl_nlens inp order (s, write nlens sym len)

/-- A run of one length. `lens` is the part of the array that is written, and it has 320 places. -/
def sinfl_run (lens : List ℕ) (len i : ℕ) : Option (List ℕ) :=
  if lens.length + i ≤ 320 then some (lens ++ List.replicate i len) else none

/-- A round of the loop that decodes the code lengths. -/
def sinfl_lens_round (inp : Bytes) (hlens : List ℕ) (s : Sinfl) (lens : List ℕ) :
    Option (Sinfl × List ℕ) := do
  let (sym, s) ← pakka_sinfl_decode (pakka_sinfl_refill inp s) hlens 7
  if sym = 16 then
    let (i, s) ← pakka_sinfl_get inp s 2
    let len ← lens.getLast?
    let lens ← sinfl_run lens len (3 + i)
    return (s, lens)
  else if sym = 17 then
    let (i, s) ← pakka_sinfl_get inp s 3
    let lens ← sinfl_run lens 0 (3 + i)
    return (s, lens)
  else if sym = 18 then
    let (i, s) ← pakka_sinfl_get inp s 7
    let lens ← sinfl_run lens 0 (11 + i)
    return (s, lens)
  else
    let lens ← sinfl_run lens (sym % 256) 1
    return (s, lens)

/-- The loop that decodes the code lengths. -/
def sinfl_lens (inp : Bytes) (hlens : List ℕ) (total : ℕ) :
    ℕ → Sinfl → List ℕ → Option (Sinfl × List ℕ)
  | 0, _, _ => none
  | fuel + 1, s, lens =>
    if lens.length < total then do
      let (s, lens) ← sinfl_lens_round inp hlens s lens
      sinfl_lens inp hlens total fuel s lens
    else some (s, lens)

/-- `case dyn`. -/
def sinfl_dyn (inp : Bytes) (s : Sinfl) (t : SinflTables) : Option (Sinfl × SinflTables) := do
  let s := pakka_sinfl_refill inp s
  let (x, s) ← pakka_sinfl__get s 5
  let nlit := 257 + x
  let (x, s) ← pakka_sinfl__get s 5
  let ndist := 1 + x
  let (x, s) ← pakka_sinfl__get s 4
  let nlen := 4 + x
  let (s, nlens) ← sinfl_nlens inp (sinfl_order.take nlen) (s, [])
  let hlens := pakka_sinfl_build [] nlens 7 7 19
  let (s, lens) ← sinfl_lens inp hlens (nlit + ndist) 321 s []
  return (s, { lits := pakka_sinfl_build t.lits lens 10 15 nlit
               dsts := pakka_sinfl_build t.dsts (lens.drop nlit) 8 15 ndist })

/-- `*dst++ = *src++`, `len` times, with `src` at `offs` behind. What stands at `dst` itself is the
default of the type. -/
def sinfl_copy {α : Type} [Inhabited α] (offs : ℕ) : ℕ → List α → List α
  | 0, out => out
  | len + 1, out => sinfl_copy offs len (out ++ [out.getD (out.length - offs) default])

/-- A symbol that is no literal: the end of the block, or a match. The flag tells which. -/
def sinfl_match (cap : ℕ) (dsts : List ℕ) (sym : ℕ) (s : Sinfl) (out : Written) :
    Option (SinflOut Written (Bool × Sinfl × Written)) :=
  if sym = 256 then some (.go (true, s, out))
  else if sym ≥ 286 then some (.ret out)
  else do
    let sym := sym - 257
    let (x, s) ← pakka_sinfl__get s (sinfl_lbits.getD sym 0)
    let len := x + sinfl_lbase.getD sym 0
    let (dsym, s) ← pakka_sinfl_decode s dsts 8
    let (y, s) ← pakka_sinfl__get s (sinfl_dbits.getD dsym 0)
    let offs := y + sinfl_dbase.getD dsym 0
    if out.length + len > cap then return .full
    -- before the buffer
    if offs > out.length then none
    return .go (false, s, sinfl_copy offs len out)

/-- A round of `case blk`. The second symbol comes without a refill. -/
def sinfl_round (inp : Bytes) (cap : ℕ) (t : SinflTables) (s : Sinfl) (out : Written) :
    Option (SinflOut Written (Bool × Sinfl × Written)) := do
  let (sym, s) ← pakka_sinfl_decode (pakka_sinfl_refill inp s) t.lits 10
  if sym < 256 then
    if out.length ≥ cap then return .full
    let out := out ++ [some (UInt8.ofNat sym)]
    let (sym, s) ← pakka_sinfl_decode s t.lits 10
    if sym < 256 then
      if out.length ≥ cap then return .full
      return .go (false, s, out ++ [some (UInt8.ofNat sym)])
    sinfl_match cap t.dsts sym s out
  else sinfl_match cap t.dsts sym s out

/-- `case blk`. -/
def sinfl_blk (inp : Bytes) (cap : ℕ) (t : SinflTables) :
    ℕ → Sinfl → Written → Option (SinflOut Written (Sinfl × Written))
  | 0, _, _ => none
  | fuel + 1, s, out => do
    match ← sinfl_round inp cap t s out with
    | .ret out => return .ret out
    | .full => return .full
    | .go (true, s, out) => return .go (s, out)
    | .go (false, s, out) => sinfl_blk inp cap t fuel s out

/-- What a block hands on, with the tables. -/
def sinfl_carry {ω β : Type} (t : SinflTables) :
    SinflOut ω (Sinfl × β) → SinflOut ω (Sinfl × SinflTables × β)
  | .ret out => .ret out
  | .full => .full
  | .go (s, out) => .go (s, t, out)

/-- The block of a type, after its header. -/
def sinfl_block (inp : Bytes) (cap type : ℕ) (s : Sinfl) (t : SinflTables) (out : Written) :
    Option (SinflOut Written (Sinfl × SinflTables × Written)) :=
  if type = 0 then (sinfl_stored inp cap s out).map (sinfl_carry t)
  else if type = 1 then
    (sinfl_blk inp cap (sinfl_fixed t) (cap + 1) s out).map (sinfl_carry (sinfl_fixed t))
  else if type = 2 then do
    let (s, t) ← sinfl_dyn inp s t
    (sinfl_blk inp cap t (cap + 1) s out).map (sinfl_carry t)
  else some (.ret out)

/-- `while (1) switch (state)`, a block a round. The result is what is written, or `-2`. -/
def sinfl_blocks (inp : Bytes) (cap : ℕ) :
    ℕ → Sinfl → SinflTables → Written → Option (Option Written)
  | 0, _, _, _ => none
  | fuel + 1, s, t, out => do
    let (last, s) ← pakka_sinfl__get (pakka_sinfl_refill inp s) 1
    let (type, s) ← pakka_sinfl__get s 2
    match ← sinfl_block inp cap type s t out with
    | .ret out => return some out
    | .full => return none
    | .go (s, t, out) => if last ≠ 0 then return some out else sinfl_blocks inp cap fuel s t out

/-- `pakka_sinfl_decompress`: what is in the buffer up to the count returned, or `-2`. -/
def pakka_sinfl_decompress (cap : ℕ) (inp : Bytes) : Option (Option Written) :=
  sinfl_blocks inp cap (8 * inp.length + 1) ⟨0, 0, 0⟩ ⟨[], []⟩ []

/-- `pakka_sinflate`. -/
def pakka_sinflate (cap : ℕ) (inp : Bytes) : Option (Option Written) :=
  pakka_sinfl_decompress cap inp

end Pakka
