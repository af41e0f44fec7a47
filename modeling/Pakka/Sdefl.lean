/-
The vendored encoder, `vendor/sdefl/sdefl.h`, above the code construction.

The bits that are not yet a byte are in an accumulator, the bytes behind them in `out`. The tables
of the match finder are functions from their indices, `-1` for no position. A sequence is a run of
literals, at an offset of the input, or a match, with its distance as a negative offset. A failing
`assert` gives no result. A `while` is a recursion on a count it cannot use up: a round of a block
takes a byte of it, and every block takes a byte of the input.

The match finder may look at any position its tables name, so its model reads the input at any
index, with a default behind the end. Levels are numbers and only their thresholds occur. The
functions that build the codes are in `SdeflHuff.lean`.
-/
import Pakka.SdeflHuff

set_option autoImplicit false

namespace Pakka

open Cells ByteImage Function

abbrev PAKKA_SDEFL_WIN_SIZ : ℕ := 1 <<< 15
abbrev PAKKA_SDEFL_WIN_MSK : ℕ := PAKKA_SDEFL_WIN_SIZ - 1
abbrev PAKKA_SDEFL_HASH_BITS : ℕ := 15
abbrev PAKKA_SDEFL_MIN_MATCH : ℕ := 4
abbrev PAKKA_SDEFL_BLK_MAX : ℕ := 256 * 1024
abbrev PAKKA_SDEFL_SEQ_SIZ : ℕ := (PAKKA_SDEFL_BLK_MAX + 2) / 3
abbrev PAKKA_SDEFL_LVL_DEF : ℕ := 5
abbrev PAKKA_SDEFL_NIL : ℤ := -1
abbrev PAKKA_SDEFL_MAX_MATCH : ℕ := 258
abbrev PAKKA_SDEFL_RAW_BLK_SIZE : ℕ := 65535
abbrev PAKKA_SDEFL_EOB : ℕ := 256

abbrev INT_MAX : ℕ := 2147483647

def pakka_sdefl_div_round_up (n d : ℕ) : ℕ := (n + (d - 1)) / d

def pakka_sdefl_ilog2 (n : ℕ) : ℕ := if n = 0 then 0 else n.log2

def pakka_sdefl_npow2 (n : ℕ) : ℕ := 1 <<< (pakka_sdefl_ilog2 (n - 1) + 1)

/-! ## The state

The accumulator, the code tables, the sequences and the counts, as the source's structures have
them.
-/

/-- `bits`, `bitcnt` and what is written in front of `*dst`. -/
structure SdeflBits where
  out : Bytes
  bits : ℕ
  bitcnt : ℕ
  deriving DecidableEq, Repr

/-- `struct pakka_sdefl_codes`. -/
structure SdeflCod where
  litLen : List ℕ
  litWord : List ℕ
  offLen : List ℕ
  offWord : List ℕ

/-- `struct pakka_sdefl_seqt`. -/
structure SdeflSeq where
  off : ℤ
  len : ℕ
  deriving DecidableEq, Repr

/-- `struct pakka_sdefl`. `seq_cnt` is the length of `seq`. -/
structure Sdefl where
  w : SdeflBits
  tbl : ℕ → ℤ
  prv : ℕ → ℤ
  seq : List SdeflSeq
  freqLit : List ℕ
  freqOff : List ℕ
  cod : SdeflCod

/-! ## Bits

Bits go into the accumulator above those that are there, and whole bytes leave it below.
-/

/-- `while (s->bitcnt >= 8)`. -/
def sdefl_put_loop : ℕ → SdeflBits → SdeflBits
  | 0, w => w
  | fuel + 1, w =>
    if w.bitcnt ≥ 8 then
      sdefl_put_loop fuel
        ⟨w.out ++ [UInt8.ofNat (w.bits &&& 0xff)], w.bits >>> 8, w.bitcnt - 8⟩
    else w

def pakka_sdefl_put (w : SdeflBits) (code bitcnt : ℕ) : SdeflBits :=
  sdefl_put_loop (w.bitcnt + bitcnt)
    { w with bits := w.bits ||| (code <<< w.bitcnt), bitcnt := w.bitcnt + bitcnt }

def pakka_sdefl_put16 (w : SdeflBits) (x : ℕ) : SdeflBits :=
  { w with out := w.out ++ [UInt8.ofNat (x &&& 0xff), UInt8.ofNat (x >>> 8)] }

/-! ## The lengths of the codes, as they are written

Runs are looked for from the left, and what is left of a run that is too short goes out length by
length.
-/

/-- The frequencies and the items of the code lengths. -/
structure SdeflPre where
  freqs : List ℕ
  items : List ℕ
  deriving DecidableEq, Repr

/-- `freqs[sym]++; *at++ = sym | (xbits << 5)`. -/
def sdefl_emit (p : SdeflPre) (sym xbits : ℕ) : SdeflPre :=
  { freqs := write p.freqs sym (read p.freqs sym + 1), items := p.items ++ [sym ||| (xbits <<< 5)] }

/-- `for (cnt = MAX; cnt > least; cnt--) if (lens[cnt - 1]) break`. -/
def sdefl_trim (lens : List ℕ) (least : ℕ) : ℕ → ℕ
  | 0 => 0
  | k + 1 => if k + 1 > least ∧ read lens k = 0 then sdefl_trim lens least k else k + 1

/-- `do run_end++; while (run_end != total && len == lens[run_end])`. -/
def sdefl_run_end (lens : List ℕ) (total len : ℕ) : ℕ → ℕ → ℕ
  | 0, run_end => run_end
  | fuel + 1, run_end =>
    if run_end + 1 ≠ total ∧ len = read lens (run_end + 1) then
      sdefl_run_end lens total len fuel (run_end + 1)
    else run_end + 1

/-- `while (run_end - run_start >= 11)`, with `n` for the difference. -/
def sdefl_run_zeros : ℕ → ℕ → SdeflPre → ℕ × SdeflPre
  | 0, n, p => (n, p)
  | fuel + 1, n, p =>
    if n ≥ 11 then
      let xbits := if n - 11 < 0x7f then n - 11 else 0x7f
      sdefl_run_zeros fuel (n - (11 + xbits)) (sdefl_emit p 18 xbits)
    else (n, p)

/-- `do ... while (run_end - run_start >= 3)`. -/
def sdefl_run_same : ℕ → ℕ → SdeflPre → ℕ × SdeflPre
  | 0, n, p => (n, p)
  | fuel + 1, n, p =>
    let xbits := if n - 3 < 3 then n - 3 else 3
    let p := sdefl_emit p 16 xbits
    let n := n - (3 + xbits)
    if n ≥ 3 then sdefl_run_same fuel n p else (n, p)

/-- `while (run_start != run_end)`. -/
def sdefl_run_plain (len : ℕ) : ℕ → SdeflPre → SdeflPre
  | 0, p => p
  | n + 1, p => sdefl_run_plain len n (sdefl_emit p len 0)

/-- A run of `n` equal lengths. -/
def sdefl_write_run (len n : ℕ) (p : SdeflPre) : SdeflPre :=
  if len = 0 then
    let (n, p) := sdefl_run_zeros n n p
    if n ≥ 3 then
      let xbits := if n - 3 < 7 then n - 3 else 7
      sdefl_run_plain len (n - (3 + xbits)) (sdefl_emit p 17 xbits)
    else sdefl_run_plain len n p
  else if n ≥ 4 then
    let (n, p) := sdefl_run_same n (n - 1) (sdefl_emit p len 0)
    sdefl_run_plain len n p
  else sdefl_run_plain len n p

/-- `do ... while (run_start != total)`. -/
def sdefl_runs (lens : List ℕ) (total : ℕ) : ℕ → ℕ → SdeflPre → SdeflPre
  | 0, _, p => p
  | fuel + 1, run_start, p =>
    let len := read lens run_start
    let run_end := sdefl_run_end lens total len total run_start
    let p := sdefl_write_run len (run_end - run_start) p
    if run_end ≠ total then sdefl_runs lens total fuel run_end p else p

/-- `struct pakka_sdefl_symcnt`; `items` is the length of the list. -/
structure SdeflSymcnt where
  lit : ℕ
  off : ℕ

def pakka_sdefl_precode (litlen offlen : List ℕ) : SdeflSymcnt × SdeflPre :=
  let lit := sdefl_trim litlen 257 PAKKA_SDEFL_SYM_MAX
  let off := sdefl_trim offlen 1 PAKKA_SDEFL_OFF_MAX
  let lens := (List.range lit).map (read litlen) ++ (List.range off).map (read offlen)
  (⟨lit, off⟩, sdefl_runs lens (lit + off) (lit + off) 0 ⟨[], []⟩)

/-! ## Matches

Slots, extra bits and bases, by arithmetic on bit lengths.
-/

/-- `struct pakka_sdefl_match_codest`. -/
structure SdeflMatchCodes where
  ls : ℕ
  lc : ℕ
  dc : ℕ
  dx : ℕ

def sdefl_dxmax : List ℕ :=
  [0, 6, 12, 24, 48, 96, 192, 384, 768, 1536, 3072, 6144, 12288, 24576]

def sdefl_lslot : List ℕ :=
  [0, 0, 0, 0, 1, 2, 3, 4, 5, 6, 7] ++ List.replicate 2 8 ++ List.replicate 2 9 ++
    List.replicate 2 10 ++ List.replicate 2 11 ++ List.replicate 4 12 ++ List.replicate 4 13 ++
    List.replicate 4 14 ++ List.replicate 4 15 ++ List.replicate 8 16 ++ List.replicate 8 17 ++
    List.replicate 8 18 ++ List.replicate 8 19 ++ List.replicate 16 20 ++ List.replicate 16 21 ++
    List.replicate 16 22 ++ List.replicate 16 23 ++ List.replicate 32 24 ++
    List.replicate 32 25 ++ List.replicate 32 26 ++ List.replicate 31 27 ++ [28]

def pakka_sdefl_match_codes (dist len : ℕ) : Option SdeflMatchCodes :=
  let ls := sdefl_lslot.getD len 0
  let lc := 257 + ls
  let dx := pakka_sdefl_ilog2 (pakka_sdefl_npow2 dist >>> 2)
  let dc := if dx ≠ 0 then ((dx + 1) <<< 1) + (if dist > sdefl_dxmax.getD dx 0 then 1 else 0)
    else dist - 1
  if len ≤ 258 ∧ dist ≤ 32768 ∧ lc ≤ 285 then some ⟨ls, lc, dc, dx⟩ else none

def sdefl_lxn : List ℕ := [0, 0, 0, 0, 0, 0, 0, 0, 1, 1, 1, 1, 2, 2, 2, 2, 3, 3, 3, 3, 4, 4, 4, 4, 5,
  5, 5, 5, 0]

def sdefl_lmin : List ℕ := [3, 4, 5, 6, 7, 8, 9, 10, 11, 13, 15, 17, 19, 23, 27, 31, 35, 43, 51, 59,
  67, 83, 99, 115, 131, 163, 195, 227, 258]

def sdefl_dmin : List ℕ := [1, 2, 3, 4, 5, 7, 9, 13, 17, 25, 33, 49, 65, 97, 129, 193, 257, 385, 513,
  769, 1025, 1537, 2049, 3073, 4097, 6145, 8193, 12289, 16385, 24577]

/-- `pakka_sdefl_match`. -/
def pakka_sdefl_match (cod : SdeflCod) (w : SdeflBits) (dist len : ℕ) : Option SdeflBits := do
  let c ← pakka_sdefl_match_codes dist len
  let w := pakka_sdefl_put w (read cod.litWord c.lc) (read cod.litLen c.lc)
  let w := pakka_sdefl_put w (len - sdefl_lmin.getD c.ls 0) (sdefl_lxn.getD c.ls 0)
  let w := pakka_sdefl_put w (read cod.offWord c.dc) (read cod.offLen c.dc)
  return pakka_sdefl_put w (dist - sdefl_dmin.getD c.dc 0) c.dx

/-! ## Blocks

The cost of each form, the choice, and the writing of the block in it.
-/

inductive SdeflBlkType where
  | ucompr
  | dyn
  deriving DecidableEq

def sdefl_x_pre_bits : List ℕ := [0, 0, 0, 0, 0, 0, 0, 0, 0, 0, 0, 0, 0, 0, 0, 0, 2, 3, 7]

def sdefl_x_off_bits : List ℕ := [0, 0, 0, 0, 1, 1, 2, 2, 3, 3, 4, 4, 5, 5, 6, 6, 7, 7, 8, 8, 9, 9,
  10, 10, 11, 11, 12, 12, 13, 13]

/-- The sum of `f` over `lo, ..., hi - 1`. -/
def sdefl_cost (lo hi : ℕ) (f : ℕ → ℕ) : ℕ := ((List.range' lo (hi - lo)).map f).sum

/-- `dyn_cost`, the bits of the block with codes of its own. -/
def sdefl_dyn_cost (s : Sdefl) (pre_item_len : ℕ) (pre_freq pre_len : List ℕ) : ℕ :=
  5 + 5 + 4 + 3 * pre_item_len +
    sdefl_cost 0 PAKKA_SDEFL_PRE_MAX (fun sym =>
      read pre_freq sym * (sdefl_x_pre_bits.getD sym 0 + read pre_len sym)) +
    sdefl_cost 0 256 (fun sym => read s.freqLit sym * read s.cod.litLen sym) +
    read s.cod.litLen PAKKA_SDEFL_EOB +
    sdefl_cost 257 286 (fun sym =>
      read s.freqLit sym * (sdefl_lxn.getD (sym - 257) 0 + read s.cod.litLen sym)) +
    sdefl_cost 0 30 (fun sym =>
      read s.freqOff sym * (sdefl_x_off_bits.getD sym 0 + read s.cod.offLen sym))

/-- `fix_cost`, the bits of the block as it is. -/
def sdefl_fix_cost (blk_len : ℕ) : ℕ :=
  8 * (5 * pakka_sdefl_div_round_up blk_len PAKKA_SDEFL_RAW_BLK_SIZE + blk_len + 1 + 2)

def pakka_sdefl_blk_type (s : Sdefl) (blk_len pre_item_len : ℕ) (pre_freq pre_len : List ℕ) :
    SdeflBlkType :=
  if sdefl_dyn_cost s pre_item_len pre_freq pre_len < sdefl_fix_cost blk_len then .dyn else .ucompr

/-- A stored block of `amount` bytes at `at_`. -/
def sdefl_put_stored (inp : Bytes) (w : SdeflBits) (fin : Bool) (at_ amount : ℕ) :
    Option SdeflBits :=
  let w := pakka_sdefl_put w fin.toNat 1
  let w := pakka_sdefl_put w 0 2
  let w := if w.bitcnt ≠ 0 then pakka_sdefl_put w 0 (8 - w.bitcnt) else w
  if w.bitcnt ≠ 0 then none
  else
    let w := pakka_sdefl_put16 w amount
    let w := pakka_sdefl_put16 w (0xffff - amount)
    some { w with out := w.out ++ (inp.drop at_).take amount }

/-- `case PAKKA_SDEFL_BLK_UCOMPR`, with `k` of `n` rounds left. -/
def sdefl_ucompr (inp : Bytes) (is_last : Bool) (blk_begin n : ℕ) :
    ℕ → ℕ → SdeflBits → Option SdeflBits
  | 0, _, w => some w
  | k + 1, blk_len, w => do
    let i := n - (k + 1)
    let amount := if blk_len < PAKKA_SDEFL_RAW_BLK_SIZE then blk_len else PAKKA_SDEFL_RAW_BLK_SIZE
    let w ← sdefl_put_stored inp w (is_last && i + 1 = n) (blk_begin + i * PAKKA_SDEFL_RAW_BLK_SIZE)
      amount
    sdefl_ucompr inp is_last blk_begin n k (blk_len - amount) w

def sdefl_perm : List ℕ := [16, 17, 18, 0, 8, 7, 9, 6, 10, 5, 11, 4, 12, 3, 13, 2, 14, 1, 15]

/-- An item of the code lengths. -/
def sdefl_put_item (codes lens : List ℕ) (w : SdeflBits) (item : ℕ) : SdeflBits :=
  let sym := item &&& 0x1f
  let w := pakka_sdefl_put w (read codes sym) (read lens sym)
  if sym < 16 then w
  else if sym = 16 then pakka_sdefl_put w (item >>> 5) 2
  else if sym = 17 then pakka_sdefl_put w (item >>> 5) 3
  else pakka_sdefl_put w (item >>> 5) 7

/-- A sequence of the block. -/
def sdefl_put_seq (inp : Bytes) (cod : SdeflCod) (w : SdeflBits) (q : SdeflSeq) :
    Option SdeflBits :=
  if q.off ≥ 0 then
    some (((inp.drop q.off.toNat).take q.len).foldl (fun w c =>
      pakka_sdefl_put w (read cod.litWord c.toNat) (read cod.litLen c.toNat)) w)
  else pakka_sdefl_match cod w (-q.off).toNat q.len

/-- `case PAKKA_SDEFL_BLK_DYN`. -/
def sdefl_dynamic (inp : Bytes) (s : Sdefl) (is_last : Bool) (symcnt : SdeflSymcnt)
    (items codes lens : List ℕ) (item_cnt : ℕ) : Option SdeflBits := do
  let w := pakka_sdefl_put s.w is_last.toNat 1
  let w := pakka_sdefl_put w 2 2
  let w := pakka_sdefl_put w (symcnt.lit - 257) 5
  let w := pakka_sdefl_put w (symcnt.off - 1) 5
  let w := pakka_sdefl_put w (item_cnt - 4) 4
  let w := (sdefl_perm.take item_cnt).foldl (fun w sym => pakka_sdefl_put w (read lens sym) 3) w
  let w := items.foldl (sdefl_put_item codes lens) w
  let w ← s.seq.foldlM (sdefl_put_seq inp s.cod) w
  return pakka_sdefl_put w (read s.cod.litWord PAKKA_SDEFL_EOB) (read s.cod.litLen PAKKA_SDEFL_EOB)

/-- The codes of the block's symbols: `s->freq.lit[EOB]++` and `pakka_sdefl_huff` twice. -/
def sdefl_block_codes (s : Sdefl) : Sdefl :=
  let freqLit := write s.freqLit PAKKA_SDEFL_EOB (read s.freqLit PAKKA_SDEFL_EOB + 1)
  let (litLen, litWord) := pakka_sdefl_huff s.cod.litLen s.cod.litWord freqLit PAKKA_SDEFL_SYM_MAX
    PAKKA_SDEFL_LIT_LEN_CODES
  let (offLen, offWord) := pakka_sdefl_huff s.cod.offLen s.cod.offWord s.freqOff PAKKA_SDEFL_OFF_MAX
    PAKKA_SDEFL_OFF_CODES
  { s with freqLit := freqLit, cod := ⟨litLen, litWord, offLen, offWord⟩ }

/-- The code for the items: `preCode`. -/
def sdefl_pre_code (s : Sdefl) : List ℕ × List ℕ :=
  pakka_sdefl_huff [] [] (pakka_sdefl_precode s.cod.litLen s.cod.offLen).2.freqs PAKKA_SDEFL_PRE_MAX
    PAKKA_SDEFL_PRE_CODES

/-- The number of lengths of the code for the items that are sent. -/
def sdefl_item_cnt (lens : List ℕ) : ℕ :=
  sdefl_trim (sdefl_perm.map (read lens)) 4 PAKKA_SDEFL_PRE_MAX

/-- The type of a block, with its codes. -/
def sdefl_kind (s : Sdefl) (blk_len : ℕ) : SdeflBlkType :=
  pakka_sdefl_blk_type s blk_len (sdefl_item_cnt (sdefl_pre_code s).1)
    (pakka_sdefl_precode s.cod.litLen s.cod.offLen).2.freqs (sdefl_pre_code s).1

/-- What `pakka_sdefl_flush` puts out. -/
def sdefl_block (inp : Bytes) (s : Sdefl) (is_last : Bool) (blk_begin blk_end : ℕ) :
    Option SdeflBits :=
  let blk_len := blk_end - blk_begin
  match sdefl_kind s blk_len with
  | .ucompr =>
    let n := pakka_sdefl_div_round_up blk_len PAKKA_SDEFL_RAW_BLK_SIZE
    sdefl_ucompr inp is_last blk_begin n n blk_len s.w
  | .dyn =>
    let symcnt := (pakka_sdefl_precode s.cod.litLen s.cod.offLen).1
    let items := (pakka_sdefl_precode s.cod.litLen s.cod.offLen).2.items
    sdefl_dynamic inp s is_last symcnt items (sdefl_pre_code s).2 (sdefl_pre_code s).1
      (sdefl_item_cnt (sdefl_pre_code s).1)

def pakka_sdefl_flush (inp : Bytes) (s : Sdefl) (is_last : Bool) (blk_begin blk_end : ℕ) :
    Option Sdefl := do
  let s := sdefl_block_codes s
  let w ← sdefl_block inp s is_last blk_begin blk_end
  return { s with w := w, freqLit := [], freqOff := [], seq := [] }

/-! ## Finding matches

Chains through the hash table, newest position first, up to a number of steps that depends on the
level.
-/

def pakka_sdefl_uload32 (inp : Bytes) (p : ℕ) : ℕ :=
  (inp.getD p 0).toNat ||| (inp.getD (p + 1) 0).toNat <<< 8 |||
    (inp.getD (p + 2) 0).toNat <<< 16 ||| (inp.getD (p + 3) 0).toNat <<< 24

def pakka_sdefl_hash32 (inp : Bytes) (p : ℕ) : ℕ :=
  (pakka_sdefl_uload32 inp p * 0x9E377989) % 2 ^ 32 >>> (32 - PAKKA_SDEFL_HASH_BITS)

/-- `struct pakka_sdefl_match`. The distance is positive: a chain leads to positions in front. -/
structure SdeflMatch where
  off : ℕ
  len : ℕ
  deriving DecidableEq, Repr

/-- `while (n < max_match && in[i + n] == in[p + n])`. -/
def sdefl_extend (inp : Bytes) (max_match i p e : ℕ) : ℕ → ℕ → Option ℕ
  | 0, n => some n
  | fuel + 1, n =>
    if n < max_match ∧ inp.getD (i + n) 0 = inp.getD (p + n) 0 then
      if i + n < e ∧ p + n < e then sdefl_extend inp max_match i p e fuel (n + 1) else none
    else some n

/-- The position `i` of a chain. The flag tells that nothing longer is possible. -/
def sdefl_try (inp : Bytes) (max_match i p e : ℕ) (m : SdeflMatch) : Option (Bool × SdeflMatch) :=
  if i + m.len < e ∧ p + m.len < e ∧ i + PAKKA_SDEFL_MIN_MATCH < e ∧
      p + PAKKA_SDEFL_MIN_MATCH < e then
    if inp.getD (i + m.len) 0 = inp.getD (p + m.len) 0 ∧
        pakka_sdefl_uload32 inp i = pakka_sdefl_uload32 inp p then do
      let n ← sdefl_extend inp max_match i p e max_match PAKKA_SDEFL_MIN_MATCH
      if n > m.len then some (n = max_match, ⟨p - i, n⟩) else some (false, m)
    else some (false, m)
  else none

/-- `while (i > limit)`, with `chain_len` more positions to go to. -/
def sdefl_fnd_loop (prv : ℕ → ℤ) (inp : Bytes) (max_match p e : ℕ) (limit : ℤ) :
    ℕ → ℤ → SdeflMatch → Option SdeflMatch
  | 0, _, m => some m
  | chain_len + 1, i, m =>
    if i > limit then do
      let (stop, m) ← sdefl_try inp max_match i.toNat p e m
      let next := prv (i.toNat &&& PAKKA_SDEFL_WIN_MSK)
      if stop then return m
      sdefl_fnd_loop prv inp max_match p e limit chain_len next m
    else some m

/-- `pakka_sdefl_fnd`, from `m = {0}`. -/
def pakka_sdefl_fnd (s : Sdefl) (chain_len max_match : ℕ) (inp : Bytes) (p e : ℕ) :
    Option SdeflMatch :=
  let i := s.tbl (pakka_sdefl_hash32 inp p)
  let limit : ℤ := if (p : ℤ) - PAKKA_SDEFL_WIN_SIZ < PAKKA_SDEFL_NIL then PAKKA_SDEFL_NIL
    else (p : ℤ) - PAKKA_SDEFL_WIN_SIZ
  if p < e ∧ p + max_match ≤ e then sdefl_fnd_loop s.prv inp max_match p e limit chain_len i ⟨0, 0⟩
  else none

def pakka_sdefl_seq (s : Sdefl) (off : ℤ) (len : ℕ) : Option Sdefl :=
  if s.seq.length + 2 < PAKKA_SDEFL_SEQ_SIZ then some { s with seq := s.seq ++ [⟨off, len⟩] }
  else none

def pakka_sdefl_reg_match (s : Sdefl) (off len : ℕ) : Option Sdefl := do
  let c ← pakka_sdefl_match_codes off len
  if c.lc < PAKKA_SDEFL_SYM_MAX ∧ c.dc < PAKKA_SDEFL_OFF_MAX then
    return { s with freqLit := write s.freqLit c.lc (read s.freqLit c.lc + 1)
                    freqOff := write s.freqOff c.dc (read s.freqOff c.dc + 1) }
  else none

/-! ## The input, block by block

The lazy step: at higher levels a match is put off by one letter if the next position has a longer
one.
-/

def sdefl_pref : List ℕ := [8, 10, 14, 24, 30, 48, 65, 96, 130]

/-- The encoder in a block: the state, the position and the literals since the last match. -/
structure SdeflLz where
  s : Sdefl
  i : ℕ
  litlen : ℕ

/-- `while (run-- > 0)`. -/
def sdefl_enter (inp : Bytes) (inc blk_end : ℕ) : ℕ → SdeflLz → Option SdeflLz
  | 0, z => some z
  | run + 1, z =>
    let h := pakka_sdefl_hash32 inp z.i
    let s := { z.s with
      prv := update z.s.prv (z.i &&& PAKKA_SDEFL_WIN_MSK) (z.s.tbl h)
      tbl := update z.s.tbl h z.i }
    if z.i + inc ≤ blk_end then
      sdefl_enter inp inc blk_end run { z with s := s, i := z.i + inc }
    else none

/-- Go on by `run * inc`. Near the end of the input nothing is entered in the tables. -/
def sdefl_advance (inp : Bytes) (run inc blk_end : ℕ) (z : SdeflLz) : Option SdeflLz :=
  if z.i + run * inc + PAKKA_SDEFL_MIN_MATCH < inp.length then sdefl_enter inp inc blk_end run z
  else if z.i + run * inc ≤ blk_end then some { z with i := z.i + run * inc }
  else none

/-- `if (litlen) pakka_sdefl_seq(s, i - litlen, litlen)`. -/
def sdefl_seq_lits (z : SdeflLz) : Option SdeflLz :=
  if z.litlen ≠ 0 then do
    let s ← pakka_sdefl_seq z.s ((z.i : ℤ) - z.litlen) z.litlen
    return { z with s := s, litlen := 0 }
  else some z

/-- The match at `i`, if it is not better to wait. -/
def sdefl_best (inp : Bytes) (lvl max_match nice_match : ℕ) (z : SdeflLz) : Option SdeflMatch := do
  let max_chain := if lvl < 8 then 1 <<< (lvl + 1) else 1 <<< 13
  let m ← if max_match > PAKKA_SDEFL_MIN_MATCH then
      pakka_sdefl_fnd z.s max_chain max_match inp z.i inp.length
    else some ⟨0, 0⟩
  if lvl ≥ 5 ∧ m.len ≥ PAKKA_SDEFL_MIN_MATCH ∧ m.len + 1 < nice_match then
    let m2 ← pakka_sdefl_fnd z.s max_chain (m.len + 1) inp (z.i + 1) inp.length
    return { m with len := if m2.len > m.len then 0 else m.len }
  else return m

/-- A round of `while (i < blk_end)`. -/
def sdefl_lz_round (inp : Bytes) (lvl blk_end : ℕ) (z : SdeflLz) : Option SdeflLz := do
  let left := blk_end - z.i
  let max_match := if left > PAKKA_SDEFL_MAX_MATCH then PAKKA_SDEFL_MAX_MATCH else left
  let pref := sdefl_pref.getD lvl 0
  let nice_match := if pref < max_match then pref else max_match
  let m ← sdefl_best inp lvl max_match nice_match z
  if m.len ≥ PAKKA_SDEFL_MIN_MATCH then
    let z ← sdefl_seq_lits z
    let s ← pakka_sdefl_seq z.s (-(m.off : ℤ)) m.len
    let s ← pakka_sdefl_reg_match s m.off m.len
    if lvl < 2 ∧ m.len ≥ nice_match then sdefl_advance inp 1 m.len blk_end { z with s := s }
    else sdefl_advance inp m.len 1 blk_end { z with s := s }
  else
    let c := (inp.getD z.i 0).toNat
    sdefl_advance inp 1 1 blk_end { z with
      s := { z.s with freqLit := write z.s.freqLit c (read z.s.freqLit c + 1) }
      litlen := z.litlen + 1 }

/-- `while (i < blk_end)`. -/
def sdefl_lz_loop (inp : Bytes) (lvl blk_end : ℕ) : ℕ → SdeflLz → Option SdeflLz
  | 0, z => some z
  | fuel + 1, z =>
    if z.i < blk_end then do
      let z ← sdefl_lz_round inp lvl blk_end z
      sdefl_lz_loop inp lvl blk_end fuel z
    else some z

/-- The end of the block that starts at `i`. -/
def sdefl_blk_end (inp : Bytes) (i : ℕ) : ℕ :=
  if i + PAKKA_SDEFL_BLK_MAX < inp.length then i + PAKKA_SDEFL_BLK_MAX else inp.length

/-- The block that starts at `i`, with its sequences, up to `pakka_sdefl_flush`. -/
def sdefl_sequences (inp : Bytes) (lvl : ℕ) (s : Sdefl) (i : ℕ) : Option SdeflLz := do
  let z ← sdefl_lz_loop inp lvl (sdefl_blk_end inp i) (sdefl_blk_end inp i - i) ⟨s, i, 0⟩
  sdefl_seq_lits z

/-- `do ... while (i < in_len)`, a block a round. The sum that the end of a block is compared with
is an `int`. -/
def sdefl_compr_loop (inp : Bytes) (lvl : ℕ) : ℕ → Sdefl → ℕ → Option Sdefl
  | 0, _, _ => none
  | fuel + 1, s, i =>
    if i + PAKKA_SDEFL_BLK_MAX > INT_MAX then none
    else do
      let z ← sdefl_sequences inp lvl s i
      let s ← pakka_sdefl_flush inp z.s (sdefl_blk_end inp i = inp.length) i (sdefl_blk_end inp i)
      if z.i < inp.length then sdefl_compr_loop inp lvl fuel s z.i else return s

/-- `pakka_sdefl_compr`. -/
def pakka_sdefl_compr (s : Sdefl) (inp : Bytes) (lvl : ℕ) : Option Bytes := do
  let s ← sdefl_compr_loop inp lvl (inp.length + 1) { s with tbl := fun _ => PAKKA_SDEFL_NIL } 0
  let w := if s.w.bitcnt ≠ 0 then pakka_sdefl_put s.w 0 (8 - s.w.bitcnt) else s.w
  if w.bitcnt = 0 then return w.out else none

/-- A state of zeros, as the callers hand it in. -/
def sdefl_zero : Sdefl := ⟨⟨[], 0, 0⟩, fun _ => 0, fun _ => 0, [], [], [], ⟨[], [], [], []⟩⟩

/-- `pakka_sdeflate` on a state of zeros. -/
def pakka_sdeflate (inp : Bytes) (lvl : ℕ) : Option Bytes := pakka_sdefl_compr sdefl_zero inp lvl

def pakka_sdefl_bound (len : ℕ) : ℕ :=
  let max_blocks := 1 + pakka_sdefl_div_round_up len PAKKA_SDEFL_RAW_BLK_SIZE
  5 * max_blocks + len + 1 + 4 + 8 + 3

end Pakka
