/-
The code construction of the vendored encoder, `vendor/sdefl/sdefl.h`: from the frequencies of
some symbols to the length and the word of each.

The symbols in use are sorted by frequency into an array `A`, a word of which holds a symbol in
its ten low bits and a number above them. The number is the frequency, then the frequency of the
tree node built in that cell, then the node's parent, then its depth; the symbols below stay.
Arrays have no end, and a loop is a recursion on its counter or on a count it cannot use up (the
heap's index at least doubles).

The sort is part of the construction and is modelled as it is, with its buckets and the heap sort of
the last one, although for the result only its being a permutation matters.
-/
import Pakka.Basic
import Pakka.Lib.Sorting

set_option autoImplicit false

namespace Pakka

open Cells

abbrev PAKKA_SDEFL_SYM_BITS : ℕ := 10
abbrev PAKKA_SDEFL_SYM_MSK : ℕ := (1 <<< PAKKA_SDEFL_SYM_BITS) - 1
abbrev PAKKA_SDEFL_LIT_LEN_CODES : ℕ := 14
abbrev PAKKA_SDEFL_OFF_CODES : ℕ := 15
abbrev PAKKA_SDEFL_PRE_CODES : ℕ := 7
abbrev PAKKA_SDEFL_SYM_MAX : ℕ := 288
abbrev PAKKA_SDEFL_OFF_MAX : ℕ := 32
abbrev PAKKA_SDEFL_PRE_MAX : ℕ := 19

/-- `PAKKA_SDEFL_CNT_NUM`. The quotient in it is `0`. -/
def PAKKA_SDEFL_CNT_NUM (n : ℕ) : ℕ := (n + 3 / 4 + 3) / 4 * 4

/-! ## Words of the array

Symbol and number share a word; each can be taken out and the number replaced.
-/

/-- The symbol of a word, `w & SYM_MSK`. -/
def sdefl_sym (w : ℕ) : ℕ := w &&& PAKKA_SDEFL_SYM_MSK

/-- The number above it, `w >> SYM_BITS`. -/
def sdefl_num (w : ℕ) : ℕ := w >>> PAKKA_SDEFL_SYM_BITS

/-- A symbol and a number in one word. -/
def sdefl_word (sym num : ℕ) : ℕ := sym ||| (num <<< PAKKA_SDEFL_SYM_BITS)

theorem sdefl_sym_eq (w : ℕ) : sdefl_sym w = w % 2 ^ 10 := by
  rw [sdefl_sym, show PAKKA_SDEFL_SYM_MSK = 2 ^ 10 - 1 from rfl, Nat.and_two_pow_sub_one_eq_mod]

theorem sdefl_sym_lt (w : ℕ) : sdefl_sym w < 2 ^ 10 := by
  rw [sdefl_sym_eq]
  exact Nat.mod_lt _ (by decide)

theorem sdefl_word_eq {sym : ℕ} (num : ℕ) (h : sym < 2 ^ 10) :
    sdefl_word sym num = num * 2 ^ 10 + sym := by
  rw [sdefl_word, Nat.lor_comm, ← Nat.shiftLeft_add_eq_or_of_lt h, Nat.shiftLeft_eq]

@[simp] theorem sdefl_sym_word {sym : ℕ} (num : ℕ) (h : sym < 2 ^ 10) :
    sdefl_sym (sdefl_word sym num) = sym := by
  rw [sdefl_sym_eq, sdefl_word_eq num h]
  omega

@[simp] theorem sdefl_num_word {sym : ℕ} (num : ℕ) (h : sym < 2 ^ 10) :
    sdefl_num (sdefl_word sym num) = num := by
  rw [sdefl_num, sdefl_word_eq num h, PAKKA_SDEFL_SYM_BITS, Nat.shiftRight_eq_div_pow]
  omega

/-! ## The heap sort

For the frequencies that are too great for a bucket of their own.
-/

/-- The cell of a heap index. The heap starts at `start`, and its indices at `1`. -/
def sdefl_heap_cell (start j : ℕ) : ℕ := start + j - 1

/-- The descent of `pakka_sdefl_heap_sub`: `v` is to be placed, `p` is the hole. -/
def pakka_sdefl_heap_sub_loop (start len v : ℕ) : ℕ → List ℕ → ℕ → List ℕ
  | 0, A, p => write A (sdefl_heap_cell start p) v
  | fuel + 1, A, p =>
    let at_ := fun j => read A (sdefl_heap_cell start j)
    let c := p <<< 1
    if c ≤ len then
      let c := if c < len ∧ at_ (c + 1) > at_ c then c + 1 else c
      if v ≥ at_ c then write A (sdefl_heap_cell start p) v
      else pakka_sdefl_heap_sub_loop start len v fuel (write A (sdefl_heap_cell start p) (at_ c)) c
    else write A (sdefl_heap_cell start p) v

def pakka_sdefl_heap_sub (start : ℕ) (A : List ℕ) (len sub : ℕ) : List ℕ :=
  pakka_sdefl_heap_sub_loop start len (read A (sdefl_heap_cell start sub)) len A sub

def pakka_sdefl_heap_array (start : ℕ) (A : List ℕ) (len : ℕ) : List ℕ :=
  (len >>> 1).foldRev (fun i _ A => pakka_sdefl_heap_sub start A len (i + 1)) A

/-- The loop of `pakka_sdefl_heap_sort`. -/
def pakka_sdefl_heap_sort_loop (start : ℕ) : ℕ → List ℕ → List ℕ
  | n + 2, A =>
    let tmp := read A (sdefl_heap_cell start (n + 2))
    let A := write A (sdefl_heap_cell start (n + 2)) (read A (sdefl_heap_cell start 1))
    let A := write A (sdefl_heap_cell start 1) tmp
    pakka_sdefl_heap_sort_loop start (n + 1) (pakka_sdefl_heap_sub start A (n + 1) 1)
  | _, A => A

/-- `pakka_sdefl_heap_sort` of the `n` cells from `start` on. -/
def pakka_sdefl_heap_sort (A : List ℕ) (start n : ℕ) : List ℕ :=
  pakka_sdefl_heap_sort_loop start n (pakka_sdefl_heap_array start A n)

/-! ## Sorting the symbols

Buckets by frequency, the last one sorted by the heap sort.
-/

/-- The bucket of a frequency. -/
def sdefl_bucket (cnt_num freq : ℕ) : ℕ := if freq < cnt_num - 1 then freq else cnt_num - 1

/-- One symbol of the last loop of `pakka_sdefl_sort_sym`: the places, the array, the lengths. -/
def sdefl_place_sym (cnt_num : ℕ) (freqs : List ℕ) (sym : ℕ) (t : List ℕ × List ℕ × List ℕ) :
    List ℕ × List ℕ × List ℕ :=
  let freq := read freqs sym
  if freq ≠ 0 then
    let idx := sdefl_bucket cnt_num freq
    (write t.1 idx (read t.1 idx + 1), write t.2.1 (read t.1 idx) (sdefl_word sym freq), t.2.2)
  else (t.1, t.2.1, write t.2.2 sym 0)

/-- `pakka_sdefl_sort_sym`: how many symbols are in use, the array, and the lengths with a zero
for every symbol that is not. -/
def pakka_sdefl_sort_sym (sym_cnt : ℕ) (freqs lens sym_out : List ℕ) : ℕ × List ℕ × List ℕ :=
  let cnt_num := PAKKA_SDEFL_CNT_NUM sym_cnt
  let cnts := sym_cnt.fold (fun sym _ cnts =>
    let b := sdefl_bucket cnt_num (read freqs sym)
    write cnts b (read cnts b + 1)) []
  -- each bucket from the first on becomes the place where it starts
  let s := (cnt_num - 1).fold (fun i _ s =>
    (write s.1 (i + 1) s.2, s.2 + read s.1 (i + 1))) (cnts, 0)
  let t := sym_cnt.fold (fun sym _ t => sdefl_place_sym cnt_num freqs sym t) (s.1, sym_out, lens)
  let start := read t.1 (cnt_num - 2)
  (s.2, pakka_sdefl_heap_sort t.2.1 start (read t.1 (cnt_num - 1) - start), t.2.2)

/-! ## The tree

The merge of two queues, both in the one array.
-/

/-- The state of the merge: the array, the next leaf and the next node without a parent. -/
structure SdeflMerge where
  A : List ℕ
  i : ℕ
  b : ℕ

/-- Whether the next leaf is taken rather than the next node, with `e` nodes built. -/
def sdefl_takes_leaf (sym_cnt e : ℕ) (s : SdeflMerge) : Prop :=
  s.i ≠ sym_cnt ∧ (s.b = e ∨ sdefl_num (read s.A s.i) ≤ sdefl_num (read s.A s.b))

instance (sym_cnt e : ℕ) (s : SdeflMerge) : Decidable (sdefl_takes_leaf sym_cnt e s) :=
  inferInstanceAs (Decidable (_ ∧ _))

/-- One of the two picks of a round: the cell picked and the state after it. -/
def sdefl_pick (sym_cnt e : ℕ) (s : SdeflMerge) : ℕ × SdeflMerge :=
  if sdefl_takes_leaf sym_cnt e s then (s.i, { s with i := s.i + 1 })
  else (s.b, { s with b := s.b + 1 })

/-- What a round writes: the node `e` is made the parent of `m` and of `n`. -/
def sdefl_join (A : List ℕ) (m n e : ℕ) : List ℕ :=
  let freq := sdefl_num (read A m) + sdefl_num (read A n)
  let A := write A m (sdefl_word (sdefl_sym (read A m)) e)
  let A := write A n (sdefl_word (sdefl_sym (read A n)) e)
  write A e (sdefl_word (sdefl_sym (read A e)) freq)

/-- One round of `pakka_sdefl_build_tree`. -/
def sdefl_merge_step (sym_cnt e : ℕ) (s : SdeflMerge) : SdeflMerge :=
  let m := sdefl_pick sym_cnt e s
  let n := sdefl_pick sym_cnt e m.2
  { n.2 with A := sdefl_join s.A m.1 n.1 e }

/-- `pakka_sdefl_build_tree`, for at least two symbols. -/
def pakka_sdefl_build_tree (A : List ℕ) (sym_cnt : ℕ) : List ℕ :=
  ((sym_cnt - 1).fold (fun e _ s => sdefl_merge_step sym_cnt e s) ⟨A, 0, 0⟩).A

/-! ## Lengths

The depths of the leaves, with those beyond the limit shortened and others lengthened for it.
-/

/-- `do len--; while (!len_cnt[len])`. -/
def sdefl_shorter (len_cnt : List ℕ) : ℕ → ℕ
  | 0 => 0
  | len + 1 => if read len_cnt len ≠ 0 then len else sdefl_shorter len_cnt len

/-- A leaf of length `len` becomes two that are one longer. -/
def sdefl_split_leaf (len_cnt : List ℕ) (len : ℕ) : List ℕ :=
  let len_cnt := write len_cnt len (read len_cnt len - 1)
  write len_cnt (len + 1) (read len_cnt (len + 1) + 2)

/-- One step of `pakka_sdefl_gen_len_cnt`, for node `n`. -/
def sdefl_len_step (max_code_len n : ℕ) (s : List ℕ × List ℕ) : List ℕ × List ℕ :=
  let p := sdefl_num (read s.1 n)
  let depth := sdefl_num (read s.1 p) + 1
  let len := if depth ≥ max_code_len then sdefl_shorter s.2 max_code_len else depth
  (write s.1 n (sdefl_word (sdefl_sym (read s.1 n)) depth), sdefl_split_leaf s.2 len)

/-- `pakka_sdefl_gen_len_cnt`: the array and the number of words of each length. -/
def pakka_sdefl_gen_len_cnt (A : List ℕ) (root max_code_len : ℕ) : List ℕ × List ℕ :=
  root.foldRev (fun n _ s => sdefl_len_step max_code_len n s)
    (write A root (sdefl_sym (read A root)), write [] 1 2)

/-! ## Codes

Lengths to symbols, numbers to lengths, and the words reversed for the stream.
-/

/-- The first loop of `pakka_sdefl_gen_codes`: the lengths from the greatest down, handed out along
the array. -/
def sdefl_gen_lens (A len_cnt lens : List ℕ) (max_code_word_len : ℕ) : ℕ × List ℕ :=
  max_code_word_len.foldRev (fun l _ s =>
    (read len_cnt (l + 1)).fold (fun _ _ s =>
      (s.1 + 1, write s.2 (sdefl_sym (read A s.1)) (l + 1))) s) (0, lens)

/-- The second loop: the first number of each length. -/
def sdefl_gen_nxt (len_cnt : List ℕ) (max_code_word_len : ℕ) : List ℕ :=
  (max_code_word_len - 1).fold (fun i _ nxt =>
    write nxt (i + 2) ((read nxt (i + 1) + read len_cnt (i + 1)) <<< 1)) []

/-- `pakka_sdefl_gen_codes`: the array, which now holds numbers of words, and the lengths. -/
def pakka_sdefl_gen_codes (A lens len_cnt : List ℕ) (max_code_word_len sym_cnt : ℕ) :
    List ℕ × List ℕ :=
  let lens := (sdefl_gen_lens A len_cnt lens max_code_word_len).2
  let s := sym_cnt.fold (fun sym _ s =>
    (write s.1 (read lens sym) (read s.1 (read lens sym) + 1),
      write s.2 sym (read s.1 (read lens sym)))) (sdefl_gen_nxt len_cnt max_code_word_len, A)
  (s.2, lens)

/-- `pakka_sdefl_rev`: the low `n` bits in reverse, by swapping ever larger groups. -/
def pakka_sdefl_rev (c n : ℕ) : ℕ :=
  let c := ((c &&& 0x5555) <<< 1) ||| ((c &&& 0xAAAA) >>> 1)
  let c := ((c &&& 0x3333) <<< 2) ||| ((c &&& 0xCCCC) >>> 2)
  let c := ((c &&& 0x0F0F) <<< 4) ||| ((c &&& 0xF0F0) >>> 4)
  let c := ((c &&& 0x00FF) <<< 8) ||| ((c &&& 0xFF00) >>> 8)
  c >>> (16 - n)

/-- `pakka_sdefl_huff`: the lengths and the words. `lens` and `codes` are what the arrays hold
before. -/
def pakka_sdefl_huff (lens codes freqs : List ℕ) (num_syms max_code_len : ℕ) :
    List ℕ × List ℕ :=
  let (used_syms, A, lens) := pakka_sdefl_sort_sym num_syms freqs lens codes
  if used_syms = 0 then (lens, A)
  else if used_syms = 1 then
    -- a code of one word is filled up with another symbol
    let s := sdefl_sym (read A 0)
    let i := if s ≠ 0 then s else 1
    (write (write lens 0 1) i 1, write (write A 0 0) i 1)
  else
    let A := pakka_sdefl_build_tree A used_syms
    let (A, len_cnt) := pakka_sdefl_gen_len_cnt A (used_syms - 2) max_code_len
    let (A, lens) := pakka_sdefl_gen_codes A lens len_cnt max_code_len num_syms
    (lens, num_syms.fold (fun c _ A => write A c (pakka_sdefl_rev (read A c) (read lens c))) A)

end Pakka
