/-
The codes on both sides.

The encoder sends the lengths of its words, without the zeros at the end, and the decoder builds its
tables from them; the words are then read as the symbols they were written for. `Decodes` is the
contract between the two: with this table, whenever a word of the code is next in the stream, the
decoder gives its symbol and stands behind it. Nothing else is needed of a table afterwards.

The lengths themselves go through a code of their own, as items: a length, or one of three kinds of
runs with their extra bits. An item is written and read back for itself, and a list of items by
induction, with the list of lengths that has been decoded so far as what the induction carries. The
array of the decoder has 320 places, and it is shown that no item can go beyond it.
-/
import Pakka.SdeflCodes
import Pakka.SdeflPrecode
import Pakka.SinflBuild

set_option autoImplicit false

namespace Pakka

open Cells CanonicalCode BitString ByteImage

/-! ## A code and its table

What was shown of the encoder's code and of the decoder's table construction, met in one place.
Trailing zeros are not sent, and the decoder's table is built from fewer lengths.
-/

/-- With this table the words of the code are decoded. -/
def Decodes (n : ℕ) (lens words tbl : List ℕ) (bits : ℕ) : Prop :=
  ∀ (inp : Bytes) (s : Sinfl) (rest : List Bool) (sym : ℕ), sym < n → 0 < read lens sym →
    Reading inp s (ofNat (read words sym) (read lens sym) ++ rest) → 15 ≤ s.bitcnt →
    ∃ s', pakka_sinfl_decode s tbl bits = some (sym, s') ∧ Reading inp s' rest ∧
      s'.bitcnt = s.bitcnt - read lens sym

/-- **The decoder understands the encoder's code**, from the lengths that were sent. -/
theorem CodeFor.decodes {n m L maxlen bits : ℕ} {freqs lens words lens' : List ℕ}
    (h : CodeFor n L freqs (lens, words)) (hL : L ≤ maxlen) (hpos : 0 < maxlen) (hmax : maxlen ≤ 15)
    (hn : n ≤ 4096) (hbits : bits ≤ 15) (hm : m ≤ n)
    (hsame : ∀ s, s < m → read lens' s = read lens s)
    (hzero : ∀ s, m ≤ s → s < n → read lens s = 0) (tbl : List ℕ) :
    Decodes n lens words (pakka_sinfl_build tbl lens' bits maxlen m) bits := by
  have hcomplete : Complete m (read lens') maxlen := (h.complete.mono hL).trim hm hsame hzero
  have htable := build_isTable hcomplete hpos hmax tbl bits
  intro inp s rest sym hsym hlive hread hcnt
  have hlt : sym < m := by
    by_contra hcon
    have := hzero sym (by omega) hsym
    omega
  rw [h.word_eq sym hsym hlive, ← word_trim hm hsame hzero hlt, ← hsame sym hlt] at hread
  have hlen := hsame sym hlt
  rw [← hlen]
  exact htable.decode hread hlt (by omega) hmax (by omega) hbits hcnt

/-! ## An item

Literal lengths, repeats of the length before, short and long runs of zeros. A repeat needs a length
to repeat.
-/

/-- The bits of an item. -/
def sdefl_item_bits (codes lens : List ℕ) (item : ℕ) : List Bool :=
  ofNat (read codes (item &&& 0x1f)) (read lens (item &&& 0x1f)) ++
    if item &&& 0x1f < 16 then [] else if item &&& 0x1f = 16 then ofNat (item >>> 5) 2
    else if item &&& 0x1f = 17 then ofNat (item >>> 5) 3 else ofNat (item >>> 5) 7

section Items

variable {codes lens hlens : List ℕ} {inp : Bytes} {s : Sinfl} {rest : List Bool}

/-- What an item can be. -/
theorem expand_cases {have_ next : List ℕ} {item : ℕ} (h : sdefl_expand have_ item = some next) :
    (item &&& 0x1f < 16 ∧ next = have_ ++ [item &&& 0x1f]) ∨
      (item &&& 0x1f = 16 ∧ item >>> 5 < 2 ^ 2 ∧ ∃ len, have_.getLast? = some len ∧
        next = have_ ++ List.replicate (3 + item >>> 5) len) ∨
      (item &&& 0x1f = 17 ∧ item >>> 5 < 2 ^ 3 ∧ next = have_ ++ List.replicate (3 + item >>> 5) 0) ∨
      (item &&& 0x1f = 18 ∧ item >>> 5 < 2 ^ 7 ∧
        next = have_ ++ List.replicate (11 + item >>> 5) 0) := by
  rw [sdefl_expand] at h
  split_ifs at h with h1 h2 h3 h4 h5 h6 h7 h8
  · exact Or.inl ⟨h1, (Option.some_inj.mp h).symm⟩
  · rw [Option.map_eq_some_iff] at h
    obtain ⟨len, hlast, rfl⟩ := h
    exact Or.inr (Or.inl ⟨h3, h4, len, hlast, rfl⟩)
  · exact Or.inr (Or.inr (Or.inl ⟨h5, h6, (Option.some_inj.mp h).symm⟩))
  · exact Or.inr (Or.inr (Or.inr ⟨h7, h8, (Option.some_inj.mp h).symm⟩))

theorem expand_length {have_ next : List ℕ} {item : ℕ} (h : sdefl_expand have_ item = some next) :
    have_.length < next.length := by
  rcases expand_cases h with ⟨_, rfl⟩ | ⟨_, _, len, _, rfl⟩ | ⟨_, _, rfl⟩ | ⟨_, _, rfl⟩ <;>
    rw [List.length_append] <;> simp

theorem foldlM_expand_length {items have_ final : List ℕ}
    (h : items.foldlM sdefl_expand have_ = some final) :
    have_.length + items.length ≤ final.length := by
  induction items generalizing have_ with
  | nil =>
    obtain rfl : have_ = final := Option.some_inj.mp h
    exact le_rfl
  | cons item items ih =>
    rw [List.foldlM_cons, Option.bind_eq_bind, Option.bind_eq_some_iff] at h
    obtain ⟨next, hnext, hrest⟩ := h
    have := ih hrest
    have := expand_length hnext
    rw [List.length_cons]
    omega

/-- **Writing an item.** -/
theorem Writes.item {w : SdeflBits} {bs : List Bool} {have_ next : List ℕ} {item : ℕ}
    (h : Writes w bs) (hexpand : sdefl_expand have_ item = some next)
    (hword : read codes (item &&& 0x1f) < 2 ^ read lens (item &&& 0x1f)) :
    Writes (sdefl_put_item codes lens w item) (bs ++ sdefl_item_bits codes lens item) := by
  have hput := h.put hword
  rw [sdefl_put_item, sdefl_item_bits, ← List.append_assoc]
  rcases expand_cases hexpand with ⟨h1, _⟩ | ⟨h1, hx, _⟩ | ⟨h1, hx, _⟩ | ⟨h1, hx, _⟩
  · rw [if_pos h1, if_pos h1, List.append_nil]
    exact hput
  all_goals
    simp only [h1] at hput ⊢
    exact hput.put hx

/-- **Reading an item.** -/
theorem lens_step {have_ next : List ℕ} {item : ℕ}
    (hdec : Decodes 19 lens codes hlens 7)
    (hread : Reading inp s (sdefl_item_bits codes lens item ++ rest))
    (hexpand : sdefl_expand have_ item = some next) (hlive : 0 < read lens (item &&& 0x1f))
    (hroom : next.length ≤ 320) :
    ∃ s', sinfl_lens_round inp hlens s have_ = some (s', next) ∧ Reading inp s' rest := by
  obtain ⟨hread₁, hcnt₁⟩ := hread.refill
  rw [sdefl_item_bits, List.append_assoc] at hread₁
  have hcases := expand_cases hexpand
  obtain ⟨s₂, hsym, hread₂, -⟩ := hdec inp _ _ (item &&& 0x1f) (by omega) hlive hread₁ (by omega)
  rw [sinfl_lens_round, hsym]
  -- a length, the last length again, a few zeros, many zeros
  rcases hcases with ⟨h1, rfl⟩ | ⟨h1, hx, len, hlast, rfl⟩ | ⟨h1, hx, rfl⟩ | ⟨h1, hx, rfl⟩
  · rw [if_pos h1, List.nil_append] at hread₂
    refine ⟨s₂, ?_, hread₂⟩
    show (if item &&& 0x1f = 16 then _ else if item &&& 0x1f = 17 then _ else
      if item &&& 0x1f = 18 then _ else _) = _
    rw [if_neg (by omega), if_neg (by omega), if_neg (by omega), sinfl_run,
      if_pos (by rw [List.length_append] at hroom; exact hroom), Nat.mod_eq_of_lt (by omega)]
    rfl
  · have hfield : Reading inp s₂ (ofNat (item >>> 5) 2 ++ rest) := by simpa [h1] using hread₂
    obtain ⟨s₃, hget, hread₃, -⟩ := hfield.refill_get hx (by decide)
    refine ⟨s₃, ?_, hread₃⟩
    show (if item &&& 0x1f = 16 then (pakka_sinfl_get inp s₂ 2).bind _ else _) = _
    rw [if_pos h1, hget]
    show have_.getLast?.bind _ = _
    rw [hlast]
    show (sinfl_run have_ len (3 + item >>> 5)).bind _ = _
    rw [sinfl_run, if_pos (by rwa [List.length_append, List.length_replicate] at hroom)]
    rfl
  · have hfield : Reading inp s₂ (ofNat (item >>> 5) 3 ++ rest) := by simpa [h1] using hread₂
    obtain ⟨s₃, hget, hread₃, -⟩ := hfield.refill_get hx (by decide)
    refine ⟨s₃, ?_, hread₃⟩
    show (if item &&& 0x1f = 16 then _ else
      if item &&& 0x1f = 17 then (pakka_sinfl_get inp s₂ 3).bind _ else _) = _
    rw [if_neg (by omega), if_pos h1, hget]
    show (sinfl_run have_ 0 (3 + item >>> 5)).bind _ = _
    rw [sinfl_run, if_pos (by rwa [List.length_append, List.length_replicate] at hroom)]
    rfl
  · have hfield : Reading inp s₂ (ofNat (item >>> 5) 7 ++ rest) := by simpa [h1] using hread₂
    obtain ⟨s₃, hget, hread₃, -⟩ := hfield.refill_get hx (by decide)
    refine ⟨s₃, ?_, hread₃⟩
    show (if item &&& 0x1f = 16 then _ else if item &&& 0x1f = 17 then _ else
      if item &&& 0x1f = 18 then (pakka_sinfl_get inp s₂ 7).bind _ else _) = _
    rw [if_neg (by omega), if_neg (by omega), if_pos h1, hget]
    show (sinfl_run have_ 0 (11 + item >>> 5)).bind _ = _
    rw [sinfl_run, if_pos (by rwa [List.length_append, List.length_replicate] at hroom)]
    rfl

/-! ## All the items

The writer's list and the reader's loop, by one induction each.
-/

/-- The writer's items, one after the other. -/
theorem Writes.items {w : SdeflBits} {bs : List Bool} {items have_ final : List ℕ}
    (h : Writes w bs) (hexpand : items.foldlM sdefl_expand have_ = some final)
    (hword : ∀ item ∈ items, read codes (item &&& 0x1f) < 2 ^ read lens (item &&& 0x1f)) :
    Writes (items.foldl (sdefl_put_item codes lens) w)
      (bs ++ items.flatMap (sdefl_item_bits codes lens)) := by
  induction items generalizing w bs have_ with
  | nil =>
    rw [List.flatMap_nil, List.append_nil]
    exact h
  | cons item items ih =>
    rw [List.foldlM_cons, Option.bind_eq_bind, Option.bind_eq_some_iff] at hexpand
    obtain ⟨next, hnext, hrest⟩ := hexpand
    have hitem := h.item hnext (hword item (by simp))
    rw [List.foldl_cons, List.flatMap_cons, ← List.append_assoc]
    exact ih hitem hrest fun i hi => hword i (List.mem_cons_of_mem _ hi)

/-- **Reading the lengths back.** -/
theorem lens_spec {total : ℕ} {items have_ final : List ℕ} (fuel : ℕ)
    (hdec : Decodes 19 lens codes hlens 7)
    (hread : Reading inp s (items.flatMap (sdefl_item_bits codes lens) ++ rest))
    (hexpand : items.foldlM sdefl_expand have_ = some final)
    (hlive : ∀ item ∈ items, 0 < read lens (item &&& 0x1f))
    (htotal : final.length = total) (hroom : total ≤ 320) (hfuel : items.length < fuel) :
    ∃ s', sinfl_lens inp hlens total fuel s have_ = some (s', final) ∧ Reading inp s' rest := by
  induction items generalizing s have_ fuel with
  | nil =>
    obtain ⟨fuel, rfl⟩ : ∃ k, fuel = k + 1 := ⟨fuel - 1, by omega⟩
    obtain rfl : have_ = final := Option.some_inj.mp hexpand
    refine ⟨s, ?_, hread⟩
    rw [sinfl_lens, if_neg (by omega)]
  | cons item items ih =>
    obtain ⟨fuel, rfl⟩ : ∃ k, fuel = k + 1 := ⟨fuel - 1, by rw [List.length_cons] at hfuel; omega⟩
    rw [List.foldlM_cons, Option.bind_eq_bind, Option.bind_eq_some_iff] at hexpand
    obtain ⟨next, hnext, hrest⟩ := hexpand
    have hgrow := expand_length hnext
    have hleft := foldlM_expand_length hrest
    rw [List.flatMap_cons, List.append_assoc] at hread
    obtain ⟨s₁, hstep, hread₁⟩ := lens_step hdec hread hnext (hlive item (by simp)) (by omega)
    obtain ⟨s', hlens', hread'⟩ := ih fuel hread₁ hrest
      (fun i hi => hlive i (List.mem_cons_of_mem _ hi)) (by rw [List.length_cons] at hfuel; omega)
    refine ⟨s', ?_, hread'⟩
    rw [sinfl_lens, if_pos (show have_.length < total by omega), hstep]
    exact hlens'

end Items

end Pakka
