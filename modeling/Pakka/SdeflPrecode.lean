/-
The code lengths as items.

An item is a length, or a repetition: of the last length, or of zeros. `sdefl_expand` is what an
item says, and the items that `pakka_sdefl_precode` makes of some lengths say those lengths, for
any lengths below 16. The symbols of the items are counted, so each gets a word.

The source takes the lengths run by run. A run of zeros and a run of another length have different
items, with greatest lengths of their own, so a long run becomes several items.

The induction is on the runs. Each branch of the source makes items for a part of a run, and the
lemma of the branch says what lengths these items add.
-/
import Pakka.SdeflWriter

set_option autoImplicit false

namespace Pakka

open Cells BitString

/-- What an item adds to the lengths before it. -/
def sdefl_expand (lens : List ℕ) (item : ℕ) : Option (List ℕ) :=
  let sym := item &&& 0x1f
  let x := item >>> 5
  if sym < 16 then if x = 0 then some (lens ++ [sym]) else none
  else if sym = 16 then
    if x < 2 ^ 2 then lens.getLast?.map fun len => lens ++ List.replicate (3 + x) len else none
  else if sym = 17 then if x < 2 ^ 3 then some (lens ++ List.replicate (3 + x) 0) else none
  else if sym = 18 then if x < 2 ^ 7 then some (lens ++ List.replicate (11 + x) 0) else none
  else none

/-- The items so far say `lens`, and their symbols are counted. -/
structure Precoded (p : SdeflPre) (lens : List ℕ) : Prop where
  items : p.items.foldlM sdefl_expand [] = some lens
  counted : ∀ sym, read p.freqs sym = (p.items.map (· &&& 0x1f)).count sym

theorem precoded_start : Precoded ⟨[], []⟩ [] := ⟨rfl, fun sym => read_nil sym⟩

theorem Precoded.live {p : SdeflPre} {lens : List ℕ} (h : Precoded p lens) {item : ℕ}
    (hitem : item ∈ p.items) : read p.freqs (item &&& 0x1f) ≠ 0 := by
  have hmem : item &&& 0x1f ∈ p.items.map (· &&& 0x1f) := List.mem_map.mpr ⟨item, hitem, rfl⟩
  rw [h.counted]
  exact (List.count_pos_iff.mpr hmem).ne'

/-! ## An item

What each kind of item says.
-/

section Items

variable {p : SdeflPre} {lens : List ℕ} {len : ℕ}

theorem item_parts {sym : ℕ} (x : ℕ) (h : sym < 32) :
    (sym ||| (x <<< 5)) &&& 0x1f = sym ∧ (sym ||| (x <<< 5)) >>> 5 = x := by
  have hval : sym ||| (x <<< 5) = x * 32 + sym := by
    rw [Nat.lor_comm, ← Nat.shiftLeft_add_eq_or_of_lt (show sym < 2 ^ 5 from h), Nat.shiftLeft_eq]
  constructor
  · rw [show (0x1f : ℕ) = 2 ^ 5 - 1 from rfl, Nat.and_two_pow_sub_one_eq_mod, hval]
    omega
  · rw [Nat.shiftRight_eq_div_pow, hval]
    omega

theorem expand_plain (lens : List ℕ) (h : len < 16) :
    sdefl_expand lens (len ||| (0 <<< 5)) = some (lens ++ [len]) := by
  obtain ⟨hsym, hx⟩ := item_parts 0 (show len < 32 by omega)
  simp only [sdefl_expand, hsym, hx, h, if_true]

theorem expand_same {x : ℕ} (hlast : lens.getLast? = some len) (hx : x < 4) :
    sdefl_expand lens (16 ||| (x <<< 5)) = some (lens ++ List.replicate (3 + x) len) := by
  obtain ⟨hsym, hval⟩ := item_parts x (show 16 < 32 by decide)
  simp [sdefl_expand, hsym, hval, hx, hlast]

theorem expand_zeros {x : ℕ} (lens : List ℕ) (hx : x < 8) :
    sdefl_expand lens (17 ||| (x <<< 5)) = some (lens ++ List.replicate (3 + x) 0) := by
  obtain ⟨hsym, hval⟩ := item_parts x (show 17 < 32 by decide)
  simp [sdefl_expand, hsym, hval, hx]

theorem expand_many_zeros {x : ℕ} (lens : List ℕ) (hx : x < 128) :
    sdefl_expand lens (18 ||| (x <<< 5)) = some (lens ++ List.replicate (11 + x) 0) := by
  obtain ⟨hsym, hval⟩ := item_parts x (show 18 < 32 by decide)
  simp [sdefl_expand, hsym, hval, hx]

/-- **One more item.** -/
theorem Precoded.emit (h : Precoded p lens) {sym x : ℕ} {lens' : List ℕ} (hsym : sym < 32)
    (hexpand : sdefl_expand lens (sym ||| (x <<< 5)) = some lens') :
    Precoded (sdefl_emit p sym x) lens' := by
  constructor
  · rw [sdefl_emit, List.foldlM_append, h.items]
    show (([sym ||| (x <<< 5)] : List ℕ).foldlM sdefl_expand lens) = some lens'
    rw [List.foldlM_cons, hexpand]
    rfl
  · intro i
    rw [sdefl_emit]
    dsimp only
    rw [read_write, List.map_append, List.count_append, List.map_singleton, (item_parts x hsym).1,
      List.count_singleton, beq_eq_decide, ← h.counted]
    by_cases hi : i = sym
    · rw [hi, Function.update_self, decide_eq_true rfl, if_pos rfl]
    · rw [Function.update_of_ne hi, decide_eq_false (Ne.symm hi), if_neg Bool.false_ne_true,
        Nat.add_zero]

/-! ## A run

One lemma per branch of the source.
-/

theorem Precoded.plain (h : Precoded p lens) (hlen : len < 16) (n : ℕ) :
    Precoded (sdefl_run_plain len n p) (lens ++ List.replicate n len) := by
  induction n generalizing p lens with
  | zero =>
    rw [List.replicate_zero, List.append_nil]
    exact h
  | succ n ih =>
    rw [List.replicate_succ, List.append_cons, sdefl_run_plain]
    exact ih (h.emit (by omega) (expand_plain lens hlen))

theorem Precoded.zeros (h : Precoded p lens) (fuel n : ℕ) :
    let r := sdefl_run_zeros fuel n p
    r.1 ≤ n ∧ Precoded r.2 (lens ++ List.replicate (n - r.1) 0) := by
  induction fuel generalizing p lens n with
  | zero =>
    refine ⟨le_rfl, ?_⟩
    rw [sdefl_run_zeros, Nat.sub_self, List.replicate_zero, List.append_nil]
    exact h
  | succ fuel ih =>
    rw [sdefl_run_zeros]
    by_cases hge : n ≥ 11
    · rw [if_pos hge]
      dsimp only
      generalize hx : (if n - 11 < 0x7f then n - 11 else 0x7f) = x
      have hxn : x ≤ n - 11 ∧ x < 128 := by
        rw [← hx]
        split_ifs <;> omega
      obtain ⟨hle, hpre⟩ := ih (h.emit (by decide) (expand_many_zeros lens hxn.2)) (n - (11 + x))
      refine ⟨by omega, ?_⟩
      rw [List.append_assoc, List.replicate_append_replicate] at hpre
      rwa [show 11 + x + (n - (11 + x) - (sdefl_run_zeros fuel (n - (11 + x))
        (sdefl_emit p 18 x)).1) = n - (sdefl_run_zeros fuel (n - (11 + x)) (sdefl_emit p 18 x)).1 by
          omega] at hpre
    · rw [if_neg hge]
      refine ⟨le_rfl, ?_⟩
      rw [Nat.sub_self, List.replicate_zero, List.append_nil]
      exact h

theorem Precoded.same (h : Precoded p lens) (hlast : lens.getLast? = some len) (fuel n : ℕ)
    (hn : 3 ≤ n) :
    let r := sdefl_run_same fuel n p
    r.1 ≤ n ∧ Precoded r.2 (lens ++ List.replicate (n - r.1) len) := by
  induction fuel generalizing p lens n with
  | zero =>
    refine ⟨le_rfl, ?_⟩
    rw [sdefl_run_same, Nat.sub_self, List.replicate_zero, List.append_nil]
    exact h
  | succ fuel ih =>
    rw [sdefl_run_same]
    dsimp only
    generalize hx : (if n - 3 < 3 then n - 3 else 3) = x
    have hxn : x ≤ n - 3 ∧ x < 4 := by
      rw [← hx]
      split_ifs <;> omega
    have hemit := h.emit (by decide) (expand_same hlast hxn.2)
    by_cases hge : n - (3 + x) ≥ 3
    · have hlast' : (lens ++ List.replicate (3 + x) len).getLast? = some len := by
        rw [List.getLast?_append, List.getLast?_replicate, if_neg (by omega)]
        rfl
      obtain ⟨hle, hpre⟩ := ih hemit hlast' (n - (3 + x)) hge
      rw [if_pos hge]
      generalize sdefl_run_same fuel (n - (3 + x)) (sdefl_emit p 16 x) = r at hle hpre ⊢
      refine ⟨by omega, ?_⟩
      rwa [List.append_assoc, List.replicate_append_replicate,
        show 3 + x + (n - (3 + x) - r.1) = n - r.1 by omega] at hpre
    · rw [if_neg hge]
      refine ⟨Nat.sub_le _ _, ?_⟩
      rwa [show n - (n - (3 + x)) = 3 + x by omega]

/-- **A run of equal lengths.** -/
theorem Precoded.run (h : Precoded p lens) (hlen : len < 16) (n : ℕ) :
    Precoded (sdefl_write_run len n p) (lens ++ List.replicate n len) := by
  rw [sdefl_write_run]
  split_ifs with h0 h4
  · subst h0
    obtain ⟨hle, hpre⟩ := h.zeros n n
    generalize sdefl_run_zeros n n p = r at hle hpre ⊢
    obtain ⟨m, p'⟩ := r
    dsimp only at hle hpre ⊢
    by_cases h3 : m ≥ 3
    · rw [if_pos h3]
      generalize hx : (if m - 3 < 7 then m - 3 else 7) = x
      have hxm : x ≤ m - 3 ∧ x < 8 := by
        rw [← hx]
        split_ifs <;> omega
      have hplain := (hpre.emit (by decide) (expand_zeros _ hxm.2)).plain hlen (m - (3 + x))
      rwa [List.append_assoc, List.append_assoc, List.replicate_append_replicate,
        List.replicate_append_replicate, show n - m + (3 + x + (m - (3 + x))) = n by omega] at hplain
    · rw [if_neg h3]
      have hplain := hpre.plain hlen m
      rwa [List.append_assoc, List.replicate_append_replicate, Nat.sub_add_cancel hle] at hplain
  · have hemit := h.emit (by omega) (expand_plain lens hlen)
    obtain ⟨hle, hpre⟩ := hemit.same (by rw [List.getLast?_concat]) n (n - 1) (by omega)
    generalize sdefl_run_same n (n - 1) (sdefl_emit p len 0) = r at hle hpre ⊢
    obtain ⟨m, p'⟩ := r
    dsimp only at hle hpre ⊢
    have hplain := hpre.plain hlen m
    rwa [List.append_assoc, List.append_assoc, List.replicate_append_replicate,
      ← List.replicate_one, List.replicate_append_replicate,
      show 1 + (n - 1 - m + m) = n by omega] at hplain
  · exact h.plain hlen n

end Items

/-! ## All the runs

By induction over the runs.
-/

section Runs

variable {lens : List ℕ} {p : SdeflPre}

/-- The end of the run at hand. -/
theorem run_end_spec {len start e : ℕ} (fuel : ℕ) (hfuel : lens.length ≤ e + fuel)
    (he : e < lens.length) (hstart : start ≤ e)
    (hsame : ∀ j, start ≤ j → j ≤ e → read lens j = len) :
    let r := sdefl_run_end lens lens.length len fuel e
    e < r ∧ r ≤ lens.length ∧ ∀ j, start ≤ j → j < r → read lens j = len := by
  induction fuel generalizing e with
  | zero => omega
  | succ fuel ih =>
    rw [sdefl_run_end]
    split_ifs with h
    · obtain ⟨hne, hlen⟩ := h
      obtain ⟨h1, h2, h3⟩ := ih (e := e + 1) (by omega) (by omega) (by omega) fun j hj hle => by
        rcases Nat.eq_or_lt_of_le hle with rfl | hlt
        · exact hlen.symm
        · exact hsame j hj (by omega)
      exact ⟨by omega, h2, h3⟩
    · exact ⟨by omega, by omega, fun j hj hlt => hsame j hj (by omega)⟩

theorem take_run {len start e : ℕ} (hle : start ≤ e) (he : e ≤ lens.length)
    (hsame : ∀ j, start ≤ j → j < e → read lens j = len) :
    lens.take start ++ List.replicate (e - start) len = lens.take e := by
  have hmid : (lens.take e).drop start = List.replicate (e - start) len := by
    rw [List.eq_replicate_iff]
    refine ⟨by simp; omega, fun a ha => ?_⟩
    obtain ⟨j, hj, rfl⟩ := List.getElem_of_mem ha
    rw [List.length_drop, List.length_take] at hj
    rw [List.getElem_drop, List.getElem_take]
    have hread : lens.getD (start + j) 0 = len := hsame (start + j) (by omega) (by omega)
    rwa [List.getD_eq_getElem _ _ (by omega)] at hread
  rw [← hmid]
  conv_rhs => rw [← List.take_append_drop start (lens.take e)]
  rw [List.take_take, Nat.min_eq_left hle]

/-- **The items say the lengths.** -/
theorem runs_spec (hlens : ∀ j, read lens j < 16) (fuel : ℕ) {start : ℕ}
    (hfuel : lens.length ≤ start + fuel) (hstart : start < lens.length)
    (h : Precoded p (lens.take start)) :
    Precoded (sdefl_runs lens lens.length fuel start p) lens := by
  induction fuel generalizing start p with
  | zero => omega
  | succ fuel ih =>
    rw [sdefl_runs]
    obtain ⟨hlt, hle, hsame⟩ := run_end_spec lens.length (by omega) hstart le_rfl
      (fun j hj hj' => by rw [show j = start by omega])
    have hrun := h.run (hlens start) (sdefl_run_end lens lens.length (read lens start) lens.length
      start - start)
    generalize sdefl_run_end lens lens.length (read lens start) lens.length start = e
      at hlt hle hsame hrun ⊢
    rw [take_run (by omega) hle hsame] at hrun
    split_ifs with hne
    · exact ih (by omega) (by omega) hrun
    · rw [List.take_of_length_le (show lens.length ≤ e by omega)] at hrun
      exact hrun

end Runs

/-! ## The lengths that are written

Zeros at the end are not written, down to the least number the format allows.
-/

/-- Lengths that are left out are zero. -/
theorem trim_spec (lens : List ℕ) (least k : ℕ) (hk : least ≤ k) :
    least ≤ sdefl_trim lens least k ∧ sdefl_trim lens least k ≤ k ∧
      ∀ j, sdefl_trim lens least k ≤ j → j < k → read lens j = 0 := by
  induction k with
  | zero =>
    rw [sdefl_trim]
    exact ⟨hk, le_rfl, fun j _ hj => absurd hj (Nat.not_lt_zero j)⟩
  | succ k ih =>
    rw [sdefl_trim]
    split_ifs with h
    · obtain ⟨h1, h2, h3⟩ := ih (by omega)
      refine ⟨h1, by omega, fun j hj hlt => ?_⟩
      rcases Nat.eq_or_lt_of_le (Nat.le_of_lt_succ hlt) with rfl | hlt'
      · exact h.2
      · exact h3 j hj hlt'
    · exact ⟨hk, le_rfl, fun j hj hlt => by omega⟩

/-- **The code lengths of a block.** -/
theorem precode_spec {litlen offlen : List ℕ} (hlit : ∀ j, j < 288 → read litlen j < 16)
    (hoff : ∀ j, j < 32 → read offlen j < 16) :
    let r := pakka_sdefl_precode litlen offlen
    (257 ≤ r.1.lit ∧ r.1.lit ≤ 288 ∧ ∀ j, r.1.lit ≤ j → j < 288 → read litlen j = 0) ∧
      (1 ≤ r.1.off ∧ r.1.off ≤ 32 ∧ ∀ j, r.1.off ≤ j → j < 32 → read offlen j = 0) ∧
      Precoded r.2 ((List.range r.1.lit).map (read litlen) ++
        (List.range r.1.off).map (read offlen)) := by
  have htrim := trim_spec litlen 257 PAKKA_SDEFL_SYM_MAX (by decide)
  have htrim' := trim_spec offlen 1 PAKKA_SDEFL_OFF_MAX (by decide)
  rw [pakka_sdefl_precode]
  dsimp only
  generalize sdefl_trim litlen 257 PAKKA_SDEFL_SYM_MAX = lit at htrim ⊢
  generalize sdefl_trim offlen 1 PAKKA_SDEFL_OFF_MAX = off at htrim' ⊢
  refine ⟨htrim, htrim', ?_⟩
  generalize hlens : (List.range lit).map (read litlen) ++ (List.range off).map (read offlen) = lens
  have hlen : lens.length = lit + off := by simp [← hlens]
  rw [← hlen]
  refine runs_spec (fun j => ?_) lens.length (by omega) (by omega) precoded_start
  rcases Nat.lt_or_ge j lens.length with hj | hj
  · show lens.getD j 0 < 16
    rw [List.getD_eq_getElem _ _ hj]
    have hmem := List.getElem_mem hj
    generalize lens[j] = len at hmem
    rw [← hlens, List.mem_append, List.mem_map, List.mem_map] at hmem
    rcases hmem with ⟨i, hi, heq⟩ | ⟨i, hi, heq⟩
    · rw [← heq]
      exact hlit i (lt_of_lt_of_le (List.mem_range.mp hi) htrim.2.1)
    · rw [← heq]
      exact hoff i (lt_of_lt_of_le (List.mem_range.mp hi) htrim'.2.1)
  · rw [read_of_length_le hj]
    decide

end Pakka
