/-
The symbols in use, sorted.

Whatever order the counting sort and the heap sort produce, the array ends up with one word for
each symbol in use and no other (`sort_sym_lists`), which is all that the tree needs: it is the
order that makes the code a good one, not a code.

What is lost by not tracking the order is a statement about optimality, and none is made.
-/
import Pakka.SdeflHuff

set_option autoImplicit false

namespace Pakka

open Cells CountingSort Function

/-! ## The heap sort only swaps

Each step is a swap, so the content is kept.
-/

section Heap

theorem heap_cell_inj {start i j : ℕ} (hi : 1 ≤ i) (hj : 1 ≤ j)
    (h : sdefl_heap_cell start i = sdefl_heap_cell start j) : i = j := by
  rw [sdefl_heap_cell, sdefl_heap_cell] at h
  omega

theorem heap_cell_mem (start : ℕ) {i len : ℕ} (hi : 1 ≤ i) (hlen : i ≤ len) :
    start ≤ sdefl_heap_cell start i ∧ sdefl_heap_cell start i < start + len := by
  rw [sdefl_heap_cell]
  omega

/-- The hole, filled, is the array in some order at each step of the descent. -/
theorem heap_sub_loop_rearranged (start len v fuel : ℕ) {A : List ℕ} {p : ℕ} (hp : 1 ≤ p)
    (hlen : p ≤ len) :
    Rearranged start (start + len) (read (write A (sdefl_heap_cell start p) v))
      (read (pakka_sdefl_heap_sub_loop start len v fuel A p)) := by
  induction fuel generalizing A p with
  | zero => exact Rearranged.refl _ _ _
  | succ fuel ih =>
    -- the greater child moves up and leaves the hole behind
    have hmove (c : ℕ) (hpc : p < c) (hc : c ≤ len) :
        Rearranged start (start + len) (read (write A (sdefl_heap_cell start p) v))
          (read (pakka_sdefl_heap_sub_loop start len v fuel
            (write A (sdefl_heap_cell start p) (read A (sdefl_heap_cell start c))) c)) := by
      have hne : sdefl_heap_cell start c ≠ sdefl_heap_cell start p := fun h =>
        absurd (heap_cell_inj (by omega) hp h) (by omega)
      refine Rearranged.trans ?_ (ih (by omega) hc)
      have hswap := Rearranged.swap (read (write A (sdefl_heap_cell start p) v))
        (heap_cell_mem start hp hlen) (heap_cell_mem start (by omega : 1 ≤ c) hc)
      rw [read_write, update_self, update_of_ne hne, update_idem] at hswap
      rw [read_write, read_write, read_write]
      exact hswap
    rw [pakka_sdefl_heap_sub_loop]
    simp only [Nat.shiftLeft_eq]
    split_ifs with hc hchild hv hv
    · exact Rearranged.refl _ _ _
    · exact hmove _ (by omega) (by omega)
    · exact Rearranged.refl _ _ _
    · exact hmove _ (by omega) (by omega)
    · exact Rearranged.refl _ _ _

theorem heap_sub_rearranged (start len : ℕ) (A : List ℕ) {sub : ℕ} (hsub : 1 ≤ sub)
    (hlen : sub ≤ len) :
    Rearranged start (start + len) (read A) (read (pakka_sdefl_heap_sub start A len sub)) := by
  have h := heap_sub_loop_rearranged start len (read A (sdefl_heap_cell start sub)) len
    (A := A) hsub hlen
  rwa [read_write, update_eq_self] at h

theorem heap_array_rearranged (start len : ℕ) (A : List ℕ) :
    Rearranged start (start + len) (read A) (read (pakka_sdefl_heap_array start A len)) := by
  rw [pakka_sdefl_heap_array]
  have hhalf : len >>> 1 ≤ len := by rw [Nat.shiftRight_eq_div_pow]; omega
  generalize len >>> 1 = k at hhalf
  induction k generalizing A with
  | zero => exact Rearranged.refl _ _ _
  | succ k ih =>
    rw [Nat.foldRev_succ]
    exact (heap_sub_rearranged start len A (by omega) hhalf).trans (ih _ (by omega))

theorem heap_sort_loop_rearranged (start : ℕ) (A : List ℕ) (n : ℕ) :
    Rearranged start (start + n) (read A) (read (pakka_sdefl_heap_sort_loop start n A)) := by
  induction n generalizing A with
  | zero => exact Rearranged.refl _ _ _
  | succ n ih =>
    cases n with
    | zero => exact Rearranged.refl _ _ _
    | succ n =>
      rw [pakka_sdefl_heap_sort_loop]
      have hswap := Rearranged.swap (read A) (heap_cell_mem start (by omega : 1 ≤ n + 2) le_rfl)
        (heap_cell_mem start (by omega : 1 ≤ 1) (by omega : 1 ≤ n + 2))
      have hdown := heap_sub_rearranged start (n + 1)
        (write (write A (sdefl_heap_cell start (n + 2)) (read A (sdefl_heap_cell start 1)))
          (sdefl_heap_cell start 1) (read A (sdefl_heap_cell start (n + 2)))) le_rfl (by omega)
      rw [read_write, read_write] at hdown
      exact hswap.trans ((hdown.mono le_rfl (by omega)).trans ((ih _).mono le_rfl (by omega)))

theorem heap_sort_rearranged (A : List ℕ) (start n : ℕ) :
    Rearranged start (start + n) (read A) (read (pakka_sdefl_heap_sort A start n)) :=
  (heap_array_rearranged start n A).trans (heap_sort_loop_rearranged start _ n)

end Heap

/-! ## The buckets

Counting, starting points, placing: the counting sort of the library.
-/

section Buckets

variable {freqs : List ℕ} {n K : ℕ}

/-- The bucket that a symbol in use is sorted into. -/
def sdefl_key (freqs : List ℕ) (K sym : ℕ) : Option ℕ :=
  if read freqs sym ≠ 0 then some (sdefl_bucket K (read freqs sym)) else none

theorem bucket_lt (hK : 0 < K) (f : ℕ) : sdefl_bucket K f < K := by
  rw [sdefl_bucket]
  split_ifs <;> omega

theorem bucket_eq_zero (hK : 2 ≤ K) (f : ℕ) : sdefl_bucket K f = 0 ↔ f = 0 := by
  rw [sdefl_bucket]
  split_ifs <;> omega

theorem key_eq_some (sym k : ℕ) :
    sdefl_key freqs K sym = some k ↔ read freqs sym ≠ 0 ∧ sdefl_bucket K (read freqs sym) = k := by
  rw [sdefl_key]
  split_ifs with h <;> simp [h]

theorem freq_zero (hK : 2 ≤ K) : freq (sdefl_key freqs K) n 0 = 0 := by
  rw [freq, Nat.count_iff_forall_not]
  intro sym _ h
  rw [key_eq_some, bucket_eq_zero hK] at h
  exact h.1 h.2

/-- The first loop counts each bucket but the one of the symbols that are not in use. -/
theorem count_buckets (hK : 2 ≤ K) {b : ℕ} (hb : 0 < b) :
    read (n.fold (fun sym _ cnts =>
      write cnts (sdefl_bucket K (read freqs sym))
        (read cnts (sdefl_bucket K (read freqs sym)) + 1)) []) b =
      freq (sdefl_key freqs K) n b := by
  induction n with
  | zero => simp [freq]
  | succ n ih =>
    rw [Nat.fold_succ, read_write, freq_succ]
    by_cases h : b = sdefl_bucket K (read freqs n)
    · have hlive : read freqs n ≠ 0 := by
        rw [ne_eq, ← bucket_eq_zero hK]
        omega
      rw [← h, update_self, ih, if_pos ((key_eq_some _ _).mpr ⟨hlive, h.symm⟩)]
    · rw [update_of_ne h, ih, if_neg fun hcon => h ((key_eq_some _ _).mp hcon).2.symm,
        Nat.add_zero]

/-- The second loop lays the buckets out one after the other. -/
theorem start_buckets (cnts : List ℕ) (cnt : ℕ → ℕ) (hzero : cnt 0 = 0)
    (hcnt : ∀ b, 0 < b → read cnts b = cnt b) (m : ℕ) :
    let s := m.fold (fun i _ (s : List ℕ × ℕ) =>
      (write s.1 (i + 1) s.2, s.2 + read s.1 (i + 1))) (cnts, 0)
    s.2 = below cnt (m + 1) ∧
      ∀ b, 0 < b → read s.1 b = if b ≤ m then below cnt b else cnt b := by
  induction m with
  | zero =>
    refine ⟨by simp [below, hzero], fun b hb => ?_⟩
    rw [if_neg (by omega), ← hcnt b hb]
    rfl
  | succ m ih =>
    obtain ⟨hsum, hcell⟩ := ih
    simp only [Nat.fold_succ]
    refine ⟨?_, fun b hb => ?_⟩
    · rw [hsum, hcell (m + 1) (by omega), if_neg (by omega)]
      rfl
    · rw [read_write]
      by_cases hbm : b = m + 1
      · rw [hbm, update_self, hsum, if_pos le_rfl]
      · rw [update_of_ne hbm, hcell b hb]
        split_ifs <;> first | rfl | omega

/-- The third loop is a counting sort, and clears the lengths of the symbols not in use. -/
theorem place_syms (freqs : List ℕ) (n K : ℕ) (at_ out lens : List ℕ) :
    let t := n.fold (fun sym _ t => sdefl_place_sym K freqs sym t) (at_, out, lens)
    (t.1, t.2.1) = scatter (sdefl_key freqs K) (fun sym => sdefl_word sym (read freqs sym)) n
        (at_, out) ∧
      ∀ sym, read t.2.2 sym = if sym < n ∧ read freqs sym = 0 then 0 else read lens sym := by
  induction n with
  | zero => simp [scatter]
  | succ n ih =>
    obtain ⟨hscatter, hlens⟩ := ih
    simp only [Nat.fold_succ]
    rw [Prod.ext_iff] at hscatter
    by_cases hlive : read freqs n = 0
    · have hkey : sdefl_key freqs K n = none := by rw [sdefl_key, if_neg (by simpa using hlive)]
      rw [sdefl_place_sym, if_neg (by simpa using hlive), scatter_none _ hkey]
      refine ⟨Prod.ext hscatter.1 hscatter.2, fun sym => ?_⟩
      rw [read_write]
      by_cases hsym : sym = n
      · rw [hsym, update_self, if_pos ⟨by omega, hlive⟩]
      · rw [update_of_ne hsym, hlens]
        congr 1
        rw [eq_iff_iff]
        constructor <;> rintro ⟨h, h'⟩ <;> exact ⟨by omega, h'⟩
    · have hkey : sdefl_key freqs K n = some (sdefl_bucket K (read freqs n)) := by
        rw [sdefl_key, if_pos hlive]
      rw [sdefl_place_sym, if_pos hlive, scatter_some _ hkey, ← hscatter.1, ← hscatter.2]
      refine ⟨rfl, fun sym => ?_⟩
      rw [hlens]
      congr 1
      rw [eq_iff_iff]
      constructor
      · rintro ⟨h, h'⟩
        exact ⟨by omega, h'⟩
      · rintro ⟨h, h'⟩
        exact ⟨by rcases Nat.lt_or_ge sym n with hlt | hge
                  · exact hlt
                  · exact absurd (show read freqs n = 0 by rwa [show n = sym by omega]) hlive, h'⟩

end Buckets

/-! ## The sorted array

The two together.
-/

/-- The first `used` words of the array hold the symbols in question, each once. -/
structure Lists (A : List ℕ) (used : ℕ) (live : ℕ → Prop) : Prop where
  mem : ∀ i, i < used → live (sdefl_sym (read A i))
  inj : ∀ i j, i < used → j < used → sdefl_sym (read A i) = sdefl_sym (read A j) → i = j
  onto : ∀ sym, live sym → ∃ i, i < used ∧ sdefl_sym (read A i) = sym

theorem Lists.of_sym_eq {A B : List ℕ} {used : ℕ} {live : ℕ → Prop} (h : Lists A used live)
    (hsym : ∀ i, sdefl_sym (read B i) = sdefl_sym (read A i)) : Lists B used live :=
  ⟨fun i hi => by rw [hsym]; exact h.mem i hi,
    fun i j hi hj hij => h.inj i j hi hj (by rwa [hsym, hsym] at hij),
    fun sym hl => by
      obtain ⟨i, hi, hs⟩ := h.onto sym hl
      exact ⟨i, hi, by rw [hsym, hs]⟩⟩

theorem Lists.rearranged {A B : List ℕ} {used lo hi : ℕ} {live : ℕ → Prop} (h : Lists A used live)
    (hAB : Rearranged lo hi (read A) (read B)) (hhi : hi ≤ used) : Lists B used live := by
  obtain ⟨σ, hσ, hread⟩ := (hAB.mono (Nat.zero_le lo) hhi).exists_perm
  have hin (i : ℕ) (hi : i < used) : σ i < used := ((hσ i).mp ⟨Nat.zero_le _, hi⟩).2
  refine ⟨fun i hi => ?_, fun i j hi hj hij => ?_, fun sym hl => ?_⟩
  · rw [hread]
    exact h.mem _ (hin i hi)
  · rw [hread, hread] at hij
    exact σ.injective (h.inj _ _ (hin i hi) (hin j hj) hij)
  · obtain ⟨i, hi, hs⟩ := h.onto sym hl
    refine ⟨σ.symm i, ?_, by rw [hread, Equiv.apply_symm_apply, hs]⟩
    have hback := (hσ (σ.symm i)).mpr ⟨Nat.zero_le _, by rwa [Equiv.apply_symm_apply]⟩
    exact hback.2

/-- There are no more words than symbols. -/
theorem Lists.le {A : List ℕ} {used n : ℕ} {live : ℕ → Prop} (h : Lists A used live)
    (hlive : ∀ sym, live sym → sym < n) : used ≤ n := by
  have hcard := Finset.card_le_card_of_injOn (s := Finset.range used) (t := Finset.range n)
    (fun i => sdefl_sym (read A i))
    (fun i hi => by
      rw [Finset.mem_coe, Finset.mem_range] at hi ⊢
      exact hlive _ (h.mem i hi))
    (fun i hi j hj hij => by
      rw [Finset.mem_coe, Finset.mem_range] at hi hj
      exact h.inj i j hi hj hij)
  rwa [Finset.card_range, Finset.card_range] at hcard

/-- **Sorting.** The array lists the symbols in use, and the others have no length. -/
theorem sort_sym_lists {sym_cnt : ℕ} (freqs lens sym_out : List ℕ) (hpos : 0 < sym_cnt)
    (hcnt : sym_cnt ≤ 2 ^ 10) :
    let r := pakka_sdefl_sort_sym sym_cnt freqs lens sym_out
    Lists r.2.1 r.1 (fun sym => sym < sym_cnt ∧ read freqs sym ≠ 0) ∧
      ∀ sym, read r.2.2 sym = if sym < sym_cnt ∧ read freqs sym = 0 then 0 else read lens sym := by
  rw [pakka_sdefl_sort_sym]
  have hK : 4 ≤ PAKKA_SDEFL_CNT_NUM sym_cnt := by rw [PAKKA_SDEFL_CNT_NUM]; omega
  generalize PAKKA_SDEFL_CNT_NUM sym_cnt = K at hK
  dsimp only
  generalize hcnts : sym_cnt.fold (fun sym _ cnts =>
    write cnts (sdefl_bucket K (read freqs sym))
      (read cnts (sdefl_bucket K (read freqs sym)) + 1)) [] = cnts
  have hstart := start_buckets cnts (freq (sdefl_key freqs K) sym_cnt) (freq_zero (by omega))
    (fun b hb => by rw [← hcnts]; exact count_buckets (by omega) hb) (K - 1)
  rw [Nat.sub_add_cancel (by omega : 1 ≤ K)] at hstart
  generalize (K - 1).fold (fun i _ (s : List ℕ × ℕ) =>
    (write s.1 (i + 1) s.2, s.2 + read s.1 (i + 1))) (cnts, 0) = s at hstart ⊢
  obtain ⟨hused, hoff⟩ := hstart
  have hplace := place_syms freqs sym_cnt K s.1 sym_out lens
  generalize sym_cnt.fold (fun sym _ t => sdefl_place_sym K freqs sym t) (s.1, sym_out, lens) = t
    at hplace ⊢
  obtain ⟨hscatter, hlens⟩ := hplace
  obtain ⟨hat, hout⟩ := Prod.ext_iff.mp hscatter
  dsimp only at hat hout
  refine ⟨?_, hlens⟩
  have hlay (k : ℕ) (hk : k < K) (hfreq : 0 < freq (sdefl_key freqs K) sym_cnt k) :
      read s.1 k = below (freq (sdefl_key freqs K) sym_cnt) k := by
    have hk0 : 0 < k := by
      rcases Nat.eq_zero_or_pos k with rfl | h
      · rw [freq_zero (by omega)] at hfreq
        omega
      · exact h
    rw [hoff k hk0, if_pos (by omega)]
  have hkey (i k : ℕ) (_ : i < sym_cnt) (h : sdefl_key freqs K i = some k) : k < K := by
    rw [key_eq_some] at h
    rw [← h.2]
    exact bucket_lt (by omega) _
  have hapart := apart_below hlay hkey
  -- before the heap sort
  have hlists : Lists t.2.1 s.2 (fun sym => sym < sym_cnt ∧ read freqs sym ≠ 0) := by
    rw [hused, hout]
    have hcell {i k : ℕ} (hi : i < sym_cnt) (hk : sdefl_key freqs K i = some k) :
        sdefl_sym (read (scatter (sdefl_key freqs K)
          (fun sym => sdefl_word sym (read freqs sym)) sym_cnt (s.1, sym_out)).2
          (cell (sdefl_key freqs K) s.1 k i)) = i := by
      rw [hapart.scatter_cell hi hk, sdefl_sym_word _ (by omega)]
    refine ⟨fun c hc => ?_, fun c d hc hd hcd => ?_, fun sym hl => ?_⟩
    · obtain ⟨i, k, hi, hk, rfl⟩ := exists_cell hlay hc
      rw [hcell hi hk]
      exact ⟨hi, ((key_eq_some _ _).mp hk).1⟩
    · obtain ⟨i, k, hi, hk, rfl⟩ := exists_cell hlay hc
      obtain ⟨j, l, hj, hl, rfl⟩ := exists_cell hlay hd
      rw [hcell hi hk, hcell hj hl] at hcd
      subst hcd
      rw [hk] at hl
      rw [Option.some.inj hl]
    · have hk := (key_eq_some (K := K) sym _).mpr ⟨hl.2, rfl⟩
      exact ⟨_, cell_lt hlay hl.1 hk (hkey _ _ hl.1 hk), hcell hl.1 hk⟩
  apply hlists.rearranged (heap_sort_rearranged _ _ _)
  -- the last bucket, which is the one sorted, ends where the array does
  have hend : below (freq (sdefl_key freqs K) sym_cnt) K =
      below (freq (sdefl_key freqs K) sym_cnt) (K - 1) +
        freq (sdefl_key freqs K) sym_cnt (K - 1) := by
    rw [← below_succ, Nat.sub_add_cancel (by omega)]
  have hbefore : below (freq (sdefl_key freqs K) sym_cnt) (K - 1) =
      below (freq (sdefl_key freqs K) sym_cnt) (K - 2) +
        freq (sdefl_key freqs K) sym_cnt (K - 2) := by
    rw [← below_succ, show K - 2 + 1 = K - 1 by omega]
  rw [hat, scatter_off, scatter_off, hoff (K - 1) (by omega), hoff (K - 2) (by omega),
    if_pos (by omega), if_pos le_rfl, hused]
  omega

end Pakka
