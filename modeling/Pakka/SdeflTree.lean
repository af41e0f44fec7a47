/-
The tree of the encoder and the lengths it gives.

The merge takes leaves and nodes in their order, so the array of parents it leaves is a
`ParentTree` whatever the frequencies are. Turning one leaf into two that are one longer keeps a
complete code complete. So the lengths are complete and respect the limit, provided that the leaf
to split is there: above the limit because the levels of a tree at most double, at the limit
because not every leaf can be at it already.

The limit is reached by texts whose frequencies grow like the Fibonacci numbers. Then leaves at the
limit are traded for shorter ones, and `LenInv` is the invariant that the trade keeps: the counts
are complete, and there is a leaf that can be split.
-/
import Pakka.SdeflSort
import Pakka.Lib.ParentTree

set_option autoImplicit false

namespace Pakka

open Cells CountingSort CanonicalCode Function

/-! ## The merge

Which cells hold parents already, and that a new parent is not smaller than the last.
-/

section Merge

theorem join_sym (A : List ℕ) (m n e j : ℕ) :
    sdefl_sym (read (sdefl_join A m n e) j) = sdefl_sym (read A j) := by
  have hwrite (B : List ℕ) (i num : ℕ) :
      sdefl_sym (read (write B i (sdefl_word (sdefl_sym (read B i)) num)) j) =
        sdefl_sym (read B j) := by
    rw [read_write]
    by_cases h : j = i
    · rw [h, update_self, sdefl_sym_word _ (sdefl_sym_lt _)]
    · rw [update_of_ne h]
  rw [sdefl_join, hwrite, hwrite, hwrite]

theorem join_parent (A : List ℕ) {m n e j : ℕ} (hj : j = m ∨ j = n) (hje : j ≠ e) :
    sdefl_num (read (sdefl_join A m n e) j) = e := by
  rw [sdefl_join, read_write, update_of_ne hje, read_write]
  by_cases hn : j = n
  · rw [hn, update_self, sdefl_num_word _ (sdefl_sym_lt _)]
  · rw [update_of_ne hn, hj.resolve_right hn, read_write, update_self,
      sdefl_num_word _ (sdefl_sym_lt _)]

theorem join_other (A : List ℕ) {m n e j : ℕ} (hm : j ≠ m) (hn : j ≠ n) (he : j ≠ e) :
    read (sdefl_join A m n e) j = read A j := by
  rw [sdefl_join, read_write, update_of_ne he, read_write, update_of_ne hn, read_write,
    update_of_ne hm]

/-- The parent that the array has for a node. -/
abbrev SdeflMerge.par (s : SdeflMerge) (j : ℕ) : ℕ := sdefl_num (read s.A j)

/-- What holds with `e` nodes built: the nodes in front of `b` have parents, and the leaves in
front of `i` as well, which makes two cells for each node. -/
structure MergeInv (A : List ℕ) (sym_cnt e : ℕ) (s : SdeflMerge) : Prop where
  le : s.i ≤ sym_cnt
  sum : s.i + s.b = 2 * e
  b_le : s.b ≤ e - 1
  sym : ∀ j, sdefl_sym (read s.A j) = sdefl_sym (read A j)
  lt : ∀ j, j < s.b → j < s.par j
  par_lt : ∀ j, j < s.b → s.par j < e
  mono : ∀ j k, j ≤ k → k < s.b → s.par j ≤ s.par k
  two : ∀ p, Nat.count (fun j => s.par j = p) s.b ≤ 2

variable {A : List ℕ} {sym_cnt e : ℕ} {s : SdeflMerge}

/-- A pick is the next leaf or the next node, whichever there is. -/
theorem pick_cases (hi : s.i ≤ sym_cnt) (hb : s.i = sym_cnt → s.b < e) (hle : s.b ≤ e) :
    (s.i < sym_cnt ∧ sdefl_pick sym_cnt e s = (s.i, { s with i := s.i + 1 })) ∨
      (s.b < e ∧ sdefl_pick sym_cnt e s = (s.b, { s with b := s.b + 1 })) := by
  rw [sdefl_pick]
  split_ifs with h
  · exact Or.inl ⟨lt_of_le_of_ne hi h.1, rfl⟩
  · refine Or.inr ⟨?_, rfl⟩
    by_cases hlast : s.i = sym_cnt
    · exact hb hlast
    · rw [sdefl_takes_leaf, not_and_or, not_or] at h
      rcases h with h | h
      · exact absurd hlast h
      · exact lt_of_le_of_ne hle h.1

/-- A round picks two cells, those of the nodes up to the new `b` among them. -/
theorem merge_step_cases (h : MergeInv A sym_cnt e s) (he : e + 2 ≤ sym_cnt) :
    ∃ m n i b, sdefl_merge_step sym_cnt e s = ⟨sdefl_join s.A m n e, i, b⟩ ∧
      i ≤ sym_cnt ∧ i + b = 2 * (e + 1) ∧ s.b ≤ b ∧ b ≤ s.b + 2 ∧ b ≤ e ∧ s.b ≤ m ∧ s.b ≤ n ∧
      ∀ j, s.b ≤ j → j < b → j = m ∨ j = n := by
  have hle := h.le
  have hsum := h.sum
  have hb := h.b_le
  rw [sdefl_merge_step]
  rcases pick_cases (s := s) (e := e) hle (by omega) (by omega) with ⟨h1, hp⟩ | ⟨h1, hp⟩ <;>
    rw [hp] <;> dsimp only
  · rcases pick_cases (s := { s with i := s.i + 1 }) (e := e) h1 (by dsimp only; omega)
      (by dsimp only; omega) with ⟨h2, hq⟩ | ⟨h2, hq⟩ <;> rw [hq] <;> dsimp only at h2 ⊢
    · exact ⟨s.i, s.i + 1, s.i + 1 + 1, s.b, rfl, by omega, by omega, by omega, by omega, by omega,
        by omega, by omega, by omega⟩
    · exact ⟨s.i, s.b, s.i + 1, s.b + 1, rfl, by omega, by omega, by omega, by omega, by omega,
        by omega, by omega, by omega⟩
  · rcases pick_cases (s := { s with b := s.b + 1 }) (e := e) hle (by dsimp only; omega)
      (by dsimp only; omega) with ⟨h2, hq⟩ | ⟨h2, hq⟩ <;> rw [hq] <;> dsimp only at h2 ⊢
    · exact ⟨s.b, s.i, s.i + 1, s.b + 1, rfl, by omega, by omega, by omega, by omega, by omega,
        by omega, by omega, by omega⟩
    · exact ⟨s.b, s.b + 1, s.i, s.b + 1 + 1, rfl, by omega, by omega, by omega, by omega, by omega,
        by omega, by omega, by omega⟩

theorem MergeInv.step (h : MergeInv A sym_cnt e s) (he : e + 2 ≤ sym_cnt) :
    MergeInv A sym_cnt (e + 1) (sdefl_merge_step sym_cnt e s) := by
  obtain ⟨m, n, i, b, hstep, hi, hsum, hsb, hbs, hbe, hm, hn, hnew⟩ := merge_step_cases h he
  rw [hstep]
  have hb := h.b_le
  have hold (j : ℕ) (hj : j < s.b) : sdefl_num (read (sdefl_join s.A m n e) j) = s.par j := by
    rw [join_other _ (by omega) (by omega) (by omega)]
  have hpar (j : ℕ) (hj : s.b ≤ j) (hjb : j < b) :
      sdefl_num (read (sdefl_join s.A m n e) j) = e :=
    join_parent _ (hnew j hj hjb) (by omega)
  refine ⟨hi, hsum, by simpa using hbe, fun j => by rw [join_sym, h.sym],
    fun j (hj : j < b) => ?_, fun j (hj : j < b) => ?_, fun j k hjk (hk : k < b) => ?_,
    fun p => ?_⟩ <;> dsimp only [SdeflMerge.par]
  · rcases Nat.lt_or_ge j s.b with hlt | hge
    · rw [hold j hlt]
      exact h.lt j hlt
    · rw [hpar j hge hj]
      omega
  · rcases Nat.lt_or_ge j s.b with hlt | hge
    · rw [hold j hlt]
      have := h.par_lt j hlt
      omega
    · rw [hpar j hge hj]
      omega
  · rcases Nat.lt_or_ge k s.b with hlt | hge
    · rw [hold k hlt, hold j (by omega)]
      exact h.mono j k hjk hlt
    · rw [hpar k hge hk]
      rcases Nat.lt_or_ge j s.b with hltj | hgej
      · rw [hold j hltj]
        exact le_of_lt (h.par_lt j hltj)
      · rw [hpar j hgej (by omega)]
  · -- the children of the new node are new, and those of the others are not
    obtain ⟨d, rfl⟩ := Nat.exists_eq_add_of_le hsb
    have hfirst : Nat.count (fun j => sdefl_num (read (sdefl_join s.A m n e) j) = p) s.b =
        Nat.count (fun j => s.par j = p) s.b := by
      rw [Nat.count_eq_card_filter_range, Nat.count_eq_card_filter_range]
      congr 1
      apply Finset.filter_congr
      intro j hj
      rw [hold j (Finset.mem_range.mp hj)]
    rw [Nat.count_add, hfirst]
    by_cases hp : p = e
    · have hnone : Nat.count (fun j => s.par j = p) s.b = 0 := by
        rw [Nat.count_iff_forall_not]
        intro j hj hjp
        have := h.par_lt j hj
        omega
      have hle := Nat.count_le (p := fun j => sdefl_num (read (sdefl_join s.A m n e) (s.b + j)) = p)
        (n := d)
      omega
    · have hnone : Nat.count (fun j => sdefl_num (read (sdefl_join s.A m n e) (s.b + j)) = p)
        d = 0 := by
        rw [Nat.count_iff_forall_not]
        intro j hj
        rw [hpar (s.b + j) (by omega) (by omega)]
        omega
      rw [hnone]
      exact h.two p

theorem merge_inv (A : List ℕ) (sym_cnt : ℕ) {e : ℕ} (he : e + 1 ≤ sym_cnt) :
    MergeInv A sym_cnt e (e.fold (fun e _ s => sdefl_merge_step sym_cnt e s) ⟨A, 0, 0⟩) := by
  induction e with
  | zero => exact ⟨Nat.zero_le _, rfl, le_rfl, fun _ => rfl, by simp, by simp, by simp, by simp⟩
  | succ e ih =>
    rw [Nat.fold_succ]
    exact (ih (by omega)).step (by omega)

/-- **The tree.** The array keeps its symbols, and the numbers are the parents of a tree. -/
theorem build_tree_spec (A : List ℕ) {sym_cnt : ℕ} (h : 2 ≤ sym_cnt) :
    (∀ j, sdefl_sym (read (pakka_sdefl_build_tree A sym_cnt) j) = sdefl_sym (read A j)) ∧
      ParentTree (fun j => sdefl_num (read (pakka_sdefl_build_tree A sym_cnt) j)) (sym_cnt - 2) := by
  have hinv := merge_inv A sym_cnt (e := sym_cnt - 1) (by omega)
  rw [pakka_sdefl_build_tree]
  generalize (sym_cnt - 1).fold (fun e _ s => sdefl_merge_step sym_cnt e s) ⟨A, 0, 0⟩ = s at hinv ⊢
  have hb : s.b = sym_cnt - 2 := by
    have := hinv.le
    have := hinv.sum
    have := hinv.b_le
    omega
  refine ⟨hinv.sym, ⟨fun j hj => hinv.lt j (by omega), fun j hj => ?_,
    fun j k hjk hk => hinv.mono j k hjk (by omega), fun p => hb ▸ hinv.two p⟩⟩
  have := hinv.par_lt j (by omega)
  dsimp only [SdeflMerge.par] at this
  omega

end Merge

/-! ## The lengths

The counts of leaves per length stay complete through each shortening.
-/

section Lengths

theorem read_split_leaf (len_cnt : List ℕ) (len : ℕ) :
    read (sdefl_split_leaf len_cnt len) = split (read len_cnt) len := by
  rw [sdefl_split_leaf, read_write, read_write, update_of_ne (by omega), split]

/-- The search for a shorter leaf finds one. -/
theorem shorter_spec {len_cnt : List ℕ} {m : ℕ}
    (h : ∃ l, 0 < l ∧ l < m ∧ read len_cnt l ≠ 0) :
    0 < sdefl_shorter len_cnt m ∧ sdefl_shorter len_cnt m < m ∧
      0 < read len_cnt (sdefl_shorter len_cnt m) := by
  induction m with
  | zero => omega
  | succ m ih =>
    obtain ⟨l, hl, hlm, hread⟩ := h
    rw [sdefl_shorter]
    split_ifs with hm
    · exact ⟨by omega, by omega, by omega⟩
    · have hne : l ≠ m := by
        rintro rfl
        exact hm hread
      have := ih ⟨l, hl, by omega, hread⟩
      omega

/-- What holds with the nodes from `n` on done: their numbers are depths, the lengths make a
complete code with two words more than nodes, and, as long as no node is at the limit, the words
of a length are the children on that level that are not nodes done. -/
structure LenInv (A : List ℕ) (par : ℕ → ℕ) (root max_code_len n : ℕ) (s : List ℕ × List ℕ) :
    Prop where
  sym : ∀ j, sdefl_sym (read s.1 j) = sdefl_sym (read A j)
  par_eq : ∀ j, j < n → sdefl_num (read s.1 j) = par j
  depth_eq : ∀ j, n ≤ j → j ≤ root → sdefl_num (read s.1 j) = ParentTree.depth par root j
  used_eq : used (read s.2) max_code_len = 2 ^ max_code_len
  total : below (read s.2) (max_code_len + 1) = root - n + 2
  zero : read s.2 0 = 0
  level : ParentTree.depth par root n < max_code_len → ∀ d, d < max_code_len →
    read s.2 (d + 1) + (ParentTree.level par root n (d + 1)).card =
      2 * (ParentTree.level par root n d).card

variable {A : List ℕ} {par : ℕ → ℕ} {root max_code_len n : ℕ} {s : List ℕ × List ℕ}

/-- At the limit some leaf is shorter: not all of them are as long as that. -/
theorem LenInv.exists_shorter (h : LenInv A par root max_code_len n s)
    (hmax : root + 2 ≤ 2 ^ max_code_len) (hpos : 0 < max_code_len) (hn : 0 < n) (hroot : n ≤ root) :
    ∃ l, 0 < l ∧ l < max_code_len ∧ read s.2 l ≠ 0 := by
  by_contra hcon
  push Not at hcon
  obtain ⟨k, rfl⟩ : ∃ k, max_code_len = k + 1 := ⟨max_code_len - 1, by omega⟩
  have hnone : used (read s.2) k = 0 := used_eq_zero fun l hl hle => hcon l hl (by omega)
  have hall := h.used_eq
  rw [used_succ, hnone] at hall
  have hle := le_below (read s.2) (show k + 1 < k + 1 + 1 by omega)
  have htotal := h.total
  omega

/-- Below the limit a node done so far has a leaf to become. -/
theorem LenInv.leaf_pos (h : LenInv A par root max_code_len (n + 1) s)
    (htree : ParentTree par root) (hn : n < root)
    (hlt : ParentTree.depth par root n < max_code_len) :
    0 < read s.2 (ParentTree.depth par root n) := by
  have hanti := htree.depth_antitone (by omega : n ≤ n + 1) hn
  have hdepth := htree.depth_eq hn
  have hlevel := h.level (by omega) (ParentTree.depth par root (par n)) (by omega)
  have hcard := htree.card_level_le n (ParentTree.depth par root (par n))
  rw [ParentTree.level_succ (le_of_lt hn), ← hdepth, if_pos rfl] at hcard
  rw [← hdepth] at hlevel
  omega

theorem LenInv.step (h : LenInv A par root max_code_len (n + 1) s)
    (htree : ParentTree par root) (hmax : root + 2 ≤ 2 ^ max_code_len) (hpos : 0 < max_code_len)
    (hn : n < root) : LenInv A par root max_code_len n (sdefl_len_step max_code_len n s) := by
  have hlt := htree.lt n hn
  have hle := htree.le n hn
  have hdepth := htree.depth_eq hn
  have hd : sdefl_num (read s.1 (par n)) + 1 = ParentTree.depth par root n := by
    rw [h.depth_eq _ (by omega) hle, hdepth]
  rw [sdefl_len_step, h.par_eq n (by omega), hd]
  generalize hlen : (if ParentTree.depth par root n ≥ max_code_len then
    sdefl_shorter s.2 max_code_len else ParentTree.depth par root n) = len
  -- the leaf to split: at the depth of the node, or the next shorter one if that is at the limit
  obtain ⟨hlen0, hlenm, hcnt⟩ : 0 < len ∧ len < max_code_len ∧ 0 < read s.2 len := by
    rw [← hlen]
    split_ifs with hlim
    · exact shorter_spec (h.exists_shorter hmax hpos (by omega) (by omega))
    · exact ⟨by omega, by omega, h.leaf_pos htree hn (by omega)⟩
  refine ⟨fun j => ?_, fun j hj => ?_, fun j hj hjr => ?_, ?_, ?_, ?_, fun hlim d hd' => ?_⟩
  · rw [read_write]
    by_cases hjn : j = n
    · rw [hjn, update_self, sdefl_sym_word _ (sdefl_sym_lt _), h.sym]
    · rw [update_of_ne hjn, h.sym]
  · rw [read_write, update_of_ne (by omega), h.par_eq j (by omega)]
  · rw [read_write]
    by_cases hjn : j = n
    · rw [hjn, update_self, sdefl_num_word _ (sdefl_sym_lt _)]
    · rw [update_of_ne hjn, h.depth_eq j (by omega) hjr]
  · rw [read_split_leaf, used_split hlen0 hcnt hlenm, h.used_eq]
  · rw [read_split_leaf, below_split hcnt (by omega), h.total]
    omega
  · rw [read_split_leaf, split_apply, if_neg (by omega), if_neg (by omega), h.zero]
  · -- no node is at the limit yet, and the leaf that is split is at the depth of the node
    have hanti := htree.depth_antitone (by omega : n ≤ n + 1) hn
    have hlevel := h.level (by omega) d hd'
    rw [if_neg (by omega)] at hlen
    rw [read_split_leaf, split_apply, ParentTree.level_succ (le_of_lt hn),
      ParentTree.level_succ (le_of_lt hn), hlen]
    by_cases h1 : d + 1 = len
    · rw [if_pos h1, if_pos h1.symm, if_neg (by omega)]
      rw [h1] at hlevel ⊢
      omega
    · rw [if_neg h1, if_neg (Ne.symm h1)]
      by_cases h2 : d = len
      · rw [if_pos (by omega), if_pos h2.symm]
        rw [h2] at hlevel ⊢
        omega
      · rw [if_neg (by omega), if_neg (Ne.symm h2)]
        omega

/-- The root alone: two words of length one. -/
theorem LenInv.start (A : List ℕ) (root max_code_len : ℕ) (hpos : 0 < max_code_len) :
    LenInv A (fun j => sdefl_num (read A j)) root max_code_len root
      (write A root (sdefl_sym (read A root)), write [] 1 2) := by
  -- two leaves of depth one, and the root with nothing above it
  have hcnt (l : ℕ) : read (write ([] : List ℕ) 1 2) l = if l = 1 then 2 else 0 := by
    rw [read_write]
    by_cases hl : l = 1
    · rw [hl, update_self, if_pos rfl]
    · rw [update_of_ne hl, if_neg hl, read_nil]
  have hlow : sdefl_num (sdefl_sym (read A root)) = 0 := by
    rw [sdefl_num, Nat.shiftRight_eq_div_pow]
    exact Nat.div_eq_of_lt (sdefl_sym_lt _)
  have hlevel (d : ℕ) : (ParentTree.level (fun j => sdefl_num (read A j)) root root d).card =
      if d = 0 then 1 else 0 := by
    rw [ParentTree.level, Finset.Icc_self, Finset.filter_singleton, ParentTree.depth_root]
    split_ifs with h1 h2 h2
    · rfl
    · omega
    · omega
    · rfl
  refine ⟨fun j => ?_, fun j hj => ?_, fun j hj hjr => ?_, ?_, ?_, by rw [hcnt]; rfl,
    fun _ d hd => ?_⟩
  · rw [read_write]
    by_cases hj : j = root
    · rw [hj, update_self, sdefl_sym_eq, sdefl_sym_eq, Nat.mod_mod]
    · rw [update_of_ne hj]
  · rw [read_write, update_of_ne (by omega)]
  · rw [show j = root by omega, read_write, update_self, ParentTree.depth_root, hlow]
  · induction max_code_len with
    | zero => omega
    | succ k ih =>
      rw [used_succ, hcnt]
      rcases Nat.eq_zero_or_pos k with rfl | hk
      · rfl
      · rw [ih hk, if_neg (by omega), pow_succ]
        ring
  · rw [Nat.sub_self, Nat.zero_add]
    induction max_code_len with
    | zero => omega
    | succ k ih =>
      rw [below_succ, hcnt]
      rcases Nat.eq_zero_or_pos k with rfl | hk
      · rfl
      · rw [ih hk, if_neg (by omega)]
  · rw [hcnt, hlevel, hlevel, if_neg (Nat.succ_ne_zero d)]
    split_ifs <;> omega

/-- **The lengths.** They are a complete code with one word for each leaf. -/
theorem gen_len_cnt_spec (A : List ℕ) (root max_code_len : ℕ)
    (htree : ParentTree (fun j => sdefl_num (read A j)) root)
    (hmax : root + 2 ≤ 2 ^ max_code_len) (hpos : 0 < max_code_len) :
    let r := pakka_sdefl_gen_len_cnt A root max_code_len
    (∀ j, sdefl_sym (read r.1 j) = sdefl_sym (read A j)) ∧
      used (read r.2) max_code_len = 2 ^ max_code_len ∧
      below (read r.2) (max_code_len + 1) = root + 2 ∧ read r.2 0 = 0 := by
  have hrun (n : ℕ) (hn : n ≤ root) (s : List ℕ × List ℕ)
      (h : LenInv A (fun j => sdefl_num (read A j)) root max_code_len n s) :
      LenInv A (fun j => sdefl_num (read A j)) root max_code_len 0
        (n.foldRev (fun n _ s => sdefl_len_step max_code_len n s) s) := by
    induction n generalizing s with
    | zero => exact h
    | succ n ih =>
      rw [Nat.foldRev_succ]
      exact ih (by omega) _ (h.step htree hmax hpos hn)
  have h := hrun root le_rfl _ (LenInv.start A root max_code_len hpos)
  exact ⟨h.sym, h.used_eq, h.total, h.zero⟩

end Lengths

end Pakka
