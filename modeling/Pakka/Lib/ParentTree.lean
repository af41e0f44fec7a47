/-
Trees in an array, given by parents.

The nodes are the numbers up to the root, the parent of a node is a greater number, and it does
not get smaller from one node to the next; no node has more than two children among the nodes.
Such an array is what the two-queue merge builds. The depth of a node is one more than its
parent's, so it does not grow with the node, and a level has at most twice the nodes of the one
above it.

Nothing is said of weights. What the code construction needs of the tree is that its levels can be
counted, and this is where that comes from.
-/
import Mathlib.Data.Finset.Interval
import Mathlib.Order.Interval.Finset.Nat
import Mathlib.Algebra.Order.BigOperators.Group.Finset
import Mathlib.Data.Nat.Count

set_option autoImplicit false

/-- A tree with nodes `0` to `root`. -/
structure ParentTree (par : ℕ → ℕ) (root : ℕ) : Prop where
  lt : ∀ j, j < root → j < par j
  le : ∀ j, j < root → par j ≤ root
  mono : ∀ j k, j ≤ k → k < root → par j ≤ par k
  two : ∀ p, Nat.count (fun j => par j = p) root ≤ 2

namespace ParentTree

variable {par : ℕ → ℕ} {root : ℕ}

/-- The steps to the root, of which no more than `fuel` are counted. -/
def climb (par : ℕ → ℕ) (root : ℕ) : ℕ → ℕ → ℕ
  | 0, _ => 0
  | fuel + 1, j => if j < root then climb par root fuel (par j) + 1 else 0

/-- The depth of a node. -/
def depth (par : ℕ → ℕ) (root j : ℕ) : ℕ := climb par root (root - j) j

theorem climb_eq (h : ParentTree par root) {fuel fuel' j : ℕ} (hf : root - j ≤ fuel)
    (hf' : root - j ≤ fuel') : climb par root fuel j = climb par root fuel' j := by
  induction fuel generalizing fuel' j with
  | zero =>
    cases fuel' with
    | zero => rfl
    | succ fuel' => rw [climb, climb, if_neg (by omega)]
  | succ fuel ih =>
    cases fuel' with
    | zero => rw [climb, climb, if_neg (by omega)]
    | succ fuel' =>
      rw [climb, climb]
      by_cases hj : j < root
      · have hpar := h.lt j hj
        have hrec : climb par root fuel (par j) = climb par root fuel' (par j) :=
          ih (by omega) (by omega)
        rw [if_pos hj, if_pos hj, hrec]
      · rw [if_neg hj, if_neg hj]

@[simp] theorem depth_root (par : ℕ → ℕ) (root : ℕ) : depth par root root = 0 := by
  rw [depth, Nat.sub_self, climb]

theorem depth_eq (h : ParentTree par root) {j : ℕ} (hj : j < root) :
    depth par root j = depth par root (par j) + 1 := by
  have hpar := h.lt j hj
  obtain ⟨k, hk⟩ : ∃ k, root - j = k + 1 := ⟨root - j - 1, by omega⟩
  have hrec : climb par root k (par j) = climb par root (root - par j) (par j) :=
    h.climb_eq (by omega) le_rfl
  rw [depth, hk, climb, if_pos hj, depth, hrec]

/-- A node is not deeper than the nodes before it. -/
theorem depth_antitone (h : ParentTree par root) {j k : ℕ} (hjk : j ≤ k) (hk : k ≤ root) :
    depth par root k ≤ depth par root j := by
  generalize hd : depth par root k = d
  induction d generalizing j k with
  | zero => exact Nat.zero_le _
  | succ d ih =>
    have hkr : k < root := by
      by_contra hcon
      rw [show k = root by omega, depth_root] at hd
      omega
    rw [h.depth_eq hkr] at hd
    have hle := ih (h.mono j k hjk hkr) (h.le k hkr) (by omega)
    rw [h.depth_eq (by omega)]
    omega

/-- The nodes from `n` on at a depth. -/
def level (par : ℕ → ℕ) (root n d : ℕ) : Finset ℕ :=
  (Finset.Icc n root).filter fun j => depth par root j = d

/-- **A level is at most twice the one above.** -/
theorem card_level_le (h : ParentTree par root) (n d : ℕ) :
    (level par root n (d + 1)).card ≤ 2 * (level par root (n + 1) d).card := by
  apply Finset.card_le_mul_card_image_of_maps_to (f := par)
  · intro j hj
    simp only [level, Finset.mem_filter, Finset.mem_Icc] at hj ⊢
    have hjr : j < root := by
      by_contra hcon
      rw [show j = root by omega, depth_root] at hj
      omega
    have hdepth := h.depth_eq hjr
    have hlt := h.lt j hjr
    exact ⟨⟨by omega, h.le j hjr⟩, by omega⟩
  · intro p _
    refine le_trans ?_ (h.two p)
    rw [Nat.count_eq_card_filter_range]
    apply Finset.card_le_card
    intro j hj
    simp only [level, Finset.mem_filter, Finset.mem_Icc, Finset.mem_range] at hj ⊢
    refine ⟨?_, hj.2⟩
    by_contra hcon
    rw [show j = root by omega, depth_root] at hj
    omega

theorem level_succ {n d : ℕ} (hn : n ≤ root) :
    (level par root n d).card =
      (level par root (n + 1) d).card + if depth par root n = d then 1 else 0 := by
  have hsplit : Finset.Icc n root = insert n (Finset.Icc (n + 1) root) := by
    ext j
    simp only [Finset.mem_Icc, Finset.mem_insert]
    omega
  have hnot : n ∉ (Finset.Icc (n + 1) root).filter fun j => depth par root j = d := by
    simp
  rw [level, hsplit, Finset.filter_insert, level]
  split_ifs with hd
  · rw [Finset.card_insert_of_notMem hnot]
  · rfl

end ParentTree
