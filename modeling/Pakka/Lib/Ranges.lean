/-
Ranges of positions, each a start and a length, laid out one behind the other.

Such a list is described by its first position and its last: each range starts where the one before
it ends. Then the lengths add up to the distance between the two (`Consecutive.sum`), every range
lies between them (`Consecutive.within`), and two different ranges have no position in common
(`Consecutive.apart`).
-/
import Mathlib.Algebra.Ring.Nat

set_option autoImplicit false

namespace Ranges

/-- The ranges start at `a`, each where the one before ends, and the last ends at `b`. -/
def Consecutive : ℕ → List (ℕ × ℕ) → ℕ → Prop
  | a, [], b => a = b
  | a, r :: rs, b => r.1 = a ∧ Consecutive (a + r.2) rs b

/-- Ranges in order that do not meet. -/
def Separate (rs : List (ℕ × ℕ)) : Prop := rs.Pairwise fun r r' => r.1 + r.2 ≤ r'.1

variable {a b : ℕ} {rs : List (ℕ × ℕ)}

/-- What is laid out takes the sum of the lengths. -/
theorem Consecutive.sum (h : Consecutive a rs b) : b = a + (rs.map Prod.snd).sum := by
  induction rs generalizing a with
  | nil => exact h.symm
  | cons r rs ih =>
    rw [ih h.2, List.map_cons, List.sum_cons]
    omega

/-- All ranges are between the ends. -/
theorem Consecutive.within (h : Consecutive a rs b) : ∀ r ∈ rs, a ≤ r.1 ∧ r.1 + r.2 ≤ b := by
  induction rs generalizing a with
  | nil =>
    intro r hr
    cases hr
  | cons r rs ih =>
    intro x hx
    have hend := h.2.sum
    rcases List.mem_cons.mp hx with rfl | hx
    · have hstart := h.1
      omega
    · have := ih h.2 x hx
      omega

/-- **Ranges laid out one behind the other do not meet.** -/
theorem Consecutive.apart (h : Consecutive a rs b) : Separate rs := by
  induction rs generalizing a with
  | nil => exact List.Pairwise.nil
  | cons r rs ih =>
    refine List.Pairwise.cons ?_ (ih h.2)
    intro x hx
    have hstart := h.1
    have := (h.2.within x hx).1
    omega

end Ranges
