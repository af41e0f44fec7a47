/-
Arrays with no end.

A program over arrays of known sizes can be read over arrays with no end, where a cell that was
never written holds zero and a write needs no bound: such an array is the list of its cells up to
the last one written. Its contents are a function from the indices, and writing updates it.

What is written and read is what matters, not the list: the laws are those of a function that is
updated at one place.
-/
import Mathlib.Algebra.Group.Defs
import Mathlib.Data.List.GetD
import Mathlib.Logic.Function.Basic

set_option autoImplicit false

namespace Cells

open Function

variable {α : Type*} [Zero α]

/-- The contents of a cell. -/
def read (A : List α) (i : ℕ) : α := A.getD i 0

/-- Write a cell. -/
def write : List α → ℕ → α → List α
  | [], 0, v => [v]
  | [], i + 1, v => 0 :: write [] i v
  | _ :: A, 0, v => v :: A
  | a :: A, i + 1, v => a :: write A i v

@[simp] theorem read_nil (i : ℕ) : read ([] : List α) i = 0 := rfl

@[simp] theorem read_cons_zero (a : α) (A : List α) : read (a :: A) 0 = a := rfl

@[simp] theorem read_cons_succ (a : α) (A : List α) (i : ℕ) : read (a :: A) (i + 1) = read A i :=
  rfl

theorem read_write_self (A : List α) (i : ℕ) (v : α) : read (write A i v) i = v := by
  induction i generalizing A with
  | zero => cases A <;> rfl
  | succ i ih =>
    cases A with
    | nil => rw [write, read_cons_succ, ih]
    | cons a A => rw [write, read_cons_succ, ih]

theorem read_write_of_ne (A : List α) {i j : ℕ} (h : j ≠ i) (v : α) :
    read (write A i v) j = read A j := by
  induction i generalizing A j with
  | zero =>
    obtain ⟨j, rfl⟩ : ∃ k, j = k + 1 := ⟨j - 1, by omega⟩
    cases A <;> simp [write]
  | succ i ih =>
    cases A with
    | nil =>
      cases j with
      | zero => rfl
      | succ j => rw [write, read_cons_succ, ih _ (by omega), read_nil, read_nil]
    | cons a A =>
      cases j with
      | zero => rfl
      | succ j => rw [write, read_cons_succ, read_cons_succ, ih _ (by omega)]

/-- **Writing is an update of the contents.** -/
@[simp] theorem read_write (A : List α) (i : ℕ) (v : α) :
    read (write A i v) = update (read A) i v := by
  funext j
  by_cases h : j = i
  · rw [h, read_write_self, update_self]
  · rw [read_write_of_ne A h, update_of_ne h]

theorem read_of_length_le {A : List α} {i : ℕ} (h : A.length ≤ i) : read A i = 0 :=
  List.getD_eq_default _ _ h

end Cells
