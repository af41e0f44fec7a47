/-
Memory of a fixed size with checked accesses.

A buffer is the list of its cells. Reading or writing a run of cells fails where one of them is not
there, so a program over checked accesses that ends has stayed inside. A loop that fills a buffer
from the front keeps it in the shape of what is written so far and what was there before.

The result is `none` exactly where an access is outside. Nothing is said about the values in the
cells, so the cells may be of any type.
-/
import Mathlib.Data.List.GetD
import Mathlib.Tactic.Common

set_option autoImplicit false

namespace Buffer

variable {α : Type*}

/-- The `n` cells from `i` on. -/
def load (s : List α) (i n : ℕ) : Option (List α) :=
  if i + n ≤ s.length then some ((s.drop i).take n) else none

/-- Write the cells from `i` on. -/
def store (s : List α) (i : ℕ) (xs : List α) : Option (List α) :=
  if i + xs.length ≤ s.length then some (s.take i ++ xs ++ s.drop (i + xs.length)) else none

/-- The cell `i`. -/
def get (s : List α) (i : ℕ) : Option α := s[i]?

/-- Write behind what is written so far, where there is room for `room` cells in all. -/
def push (room : ℕ) (written xs : List α) : Option (List α) :=
  if written.length + xs.length ≤ room then some (written ++ xs) else none

theorem get_of_lt {s : List α} {i : ℕ} (h : i < s.length) (a : α) : get s i = some (s.getD i a) := by
  rw [get, List.getElem?_eq_getElem h, List.getD_eq_getElem _ _ h]

theorem push_of_le {room : ℕ} {written xs : List α} (h : written.length + xs.length ≤ room) :
    push room written xs = some (written ++ xs) :=
  if_pos h

theorem load_of_le {s : List α} {i n : ℕ} (h : i + n ≤ s.length) :
    load s i n = some ((s.drop i).take n) :=
  if_pos h

/-- A buffer that is filled from the front. -/
theorem store_eq_push (written xs rest : List α) :
    store (written ++ rest) written.length xs =
      (push (written.length + rest.length) written xs).map (· ++ rest.drop xs.length) := by
  rw [store, push, List.length_append, List.take_left, ← List.drop_drop, List.drop_left]
  split_ifs <;> rfl

/-- Writing behind what is written so far. -/
theorem store_append (written xs rest : List α) (h : xs.length ≤ rest.length) :
    store (written ++ rest) written.length xs = some (written ++ xs ++ rest.drop xs.length) := by
  rw [store_eq_push, push_of_le (by omega), Option.map_some]

end Buffer
