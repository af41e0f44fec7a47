/-
Splitting a list at its separators. A piece is what stands between two neighbouring separators, or
between one and an end of the list; it is empty exactly where the list is, or starts or ends with a
separator, or has two in a row.

Mathlib's `splitOnP` gives the list of the pieces. What is added here is the description of a single
piece by its place in the list, which is how a loop that looks for the next separator meets it.

It is empty exactly at two separators in a row and at an end that is one, so a rule about empty
components is a rule about separators.
-/
import Mathlib.Data.List.Basic

set_option autoImplicit false

namespace Split

variable {α : Type*} {p : α → Bool}

/-- `s` stands in `xs` with no separator in it and a separator, or an end, on either side. -/
def Piece (p : α → Bool) (xs s : List α) : Prop :=
  (∀ c ∈ s, p c = false) ∧
    ∃ before after, xs = before ++ s ++ after ∧
      (∀ c, before.getLast? = some c → p c = true) ∧ ∀ c, after.head? = some c → p c = true

/-- A list has no separator, or a first one. -/
theorem first_separator (p : α → Bool) (xs : List α) :
    (∀ c ∈ xs, p c = false) ∨
      ∃ s c rest, xs = s ++ c :: rest ∧ (∀ d ∈ s, p d = false) ∧ p c = true := by
  induction xs with
  | nil => exact Or.inl (by simp)
  | cons x xs ih =>
    by_cases hx : p x = true
    · exact Or.inr ⟨[], x, xs, rfl, by simp, hx⟩
    · rw [Bool.not_eq_true] at hx
      rcases ih with hnone | ⟨s, c, rest, rfl, hs, hc⟩
      · exact Or.inl (List.forall_mem_cons.mpr ⟨hx, hnone⟩)
      · exact Or.inr ⟨x :: s, c, rest, rfl, List.forall_mem_cons.mpr ⟨hx, hs⟩, hc⟩

/-- A piece of what follows a separator is a piece of the whole. -/
theorem Piece.after_separator {xs s : List α} (h : Piece p xs s) (front : List α) {c : α}
    (hc : p c = true) : Piece p (front ++ c :: xs) s := by
  obtain ⟨hs, before, after, rfl, hbefore, hafter⟩ := h
  refine ⟨hs, front ++ c :: before, after, by simp, ?_, hafter⟩
  intro d hd
  rw [List.getLast?_append, List.getLast?_cons] at hd
  cases hb : before.getLast? with
  | none =>
    rw [hb] at hd
    simp only [Option.getD_none, Option.some_or, Option.some.injEq] at hd
    rwa [← hd]
  | some e =>
    rw [hb] at hd
    simp only [Option.getD_some, Option.some_or, Option.some.injEq] at hd
    rw [← hd]
    exact hbefore e hb

/-- A list with no separator in front of an end or a separator is the first piece. -/
theorem mem_splitOnP_front {s after : List α} (hs : ∀ c ∈ s, p c = false)
    (hafter : ∀ c, after.head? = some c → p c = true) : s ∈ (s ++ after).splitOnP p := by
  cases after with
  | nil =>
    rw [List.append_nil, List.splitOnP_eq_singleton hs]
    exact List.mem_singleton_self s
  | cons c rest =>
    rw [List.splitOnP_append_cons_of_forall_mem hs c (hafter c rfl)]
    exact List.mem_cons_self

/-- **What splitting gives**: the pieces, and nothing else. -/
theorem mem_splitOnP {xs s : List α} : s ∈ xs.splitOnP p ↔ Piece p xs s := by
  constructor
  · -- the list gets shorter by its first separator and what is in front of it
    induction hn : xs.length using Nat.strongRecOn generalizing xs with
    | ind n ih =>
      intro hs
      rcases first_separator p xs with hnone | ⟨t, c, rest, rfl, ht, hc⟩
      · rw [List.splitOnP_eq_singleton hnone, List.mem_singleton] at hs
        subst hs
        exact ⟨hnone, [], [], by simp, by simp, by simp⟩
      · rw [List.splitOnP_append_cons_of_forall_mem ht c hc, List.mem_cons] at hs
        rcases hs with rfl | hs
        · exact ⟨ht, [], c :: rest, rfl, by simp, by simpa using hc⟩
        · have hlt : rest.length < n := by
            rw [← hn, List.length_append, List.length_cons]
            omega
          exact (ih rest.length hlt rfl hs).after_separator t hc
  · rintro ⟨hs, before, after, rfl, hbefore, hafter⟩
    rcases List.eq_nil_or_concat before with rfl | ⟨front, c, rfl⟩
    · exact mem_splitOnP_front hs hafter
    · have hc : p c = true := hbefore c (by simp)
      have hsplit : front ++ [c] ++ s ++ after = front ++ c :: (s ++ after) := by simp
      rw [List.concat_eq_append, hsplit, List.splitOnP_append_cons front (s ++ after) hc]
      exact List.mem_append_right _ (mem_splitOnP_front hs hafter)

/-- **Where a piece is empty**: the list is empty, or a separator leads, trails or is doubled. -/
theorem nil_mem_splitOnP {xs : List α} :
    [] ∈ xs.splitOnP p ↔
      xs = [] ∨ (∃ c rest, xs = c :: rest ∧ p c = true) ∨
        (∃ front c, xs = front ++ [c] ∧ p c = true) ∨
          ∃ front c d rest, xs = front ++ c :: d :: rest ∧ p c = true ∧ p d = true := by
  rw [mem_splitOnP]
  constructor
  · rintro ⟨-, before, after, rfl, hbefore, hafter⟩
    rcases List.eq_nil_or_concat before with rfl | ⟨front, c, rfl⟩
    · cases after with
      | nil => exact Or.inl rfl
      | cons d rest => exact Or.inr (Or.inl ⟨d, rest, rfl, hafter d rfl⟩)
    · have hc : p c = true := hbefore c (by simp)
      cases after with
      | nil => exact Or.inr (Or.inr (Or.inl ⟨front, c, by simp, hc⟩))
      | cons d rest =>
        exact Or.inr (Or.inr (Or.inr ⟨front, c, d, rest, by simp, hc, hafter d rfl⟩))
  · rintro (rfl | ⟨c, rest, rfl, hc⟩ | ⟨front, c, rfl, hc⟩ | ⟨front, c, d, rest, rfl, hc, hd⟩)
    · exact ⟨by simp, [], [], rfl, by simp, by simp⟩
    · exact ⟨by simp, [], c :: rest, rfl, by simp, by simpa using hc⟩
    · exact ⟨by simp, front ++ [c], [], by simp, by simpa using hc, by simp⟩
    · exact ⟨by simp, front ++ [c], d :: rest, by simp, by simpa using hc, by simpa using hd⟩

end Split
