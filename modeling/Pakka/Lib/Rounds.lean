/-
Loops as rounds.

The body of a loop takes a state to another state, or out of the loop with a result, or it is
undefined there. A run of a loop is a chain of rounds that go on, up to a state whose round does
not; what that round gives is the outcome of the loop, and a missing outcome means that the round
is undefined. A loop that goes on for ever has no outcome. Here a loop written as a recursion on a
count is compared with that: if every round that goes on lowers a measure, the loop has an outcome
after no more rounds than the measure, and every greater count gives it.

A measure that gets smaller with each round bounds the count, and then the outcome is reached.
-/
import Mathlib.Tactic.Common

set_option autoImplicit false

namespace Rounds

variable {σ ρ : Type*}

/-- `n` rounds that go on. -/
inductive Chain (step : σ → Option (σ ⊕ ρ)) : ℕ → σ → σ → Prop
  | refl (s : σ) : Chain step 0 s s
  | head {n : ℕ} {s s' s'' : σ} (h : step s = some (.inl s')) (hc : Chain step n s' s'') :
      Chain step (n + 1) s s''

/-- **The loop ends** behind `n` rounds that go on: with `some r` when the next round leaves it with
`r`, with `none` when that round is undefined. -/
def EndsIn (step : σ → Option (σ ⊕ ρ)) (n : ℕ) (s : σ) (o : Option ρ) : Prop :=
  ∃ s', Chain step n s s' ∧ step s' = o.map .inr

variable {step : σ → Option (σ ⊕ ρ)} {s s' : σ} {n : ℕ} {o : Option ρ}

/-- A round that does not go on is the end. -/
theorem EndsIn.here (h : step s = o.map .inr) : EndsIn step 0 s o := ⟨s, .refl s, h⟩

theorem EndsIn.head (h : step s = some (.inl s')) (he : EndsIn step n s' o) :
    EndsIn step (n + 1) s o := by
  obtain ⟨z, hc, hz⟩ := he
  exact ⟨z, .head h hc, hz⟩

/-- **A measure bounds the rounds.** If every round that goes on lowers what is left, the loop ends,
after no more rounds than are left. -/
theorem ends_of_left (left : ℕ → σ → Prop)
    (hround : ∀ n s s', left n s → step s = some (.inl s') → ∃ m, m < n ∧ left m s')
    (h : left n s) : ∃ k, k ≤ n ∧ ∃ o, EndsIn step k s o := by
  induction n using Nat.strongRecOn generalizing s with
  | ind n ih =>
    rcases hstep : step s with _ | s' | r
    · exact ⟨0, Nat.zero_le _, none, .here hstep⟩
    · obtain ⟨m, hlt, h'⟩ := hround n s s' h hstep
      obtain ⟨k, hk, o, he⟩ := ih m hlt h'
      exact ⟨k + 1, by omega, o, he.head hstep⟩
    · exact ⟨0, Nat.zero_le _, some r, .here hstep⟩

/-- **A count that is not used up** gives what the loop ends with. `f` is the loop as a recursion on
a count of rounds. -/
theorem EndsIn.value {f : ℕ → σ → Option ρ}
    (hf : ∀ fuel s, f (fuel + 1) s = (step s).bind (Sum.elim (f fuel) some))
    (he : EndsIn step n s o) {fuel : ℕ} (hfuel : n < fuel) : f fuel s = o := by
  obtain ⟨z, hc, hz⟩ := he
  obtain ⟨k, rfl⟩ : ∃ k, fuel = k + 1 := ⟨fuel - 1, by omega⟩
  induction hc generalizing k with
  | refl =>
    rw [hf, hz]
    cases o <;> rfl
  | head hstep _ ih =>
    obtain ⟨k, rfl⟩ : ∃ j, k = j + 1 := ⟨k - 1, by omega⟩
    rw [hf, hstep]
    exact ih hz k (by omega)

end Rounds
