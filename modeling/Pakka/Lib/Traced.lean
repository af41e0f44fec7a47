/-
Computations that may fail and report events on the way.

The events say what was done before a failure, which the result alone does not. Erasing them gives
back the plain computation: `res` is compatible with sequencing.

Here this is used for events like "bytes were decoded": a computation avoids an event if no run of
it reports one, whatever the run returns.
-/
import Mathlib.Tactic.SplitIfs

set_option autoImplicit false

/-- A result or an error, and the events reported on the way. -/
structure Traced (E ε α : Type) where
  events : List E
  res : Except ε α

namespace Traced

variable {E ε α β : Type}

/-- Report an event. -/
def note (e : E) : Traced E ε Unit := ⟨[e], .ok ()⟩

/-- Give up. -/
def fail (e : ε) : Traced E ε α := ⟨[], .error e⟩

/-- A computation that reports nothing. -/
def lift (x : Except ε α) : Traced E ε α := ⟨[], x⟩

/-- Run one computation, then another on its result. -/
def bind (x : Traced E ε α) (k : α → Traced E ε β) : Traced E ε β :=
  match x.res with
  | .ok a => ⟨x.events ++ (k a).events, (k a).res⟩
  | .error e => ⟨x.events, .error e⟩

instance : Monad (Traced E ε) where
  pure a := ⟨[], .ok a⟩
  bind := bind

@[simp] theorem pure_res (a : α) : (pure a : Traced E ε α).res = .ok a := rfl

@[simp] theorem pure_events (a : α) : (pure a : Traced E ε α).events = [] := rfl

@[simp] theorem note_res (e : E) : (note e : Traced E ε Unit).res = .ok () := rfl

@[simp] theorem note_events (e : E) : (note e : Traced E ε Unit).events = [e] := rfl

@[simp] theorem fail_res (e : ε) : (fail e : Traced E ε α).res = .error e := rfl

@[simp] theorem fail_events (e : ε) : (fail e : Traced E ε α).events = [] := rfl

@[simp] theorem lift_res (x : Except ε α) : (lift x : Traced E ε α).res = x := rfl

@[simp] theorem lift_events (x : Except ε α) : (lift x : Traced E ε α).events = [] := rfl

/-- **Erasing events** is compatible with sequencing. -/
@[simp] theorem bind_res (x : Traced E ε α) (k : α → Traced E ε β) :
    (x >>= k).res = x.res >>= fun a => (k a).res := by
  change (bind x k).res = _
  unfold bind
  cases x.res <;> rfl

/-! ## Events that are not reported

A property of the events of a computation, by composition.
-/

/-- The computation never reports `e`. -/
def Avoids (e : E) (x : Traced E ε α) : Prop := e ∉ x.events

namespace Avoids

variable {e : E} {x : Traced E ε α}

theorem of_events_nil (h : x.events = []) : Avoids e x := by
  rw [Avoids, h]
  exact List.not_mem_nil

theorem pure (a : α) : Avoids e (Pure.pure a : Traced E ε α) := of_events_nil rfl

theorem fail (s : ε) : Avoids e (fail s : Traced E ε α) := of_events_nil rfl

theorem lift (y : Except ε α) : Avoids e (lift y : Traced E ε α) := of_events_nil rfl

theorem note {e' : E} (h : e ≠ e') : Avoids e (note e' : Traced E ε Unit) := by
  rw [Avoids, note_events, List.mem_singleton]
  exact h

theorem bind {k : α → Traced E ε β} (hx : Avoids e x) (hk : ∀ a, Avoids e (k a)) :
    Avoids e (x >>= k) := by
  change e ∉ (Traced.bind x k).events
  unfold Traced.bind
  cases x.res with
  | error s => exact hx
  | ok a =>
    intro h
    rcases List.mem_append.mp h with h | h
    · exact hx h
    · exact hk a h

/-- A branch, each side of which is only looked at where it is taken. -/
theorem ite {c : Prop} [Decidable c] {y : Traced E ε α} (hx : c → Avoids e x)
    (hy : ¬ c → Avoids e y) : Avoids e (if c then x else y) := by
  split_ifs with h
  · exact hx h
  · exact hy h

end Avoids

end Traced
