/-
Computations that assign to a state on the way and may fail at any point.

A failure carries the state as it stands there. So a program that assigns too early shows it,
which one that only delivers the new state at its end cannot. `Guards` compares the two: the
program with assignments leaves what the other delivers, and where it fails the state is the one
it started from.

A program is built from reads, assignments, steps that may fail, and sequencing. `Guards` is closed
under these as long as no step that may fail comes behind an assignment, so that whether a program
keeps its state on failure is decided by looking at the order of its steps.
-/
import Pakka.Lib.Faults

set_option autoImplicit false

open ByteImage Logged

/-- A computation on a state. A failure says what the state was by then. -/
def Stateful (ι σ ε α : Type) := σ → Logged ι (ε × σ) (α × σ)

namespace Stateful

variable {ι σ ε α β : Type}

instance : Monad (Stateful ι σ ε) where
  pure a := fun s => pure (a, s)
  bind x k := fun s => x s >>= fun r => k r.1 r.2

/-- Look at the state. -/
def get : Stateful ι σ ε σ := fun s => pure (s, s)

/-- Assign to the state. -/
def assign (f : σ → σ) : Stateful ι σ ε Unit := fun s => pure ((), f s)

/-- Do something that may fail and does not assign. -/
def perform (x : Logged ι ε α) : Stateful ι σ ε α :=
  fun s => (x.mapError fun e => (e, s)) >>= fun a => pure (a, s)

/-- Give up. -/
def fail (e : ε) : Stateful ι σ ε α := fun s => Logged.fail (e, s)

/-- The state a computation leaves. -/
def exec (x : Stateful ι σ ε Unit) (s : σ) : Logged ι (ε × σ) σ := x s >>= fun r => pure r.2

variable {s : σ}

theorem exec_get (k : σ → Stateful ι σ ε Unit) : (get >>= k).exec s = (k s).exec s := by
  change Logged.bind (Logged.bind (pure (s, s)) fun r => k r.1 r.2) _ = Logged.bind (k s s) _
  simp only [Logged.bind, pure_res, pure_log, List.nil_append]

theorem exec_perform_ok {c : Logged ι ε α} {a : α} (hc : c.res = .ok a)
    (k : α → Stateful ι σ ε Unit) :
    (perform c >>= k).exec s = ⟨c.log ++ ((k a).exec s).log, ((k a).exec s).res⟩ := by
  obtain ⟨log, res⟩ := c
  subst hc
  change Logged.bind (Logged.bind ⟨log ++ [], .ok (a, s)⟩ fun r => k r.1 r.2) _ =
    ⟨log ++ (Logged.bind (k a s) _).log, (Logged.bind (k a s) _).res⟩
  simp only [Logged.bind, List.append_nil]
  cases (k a s).res <;> simp only [List.append_assoc]

theorem exec_perform_error {c : Logged ι ε α} {e : ε} (hc : c.res = .error e)
    (k : α → Stateful ι σ ε Unit) : (perform c >>= k).exec s = ⟨c.log, .error (e, s)⟩ := by
  obtain ⟨log, res⟩ := c
  subst hc
  rfl

/-! ## Programs that assign last

Closed under sequencing with reads and with everything that can fail, as long as nothing was
assigned.
-/

/-- From `s` on, `x` leaves the state `y` delivers, or fails where `y` fails and leaves `s`. -/
def Guards (s : σ) (x : Stateful ι σ ε Unit) (y : Logged ι ε σ) : Prop :=
  x.exec s = y.mapError fun e => (e, s)

/-- **A step in front that may fail.** Nothing is assigned before it. -/
theorem Guards.perform {c : Logged ι ε α} {k : α → Stateful ι σ ε Unit} {y : α → Logged ι ε σ}
    (h : ∀ a, c.res = .ok a → Guards s (k a) (y a)) :
    Guards s (Stateful.perform c >>= k) (c >>= y) := by
  unfold Guards
  cases hc : c.res with
  | error e =>
    rw [exec_perform_error hc, Logged.bind_eq_of_error hc]
    rfl
  | ok a =>
    rw [exec_perform_ok hc, Logged.bind_eq_of_ok hc, h a hc]
    rfl

/-- Looking at the state changes nothing. -/
theorem Guards.get {k : σ → Stateful ι σ ε Unit} {y : Logged ι ε σ} (h : Guards s (k s) y) :
    Guards s (Stateful.get >>= k) y := (exec_get k).trans h

theorem Guards.fail (e : ε) : Guards s (Stateful.fail (ι := ι) e) (Logged.fail e) := rfl

/-- A branch. -/
theorem Guards.ite {p : Prop} [Decidable p] {x x' : Stateful ι σ ε Unit} {y y' : Logged ι ε σ}
    (h : p → Guards s x y) (h' : ¬ p → Guards s x' y') :
    Guards s (if p then x else x') (if p then y else y') := by
  split_ifs with hp
  · exact h hp
  · exact h' hp

variable {x : Stateful ι σ ε Unit} {y : Logged ι ε σ}

/-- **A failure leaves the state as it was.** -/
theorem Guards.of_error (h : Guards s x y) {e : ε} {s' : σ} (he : (x.exec s).res = .error (e, s')) :
    s' = s := by
  rw [h, Logged.mapError] at he
  cases hy : y.res with
  | ok a =>
    rw [hy] at he
    cases he
  | error e' =>
    rw [hy] at he
    exact (congrArg Prod.snd (Except.error.inj he)).symm

end Stateful
