/-
Computations over a set of named files that can fail, with the log of what
they did to the files.

The log survives a failure: a computation that writes half a file and then
gives up has written half a file. Reading is not an effect here. A computation
that reads takes the contents as an argument, so the log alone determines what
the files hold at every point of a run, and a crash at a point is a prefix of the
log.

The last section is the publish pattern: prepare everything in a scratch file,
then rename it over the live one. Whatever the scratch work does, and wherever
it stops, the live file is the old one or the finished new one.
-/
import Pakka.Lib.ByteImage
import Mathlib.Logic.Function.Basic

set_option autoImplicit false

open ByteImage

/-! ## Files and operations

What an operation does to the files.
-/

/-- The contents of the named files, `none` where there is no file. -/
abbrev Files (ι : Type) := ι → Option Bytes

/-- One change to the files. -/
inductive FileOp (ι : Type) where
  | create (f : ι)
  | write (f : ι) (off : ℕ) (bs : Bytes)
  | truncate (f : ι) (n : ℕ)
  | remove (f : ι)
  | rename (src dst : ι)
  deriving DecidableEq, Repr

namespace FileOp

variable {ι : Type} [DecidableEq ι]

/-- The files after one operation. `rename` replaces its destination. -/
def apply (fs : Files ι) : FileOp ι → Files ι
  | create f => Function.update fs f (some [])
  | write f off bs => Function.update fs f ((fs f).map (overwrite · off bs))
  | truncate f n =>
    Function.update fs f ((fs f).map fun c => c.take n ++ List.replicate (n - c.length) 0)
  | remove f => Function.update fs f none
  | rename src dst => Function.update (Function.update fs dst (fs src)) src none

/-- The files after a log. -/
def run (fs : Files ι) (log : List (FileOp ι)) : Files ι := log.foldl apply fs

/-- Whether an operation can change the contents of `f`. -/
def Touches (f : ι) : FileOp ι → Prop
  | create g => g = f
  | write g _ bs => g = f ∧ bs ≠ []
  | truncate g _ => g = f
  | remove g => g = f
  | rename src dst => src = f ∨ dst = f

@[simp] theorem run_nil (fs : Files ι) : run fs [] = fs := rfl

theorem run_append (fs : Files ι) (l m : List (FileOp ι)) :
    run fs (l ++ m) = run (run fs l) m := by
  simp [run]

theorem run_cons (fs : Files ι) (op : FileOp ι) (l : List (FileOp ι)) :
    run fs (op :: l) = run (apply fs op) l := rfl

/-- An operation that does not touch a file leaves it as it is. -/
theorem apply_of_not_touches {fs : Files ι} {f : ι} {op : FileOp ι} (h : ¬ op.Touches f) :
    apply fs op f = fs f := by
  cases op with
  | create g =>
    exact Function.update_of_ne (fun he => h he.symm) _ _
  | write g off bs =>
    by_cases hg : g = f
    · have hbs : bs = [] := by
        by_contra hne
        exact h ⟨hg, hne⟩
      rw [hbs, ← hg]
      simp [apply]
    · exact Function.update_of_ne (fun he => hg he.symm) _ _
  | truncate g n =>
    exact Function.update_of_ne (fun he => h he.symm) _ _
  | remove g =>
    exact Function.update_of_ne (fun he => h he.symm) _ _
  | rename src dst =>
    have hs : f ≠ src := fun he => h (Or.inl he.symm)
    have hd : f ≠ dst := fun he => h (Or.inr he.symm)
    simp only [apply]
    rw [Function.update_of_ne hs, Function.update_of_ne hd]

/-- A log that never touches a file leaves it as it is. -/
theorem run_of_not_touches {fs : Files ι} {f : ι} {log : List (FileOp ι)}
    (h : ∀ op ∈ log, ¬ op.Touches f) : run fs log f = fs f := by
  induction log generalizing fs with
  | nil => rfl
  | cons op log ih =>
    rw [run_cons, ih (fun o ho => h o (List.mem_cons_of_mem _ ho)),
      apply_of_not_touches (h op List.mem_cons_self)]

/-! ## Writes to one file

A run of writes is one change of one file.
-/

theorem run_write {fs : Files ι} {f : ι} {c bs : Bytes} {off : ℕ} (hf : fs f = some c) :
    run fs [write f off bs] f = some (overwrite c off bs) := by
  simp [run, apply, hf]

/-! ## Publishing

A rename, and the states in front of it and behind it.
-/

/-- **Publish by rename.** A log that works away from `live` and then renames
`scratch` over it shows, at every point, the old `live` or the scratch file that
the work finished. -/
theorem publish_cases (fs : Files ι) {scratch live : ι} {work pre : List (FileOp ι)}
    (hne : scratch ≠ live) (hwork : ∀ op ∈ work, ¬ op.Touches live)
    (hpre : pre <+: work ++ [rename scratch live]) :
    run fs pre live = fs live ∨ run fs pre live = run fs work scratch := by
  rcases List.prefix_concat_iff.mp hpre with rfl | hp
  · right
    rw [run_append]
    simp [run, apply, Function.update_of_ne hne.symm]
  · left
    exact run_of_not_touches fun op ho => hwork op (hp.subset ho)

end FileOp

/-! ## Logged computations

Result and log, with the laws of sequencing for both.
-/

/-- A result, or an error, and what was done to the files on the way. -/
structure Logged (ι ε α : Type) where
  log : List (FileOp ι)
  res : Except ε α

namespace Logged

variable {ι ε α β : Type}

/-- Do one operation. -/
def emit (op : FileOp ι) : Logged ι ε Unit := ⟨[op], .ok ()⟩

/-- Give up. -/
def fail (e : ε) : Logged ι ε α := ⟨[], .error e⟩

/-- Use a value that may be missing. -/
def ofOption (o : Option α) (e : ε) : Logged ι ε α :=
  match o with
  | some a => ⟨[], .ok a⟩
  | none => fail e

/-- A check without effects. -/
def ofExcept (x : Except ε α) : Logged ι ε α := ⟨[], x⟩

/-- Run one computation, then another on its result. -/
def bind (x : Logged ι ε α) (k : α → Logged ι ε β) : Logged ι ε β :=
  match x.res with
  | .ok a => ⟨x.log ++ (k a).log, (k a).res⟩
  | .error e => ⟨x.log, .error e⟩

instance : Monad (Logged ι ε) where
  pure a := ⟨[], .ok a⟩
  bind := bind

@[simp] theorem pure_res (a : α) : (pure a : Logged ι ε α).res = .ok a := rfl

@[simp] theorem pure_log (a : α) : (pure a : Logged ι ε α).log = [] := rfl

@[simp] theorem emit_res (op : FileOp ι) : (emit op : Logged ι ε Unit).res = .ok () := rfl

@[simp] theorem emit_log (op : FileOp ι) : (emit op : Logged ι ε Unit).log = [op] := rfl

@[simp] theorem fail_res (e : ε) : (fail e : Logged ι ε α).res = .error e := rfl

@[simp] theorem fail_log (e : ε) : (fail e : Logged ι ε α).log = [] := rfl

@[simp] theorem ofOption_log (o : Option α) (e : ε) : (ofOption o e : Logged ι ε α).log = [] := by
  cases o <;> rfl

@[simp] theorem ofOption_res_ok (o : Option α) (e : ε) (a : α) :
    (ofOption o e : Logged ι ε α).res = .ok a ↔ o = some a := by
  cases o <;> simp [ofOption, fail]

@[simp] theorem ofExcept_log (x : Except ε α) : (ofExcept x : Logged ι ε α).log = [] := rfl

@[simp] theorem ofExcept_res (x : Except ε α) : (ofExcept x : Logged ι ε α).res = x := rfl

/-- A sequence succeeds when both parts do. -/
theorem bind_res_ok {x : Logged ι ε α} {k : α → Logged ι ε β} {b : β} :
    (x >>= k).res = .ok b ↔ ∃ a, x.res = .ok a ∧ (k a).res = .ok b := by
  change (bind x k).res = .ok b ↔ _
  unfold bind
  cases hx : x.res with
  | ok a => simp
  | error e => simp

/-- The log of a sequence whose first part succeeds. -/
theorem bind_log_of_ok {x : Logged ι ε α} {k : α → Logged ι ε β} {a : α}
    (hx : x.res = .ok a) : (x >>= k).log = x.log ++ (k a).log := by
  change (bind x k).log = _
  unfold bind
  rw [hx]

/-- A sequence whose first part fails is that part. -/
theorem bind_eq_of_error {x : Logged ι ε α} {k : α → Logged ι ε β} {e : ε}
    (hx : x.res = .error e) : x >>= k = ⟨x.log, .error e⟩ := by
  change bind x k = _
  unfold bind
  rw [hx]

/-- A sequence whose first part succeeds. -/
theorem bind_eq_of_ok {x : Logged ι ε α} {k : α → Logged ι ε β} {a : α}
    (hx : x.res = .ok a) : x >>= k = ⟨x.log ++ (k a).log, (k a).res⟩ := by
  change bind x k = _
  unfold bind
  rw [hx]

/-- Whatever holds of every operation of both parts holds of the sequence,
failure or not. -/
theorem forall_mem_bind {P : FileOp ι → Prop} {x : Logged ι ε α} {k : α → Logged ι ε β}
    (hx : ∀ op ∈ x.log, P op) (hk : ∀ a, x.res = .ok a → ∀ op ∈ (k a).log, P op) :
    ∀ op ∈ (x >>= k).log, P op := by
  change ∀ op ∈ (bind x k).log, P op
  unfold bind
  cases hr : x.res with
  | ok a =>
    intro op ho
    rcases List.mem_append.mp ho with h | h
    · exact hx op h
    · exact hk a hr op h
  | error e => exact hx

theorem forall_mem_ite {P : FileOp ι → Prop} {c : Prop} [Decidable c] {x y : Logged ι ε α}
    (hx : ∀ op ∈ x.log, P op) (hy : ∀ op ∈ y.log, P op) :
    ∀ op ∈ (if c then x else y).log, P op := by
  split_ifs
  · exact hx
  · exact hy

end Logged
