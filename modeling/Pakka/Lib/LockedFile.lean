/-
Processes that share a file by its path and lock what they opened.

A process opens the path, takes a write lock on the inode it got, loads the contents and works on
them through its descriptor. Some of its calls write a new file, close the descriptor, rename the
new file over the path and open the path again. The lock belongs to the process and the inode, and
it goes with any descriptor of that inode that the process closes. So a lock may be taken on an
inode the path has left, and a process may hold the file at the path without a lock.

`Guarded` says that a lock is not taken in either of these situations. Then at most one process at
a time is past its lock, and what the processes do amounts to what they would do one after the
other to a single file: `World.run` refines `serial`.
-/
import Mathlib.Data.Fintype.Defs
import Mathlib.Data.List.Basic
import Mathlib.Logic.Function.Basic

set_option autoImplicit false

namespace LockedFile

/-! ## Programs

What a process does between two steps is its own; the steps are those others can see.
-/

/-- What a call does: it works on the open file, or it writes a file of its own. In that case
`new` is what gets to the path (nothing if the rename fails), and `fd` says whether the path could
be opened again. -/
inductive Effect (C H : Type) where
  | edited (contents : C) (handle : H)
  | rebuilt (new : Option C) (fd : Bool) (handle : H)

/-- A program that works on a file: how it loads one and what its calls do, also to a handle that
has no file any more. -/
structure Program (μ κ C H : Type) where
  load : μ → C → Option H
  call : κ → C → H → Effect C H
  orphan : κ → H → H

/-- Where a process is. From `written` to `renamed` it is in a call that rebuilds. -/
inductive Stage (C H : Type) where
  | idle
  | opened (inode : ℕ)
  | locked (inode : ℕ)
  | ready (fd : Option ℕ) (handle : H)
  | written (inode : ℕ) (new : Option C) (fd : Bool) (handle : H)
  | closed (new : Option C) (fd : Bool) (handle : H)
  | renamed (fd : Bool) (handle : H)

/-- What a process does next. A call may close descriptors of other files it reads. -/
inductive Action (μ κ : Type) where
  | open_path
  | try_lock
  | load (mode : μ)
  | call (k : κ) (closes : List ℕ)
  | close_old
  | rename
  | reopen
  | close

/-- The file system as far as it matters: the inode at the path, what the inodes hold and who has
the lock of each, the inodes from `next` on being unused; and where the processes are. -/
structure World (ι C H : Type) where
  path : ℕ
  data : ℕ → C
  owner : ℕ → Option ι
  next : ℕ
  stage : ι → Stage C H

variable {ι μ κ C H : Type} [DecidableEq ι]

namespace World

/-- One file at the path, and nobody at it. -/
def initial (c : C) : World ι C H := ⟨0, fun _ => c, fun _ => none, 1, fun _ => .idle⟩

/-- The process `p` gets to another stage. -/
def enter (w : World ι C H) (p : ι) (s : Stage C H) : World ι C H :=
  { w with stage := Function.update w.stage p s }

/-- The process `p` closes descriptors of these inodes: its locks on them are gone. -/
def release (w : World ι C H) (p : ι) (is : List ℕ) : World ι C H :=
  { w with owner := fun j => if j ∈ is ∧ w.owner j = some p then none else w.owner j }

/-- Nobody else has the lock. -/
def free (w : World ι C H) (p : ι) (i : ℕ) : Bool := w.owner i = none || w.owner i = some p

def lock (w : World ι C H) (p : ι) (i : ℕ) : World ι C H :=
  { w with owner := Function.update w.owner i (some p) }

/-- Write to an inode. -/
def write (w : World ι C H) (i : ℕ) (c : C) : World ι C H :=
  { w with data := Function.update w.data i c }

/-- Rename a new file over the path. -/
def publish (w : World ι C H) : Option C → World ι C H
  | some c => { w with path := w.next, data := Function.update w.data w.next c, next := w.next + 1 }
  | none => w

/-- The process `p` is at inode `i` and a call of it had this effect. -/
def take_effect (w : World ι C H) (p : ι) (i : ℕ) : Effect C H → World ι C H
  | .edited c h => (w.write i c).enter p (.ready (some i) h)
  | .rebuilt new fd h => w.enter p (.written i new fd h)

/-- One action of the process `p`, if it is one it can take where it is. -/
def step (P : Program μ κ C H) (w : World ι C H) (p : ι) (a : Action μ κ) :
    Option (World ι C H) :=
  match a, w.stage p with
  | .open_path, .idle => some (w.enter p (.opened w.path))
  | .try_lock, .opened i =>
    if w.free p i then some ((w.lock p i).enter p (.locked i))
    else some ((w.release p [i]).enter p .idle)
  | .load mode, .locked i =>
    match P.load mode (w.data i) with
    | some h => some (w.enter p (.ready (some i) h))
    | none => some ((w.release p [i]).enter p .idle)
  | .call k closes, .ready (some i) h =>
    some ((w.take_effect p i (P.call k (w.data i) h)).release p closes)
  | .call k closes, .ready none h => some ((w.enter p (.ready none (P.orphan k h))).release p closes)
  | .close_old, .written i new fd h => some ((w.enter p (.closed new fd h)).release p [i])
  | .rename, .closed new fd h => some ((w.publish new).enter p (.renamed fd h))
  | .reopen, .renamed fd h => some (w.enter p (.ready (if fd then some w.path else none) h))
  | .close, .ready (some i) _ => some ((w.enter p .idle).release p [i])
  | .close, .ready none _ => some (w.enter p .idle)
  | _, _ => none

/-- Actions in the order they happen. -/
def run (P : Program μ κ C H) : World ι C H → List (ι × Action μ κ) → Option (World ι C H)
  | w, [] => some w
  | w, (p, a) :: as => (w.step P p a).bind fun w' => run P w' as

end World

/-! ## One process at a time

The runs that the others are compared with.
-/

/-- What a process does to the one file, if there is only one: it loads it, or calls. -/
inductive Deed (ι μ κ : Type) where
  | load (p : ι) (mode : μ)
  | call (p : ι) (k : κ)

/-- A single file and the process that works on it, with its handle. -/
structure Serial (ι C H : Type) where
  contents : C
  current : Option (ι × H)

/-- One deed. Only the process that loaded last can call. -/
def Serial.step (P : Program μ κ C H) (s : Serial ι C H) : Deed ι μ κ → Option (Serial ι C H)
  | .load p mode => (P.load mode s.contents).map fun h => ⟨s.contents, some (p, h)⟩
  | .call p k =>
    match s.current with
    | some (q, h) =>
      if q = p then
        match P.call k s.contents h with
        | .edited c h' => some ⟨c, some (p, h')⟩
        | .rebuilt new fd h' =>
          some ⟨new.getD s.contents, if fd then some (p, h') else none⟩
      else none
    | none => none

/-- Deeds one after the other. -/
def serial (P : Program μ κ C H) : Serial ι C H → List (Deed ι μ κ) → Option (Serial ι C H)
  | s, [] => some s
  | s, d :: ds => (s.step P d).bind fun s' => serial P s' ds

theorem serial_append {P : Program μ κ C H} {ds ds' : List (Deed ι μ κ)} {s s' s'' : Serial ι C H}
    (h : serial P s ds = some s') (h' : serial P s' ds' = some s'') :
    serial P s (ds ++ ds') = some s'' := by
  induction ds generalizing s with
  | nil =>
    obtain rfl := Option.some.inj h
    exact h'
  | cons d ds ih =>
    rw [serial, Option.bind_eq_some_iff] at h
    obtain ⟨s₁, hd, h⟩ := h
    rw [List.cons_append, serial, hd, Option.bind_some]
    exact ih h

/-- The deed an action amounts to, if any. -/
def World.deeds (P : Program μ κ C H) (w : World ι C H) (p : ι) (a : Action μ κ) :
    List (Deed ι μ κ) :=
  match a, w.stage p with
  | .load mode, .locked i => if (P.load mode (w.data i)).isSome then [.load p mode] else []
  | .call k _, .ready (some _) _ => [.call p k]
  | _, _ => []

/-- The deeds of a run, in the order they happen. -/
def World.trace (P : Program μ κ C H) : World ι C H → List (ι × Action μ κ) → List (Deed ι μ κ)
  | _, [] => []
  | w, (p, a) :: as => w.deeds P p a ++
    match w.step P p a with
    | some w' => World.trace P w' as
    | none => []

/-! ## The guard

When a lock is worth something: it is on the file at the path, and whoever rebuilt is alone.
-/

namespace Stage

/-- Past the lock, and with a file. -/
def past : Stage C H → Bool
  | .idle => false
  | .opened _ => false
  | .ready none _ => false
  | _ => true

/-- The inode a process past its lock has open. -/
def held : Stage C H → Option ℕ
  | .locked i => some i
  | .ready fd _ => fd
  | .written i _ _ _ => some i
  | _ => none

/-- The new file of a rebuild that has not got to the path. -/
def pending : Stage C H → Option (Option C)
  | .written _ new _ _ => some new
  | .closed new _ _ => some new
  | _ => none

/-- The handle a process works with, or will when its rebuild is over. -/
def handle : Stage C H → Option H
  | .ready (some _) h => some h
  | .written _ _ true h => some h
  | .closed _ true h => some h
  | .renamed true h => some h
  | _ => none

end Stage

/-- A process past its lock that does not have it (any more). -/
def World.Exposed (w : World ι C H) (p : ι) : Prop :=
  (w.stage p).past = true ∧ ∀ i, (w.stage p).held = some i → w.owner i ≠ some p

/-- A lock is taken only on the inode at the path, and only while no process is exposed. -/
def World.Guarded (w : World ι C H) (p : ι) : Action μ κ → Prop
  | .try_lock => ∀ i, w.stage p = .opened i → w.free p i = true →
    i = w.path ∧ ∀ q, ¬ w.Exposed q
  | _ => True

/-- Every action of a run is guarded where it is taken. -/
def World.GuardedRun (P : Program μ κ C H) : World ι C H → List (ι × Action μ κ) → Prop
  | _, [] => True
  | w, (p, a) :: as => w.Guarded p a ∧ ∀ w', w.step P p a = some w' → World.GuardedRun P w' as

/-! With finitely many processes the guard can be computed. -/

section

variable [Fintype ι]

instance (w : World ι C H) (p : ι) : Decidable (w.Exposed p) :=
  match h : (w.stage p).held with
  | none => decidable_of_iff ((w.stage p).past = true)
      ⟨fun hp => ⟨hp, fun i hi => by rw [h] at hi; cases hi⟩, And.left⟩
  | some i => decidable_of_iff ((w.stage p).past = true ∧ w.owner i ≠ some p)
      ⟨fun hp => ⟨hp.1, fun j hj => by rw [h] at hj; exact Option.some.inj hj ▸ hp.2⟩,
        fun hp => ⟨hp.1, hp.2 i h⟩⟩

instance (w : World ι C H) (p : ι) (a : Action μ κ) : Decidable (w.Guarded p a) :=
  match a with
  | .try_lock =>
    match h : w.stage p with
    | .opened i => decidable_of_iff (w.free p i = true → i = w.path ∧ ∀ q, ¬ w.Exposed q)
        ⟨fun hi j hj => by
          rw [h] at hj
          cases hj
          exact hi, fun hall => hall i h⟩
    | .idle | .locked _ | .ready _ _ | .written _ _ _ _ | .closed _ _ _ | .renamed _ _ =>
      isTrue fun j hj => by rw [h] at hj; cases hj
  | .open_path | .load _ | .call _ _ | .close_old | .rename | .reopen | .close => isTrue trivial

instance decidableGuardedRun (P : Program μ κ C H) (as : List (ι × Action μ κ)) :
    ∀ w : World ι C H, Decidable (w.GuardedRun P as) :=
  match as with
  | [] => fun _ => isTrue trivial
  | (p, a) :: as => fun w =>
    match h : w.step P p a with
    | none => decidable_of_iff (w.Guarded p a)
        ⟨fun hg => ⟨hg, fun w' hw => by rw [h] at hw; cases hw⟩, And.left⟩
    | some w₁ =>
      have := decidableGuardedRun P as w₁
      decidable_of_iff (w.Guarded p a ∧ w₁.GuardedRun P as)
        ⟨fun hg => ⟨hg.1, fun w' hw => by rw [h] at hw; exact Option.some.inj hw ▸ hg.2⟩,
          fun hg => ⟨hg.1, hg.2 w₁ h⟩⟩

end

/-! ## One action

What each step changes, and for whom.
-/

/-- What one action can be: the table of `World.step` with the lookups spelled out. -/
inductive Moves (P : Program μ κ C H) (w : World ι C H) (p : ι) :
    Action μ κ → World ι C H → Prop where
  | open_path (h : w.stage p = .idle) : Moves P w p .open_path (w.enter p (.opened w.path))
  | lock {i : ℕ} (h : w.stage p = .opened i) (hfree : w.free p i = true) :
      Moves P w p .try_lock ((w.lock p i).enter p (.locked i))
  | refused {i : ℕ} (h : w.stage p = .opened i) :
      Moves P w p .try_lock ((w.release p [i]).enter p .idle)
  | load {i : ℕ} {mode : μ} {x : H} (h : w.stage p = .locked i)
      (hload : P.load mode (w.data i) = some x) :
      Moves P w p (.load mode) (w.enter p (.ready (some i) x))
  | rejected {i : ℕ} {mode : μ} (h : w.stage p = .locked i)
      (hload : P.load mode (w.data i) = none) :
      Moves P w p (.load mode) ((w.release p [i]).enter p .idle)
  | call {i : ℕ} {x : H} (k : κ) (closes : List ℕ) (h : w.stage p = .ready (some i) x) :
      Moves P w p (.call k closes)
        ((w.take_effect p i (P.call k (w.data i) x)).release p closes)
  | orphan {x : H} (k : κ) (closes : List ℕ) (h : w.stage p = .ready none x) :
      Moves P w p (.call k closes) ((w.enter p (.ready none (P.orphan k x))).release p closes)
  | close_old {i : ℕ} {new : Option C} {fd : Bool} {x : H} (h : w.stage p = .written i new fd x) :
      Moves P w p .close_old ((w.enter p (.closed new fd x)).release p [i])
  | rename {new : Option C} {fd : Bool} {x : H} (h : w.stage p = .closed new fd x) :
      Moves P w p .rename ((w.publish new).enter p (.renamed fd x))
  | reopen {fd : Bool} {x : H} (h : w.stage p = .renamed fd x) :
      Moves P w p .reopen (w.enter p (.ready (if fd then some w.path else none) x))
  | close {i : ℕ} {x : H} (h : w.stage p = .ready (some i) x) :
      Moves P w p .close ((w.enter p .idle).release p [i])
  | close_orphan {x : H} (h : w.stage p = .ready none x) :
      Moves P w p .close (w.enter p .idle)

variable {P : Program μ κ C H} {w w' : World ι C H} {p : ι} {a : Action μ κ}
  {s : Serial ι C H}

theorem moves_of_step (h : w.step P p a = some w') : Moves P w p a w' := by
  unfold World.step at h
  split at h
  · next hs => exact Option.some.inj h ▸ .open_path hs
  · next hs =>
    split_ifs at h with hfree
    · exact Option.some.inj h ▸ .lock hs hfree
    · exact Option.some.inj h ▸ .refused hs
  · next hs =>
    split at h
    · next hload => exact Option.some.inj h ▸ .load hs hload
    · next hload => exact Option.some.inj h ▸ .rejected hs hload
  · next hs => exact Option.some.inj h ▸ .call _ _ hs
  · next hs => exact Option.some.inj h ▸ .orphan _ _ hs
  · next hs => exact Option.some.inj h ▸ .close_old hs
  · next hs => exact Option.some.inj h ▸ .rename hs
  · next hs => exact Option.some.inj h ▸ .reopen hs
  · next hs => exact Option.some.inj h ▸ .close hs
  · next hs => exact Option.some.inj h ▸ .close_orphan hs
  · cases h

/-! ### Frames

One lemma for each part of the world that a step leaves as it is.
-/

@[simp] theorem enter_stage_self (w : World ι C H) (p : ι) (x : Stage C H) :
    (w.enter p x).stage p = x := Function.update_self ..

theorem enter_stage_other (w : World ι C H) {p q : ι} (x : Stage C H) (h : q ≠ p) :
    (w.enter p x).stage q = w.stage q := Function.update_of_ne h ..

@[simp] theorem enter_path (w : World ι C H) (p : ι) (x : Stage C H) :
    (w.enter p x).path = w.path := rfl

@[simp] theorem enter_data (w : World ι C H) (p : ι) (x : Stage C H) :
    (w.enter p x).data = w.data := rfl

@[simp] theorem release_stage (w : World ι C H) (p : ι) (is : List ℕ) :
    (w.release p is).stage = w.stage := rfl

@[simp] theorem release_path (w : World ι C H) (p : ι) (is : List ℕ) :
    (w.release p is).path = w.path := rfl

omit [DecidableEq ι] in
@[simp] theorem publish_stage (w : World ι C H) (new : Option C) :
    (w.publish new).stage = w.stage := by
  cases new <;> rfl

omit [DecidableEq ι] in
/-- What is at the path after a rename. -/
theorem publish_contents (w : World ι C H) (new : Option C) :
    (w.publish new).data (w.publish new).path = new.getD (w.data w.path) := by
  cases new with
  | none => rfl
  | some c => exact Function.update_self ..

/-- No action moves another process. -/
theorem Moves.stage_other (h : Moves P w p a w') {q : ι} (hq : q ≠ p) :
    w'.stage q = w.stage q := by
  cases h with
  | call k closes h =>
    rename_i i x
    cases P.call k (w.data i) x <;> exact enter_stage_other _ _ hq
  | rename h =>
    rename_i new fd x
    rw [enter_stage_other _ _ hq, publish_stage]
  | _ => exact enter_stage_other _ _ hq

theorem Stage.past_of_held {x : Stage C H} {i : ℕ} (h : x.held = some i) : x.past = true := by
  cases x with
  | ready fd y =>
    cases fd with
    | none => cases h
    | some j => rfl
  | locked j => rfl
  | written j new fd y => rfl
  | _ => cases h

theorem Stage.past_of_pending {x : Stage C H} {new : Option C} (h : x.pending = some new) :
    x.past = true := by
  cases x with
  | written j new fd y => rfl
  | closed new fd y => rfl
  | _ => cases h

/-! ## Mutual exclusion

At most one process is past the lock.
-/

/-- At most one process is past its lock, and the file it has open is the one at the path. -/
structure Exclusive (w : World ι C H) : Prop where
  one : ∀ p q, (w.stage p).past = true → (w.stage q).past = true → p = q
  current : ∀ p i, (w.stage p).held = some i → i = w.path

omit [DecidableEq ι] in
theorem exclusive_initial (c : C) : Exclusive (World.initial c : World ι C H) :=
  ⟨fun _ _ h => (by cases h), fun _ _ h => (by cases h)⟩

/-- **The lock**: under the guard, nobody is past it when it is taken. -/
theorem Exclusive.nobody (h : Exclusive w) {i : ℕ} (hstage : w.stage p = .opened i)
    (hfree : w.free p i = true) (hguard : w.Guarded p (.try_lock : Action μ κ)) (q : ι) :
    (w.stage q).past = false := by
  obtain ⟨hi, hnone⟩ := hguard i hstage hfree
  by_contra hpast
  rw [Bool.not_eq_false] at hpast
  refine hnone q ⟨hpast, fun j hj howner => ?_⟩
  -- `q` has the lock of the inode at the path, so it is not free for anybody else
  obtain rfl : j = w.path := h.current q j hj
  subst hi
  rw [World.free, howner] at hfree
  have hq : q = p := by simpa using hfree
  subst hq
  rw [hstage] at hpast
  cases hpast

/-- Only a lock gets a process past it. -/
theorem Moves.past (h : Moves P w p a w') (hpast : (w'.stage p).past = true) :
    (w.stage p).past = true ∨ ∃ i, w.stage p = .opened i ∧ w.free p i = true ∧
      a = .try_lock ∧ w' = (w.lock p i).enter p (.locked i) := by
  cases h with
  | open_path h => simp [Stage.past] at hpast
  | lock h hfree => exact Or.inr ⟨_, h, hfree, rfl, rfl⟩
  | refused h => simp [Stage.past] at hpast
  | rejected h => simp [Stage.past] at hpast
  | orphan k closes h => simp [Stage.past] at hpast
  | close h => simp [Stage.past] at hpast
  | close_orphan h => simp [Stage.past] at hpast
  | call k closes h => exact Or.inl (by rw [h]; rfl)
  | _ h => exact Or.inl (by rw [h]; rfl)

/-- What `p` has open after an action. -/
theorem Moves.held (h : Moves P w p a w') {i : ℕ} (hheld : (w'.stage p).held = some i) :
    i = w'.path ∨ (w'.path = w.path ∧
      ((w.stage p).held = some i ∨ w.stage p = .opened i ∧ w.free p i = true ∧ a = .try_lock)) := by
  cases h with
  | lock h hfree =>
    simp only [enter_stage_self, Stage.held, Option.some.injEq] at hheld
    subst hheld
    exact Or.inr ⟨rfl, Or.inr ⟨h, hfree, rfl⟩⟩
  | load h hload =>
    simp only [enter_stage_self, Stage.held, Option.some.injEq] at hheld
    subst hheld
    exact Or.inr ⟨rfl, Or.inl (by rw [h]; rfl)⟩
  | call k closes h =>
    rename_i j x
    right
    cases hc : P.call k (w.data j) x with
    | edited c y =>
      simp only [hc, release_stage, World.take_effect, enter_stage_self, Stage.held,
        Option.some.injEq] at hheld
      subst hheld
      exact ⟨rfl, Or.inl (by rw [h]; rfl)⟩
    | rebuilt new fd y =>
      simp only [hc, release_stage, World.take_effect, enter_stage_self, Stage.held,
        Option.some.injEq] at hheld
      subst hheld
      exact ⟨rfl, Or.inl (by rw [h]; rfl)⟩
  | reopen h =>
    rename_i fd x
    left
    cases fd with
    | false => simp [Stage.held] at hheld
    | true =>
      simp only [enter_stage_self, Stage.held, if_true, Option.some.injEq] at hheld
      exact hheld.symm
  | _ => simp [Stage.held] at hheld

/-- **Mutual exclusion is kept** by every guarded action. -/
theorem Exclusive.step (h : Exclusive w) (hguard : w.Guarded p a) (hm : Moves P w p a w') :
    Exclusive w' := by
  -- who is past the lock afterwards was before, unless the action is `p` taking it
  have hpast : ∀ q, (w'.stage q).past = true → (w.stage q).past = true ∨
      q = p ∧ ∀ q', (w.stage q').past = false := by
    intro q hq
    by_cases hqp : q = p
    · subst hqp
      rcases hm.past hq with hx | ⟨i, hi, hfree, rfl, -⟩
      · exact Or.inl hx
      · exact Or.inr ⟨rfl, h.nobody hi hfree hguard⟩
    · rw [hm.stage_other hqp] at hq
      exact Or.inl hq
  refine ⟨fun q q' hq hq' => ?_, fun q i hheld => ?_⟩
  · rcases hpast q hq with hx | ⟨rfl, hx⟩
    · rcases hpast q' hq' with hy | ⟨rfl, hy⟩
      · exact h.one q q' hx hy
      · rw [hy q] at hx
        cases hx
    · rcases hpast q' hq' with hy | ⟨rfl, -⟩
      · rw [hx q'] at hy
        cases hy
      · rfl
  · by_cases hqp : q = p
    · subst hqp
      rcases hm.held hheld with hx | ⟨hpath, hx | ⟨hi, hfree, rfl⟩⟩
      · exact hx
      · rw [hpath]
        exact h.current q i hx
      · rw [hpath]
        exact (hguard i hi hfree).1
    · rw [hm.stage_other hqp] at hheld
      cases hm with
      | rename hp =>
        -- nobody else has the old file open
        have hone := h.one q p (Stage.past_of_held hheld) (by rw [hp]; rfl)
        exact absurd hone hqp
      | call k closes hp =>
        rename_i j x
        have hpath : ∀ e : Effect C H, (w.take_effect p j e).path = w.path := by
          rintro (⟨c, y⟩ | ⟨new, fd, y⟩) <;> rfl
        rw [release_path, hpath]
        exact h.current q i hheld
      | _ => exact h.current q i hheld

/-! ## One after the other

The simulation of a guarded run by a serial one.
-/

/-- The processes and the single file of a serial run. A rebuild is done to the single file when
its new file is written, and is seen at the path once it is renamed. -/
structure Simulates (w : World ι C H) (s : Serial ι C H) : Prop where
  pending : ∀ p new, (w.stage p).pending = some new → s.contents = new.getD (w.data w.path)
  settled : (∀ p, (w.stage p).pending = none) → s.contents = w.data w.path
  current : ∀ p x, (w.stage p).handle = some x → s.current = some (p, x)

omit [DecidableEq ι] in
theorem simulates_initial (c : C) :
    Simulates (World.initial c : World ι C H) ⟨c, none⟩ :=
  ⟨fun _ _ h => (by cases h), fun _ => rfl, fun _ _ h => (by cases h)⟩

/-- An action that is no deed. -/
theorem Simulates.kept (h : Simulates w s) (hpath : w'.path = w.path) (hdata : w'.data = w.data)
    (hother : ∀ q, q ≠ p → w'.stage q = w.stage q)
    (hpending : (w'.stage p).pending = (w.stage p).pending)
    (hhandle : ∀ x, (w'.stage p).handle = some x → (w.stage p).handle = some x) :
    Simulates w' s := by
  have hall : ∀ q, (w'.stage q).pending = (w.stage q).pending := by
    intro q
    by_cases hq : q = p
    · rw [hq, hpending]
    · rw [hother q hq]
  refine ⟨fun q new hq => ?_, fun hnone => ?_, fun q x hx => ?_⟩
  · rw [hpath, hdata]
    exact h.pending q new (by rw [← hall, hq])
  · rw [hpath, hdata]
    exact h.settled fun q => by rw [← hall, hnone]
  · by_cases hq : q = p
    · subst hq
      exact h.current q x (hhandle x hx)
    · rw [hother q hq] at hx
      exact h.current q x hx

omit [DecidableEq ι] in
/-- While `p` is past its lock and not in a rebuild, nothing is pending. -/
theorem Exclusive.nothing_pending (h : Exclusive w) (hpast : (w.stage p).past = true)
    (hp : (w.stage p).pending = none) (q : ι) : (w.stage q).pending = none := by
  by_contra hq
  obtain ⟨new, hnew⟩ := Option.ne_none_iff_exists'.mp hq
  rw [h.one q p (Stage.past_of_pending hnew) hpast, hp] at hnew
  cases hnew

omit [DecidableEq ι] in
/-- Nobody else works with a handle while `p` is past its lock. -/
theorem Exclusive.no_other_handle (h : Exclusive w) (hpast : (w.stage p).past = true) {q : ι}
    (hq : q ≠ p) (x : H) : (w.stage q).handle ≠ some x := by
  intro hx
  refine hq (h.one q p ?_ hpast)
  cases hs : w.stage q with
  | ready fd y =>
    rw [hs] at hx
    cases fd with
    | none => cases hx
    | some j => rfl
  | idle =>
    rw [hs] at hx
    cases hx
  | opened j =>
    rw [hs] at hx
    cases hx
  | _ => rfl

/-- **A load** is one of the single file. -/
theorem Simulates.load (h : Simulates w s) (hx : Exclusive w) {i : ℕ} {mode : μ} {x : H}
    (hp : w.stage p = .locked i) (hload : P.load mode (w.data i) = some x) :
    s.step P (.load p mode) = some ⟨s.contents, some (p, x)⟩ ∧
      Simulates (w.enter p (.ready (some i) x)) ⟨s.contents, some (p, x)⟩ := by
  have hpast : (w.stage p).past = true := by rw [hp]; rfl
  have hnone : (w.stage p).pending = none := by rw [hp]; rfl
  have hi : i = w.path := hx.current p i (by rw [hp]; rfl)
  have hcontents : s.contents = w.data w.path := h.settled (hx.nothing_pending hpast hnone)
  refine ⟨?_, ?_, ?_, ?_⟩
  · rw [Serial.step, hcontents, ← hi, hload]
    rfl
  · intro q new hq
    by_cases hqp : q = p
    · rw [hqp, enter_stage_self] at hq
      cases hq
    · rw [enter_stage_other _ _ hqp, hx.nothing_pending hpast hnone] at hq
      cases hq
  · exact fun _ => hcontents
  · intro q y hq
    by_cases hqp : q = p
    · subst hqp
      rw [enter_stage_self] at hq
      obtain rfl := Option.some.inj hq
      rfl
    · rw [enter_stage_other _ _ hqp] at hq
      exact absurd hq (hx.no_other_handle hpast hqp y)

/-- **A call** is one on the single file, by the process that loaded last. -/
theorem Simulates.call (h : Simulates w s) (hx : Exclusive w) {i : ℕ} {x : H} (k : κ)
    (closes : List ℕ) (hp : w.stage p = .ready (some i) x) :
    ∃ s', s.step P (.call p k) = some s' ∧
      Simulates ((w.take_effect p i (P.call k (w.data i) x)).release p closes) s' := by
  have hpast : (w.stage p).past = true := by rw [hp]; rfl
  have hnone : (w.stage p).pending = none := by rw [hp]; rfl
  have hi : i = w.path := hx.current p i (by rw [hp]; rfl)
  have hcontents : s.contents = w.data w.path := h.settled (hx.nothing_pending hpast hnone)
  have hcurrent : s.current = some (p, x) := h.current p x (by rw [hp]; rfl)
  have hdata : w.data i = s.contents := by rw [hi, hcontents]
  have hother : ∀ e q, q ≠ p → ((w.take_effect p i e).release p closes).stage q = w.stage q := by
    rintro (⟨c, y⟩ | ⟨new, fd, y⟩) q hq <;> exact enter_stage_other _ _ hq
  rw [hdata]
  cases hc : P.call k s.contents x with
  -- the contents change in place, under the lock
  | edited c y =>
    refine ⟨⟨c, some (p, y)⟩, by simp only [Serial.step, hcurrent, hc, if_true], ?_, ?_, ?_⟩
    · intro q new hq
      by_cases hqp : q = p
      · subst hqp
        simp [World.take_effect, Stage.pending] at hq
      · rw [hother _ q hqp, hx.nothing_pending hpast hnone] at hq
        cases hq
    · intro _
      change c = Function.update w.data i c w.path
      rw [hi, Function.update_self]
    · intro q z hq
      by_cases hqp : q = p
      · subst hqp
        simp only [World.take_effect, release_stage, enter_stage_self] at hq
        obtain rfl := Option.some.inj hq
        rfl
      · rw [hother _ q hqp] at hq
        exact absurd hq (hx.no_other_handle hpast hqp z)
  -- the new contents are pending until the rename; the serial run has them already
  | rebuilt new fd y =>
    refine ⟨⟨new.getD s.contents, if fd then some (p, y) else none⟩,
      by simp only [Serial.step, hcurrent, hc, if_true], ?_, ?_, ?_⟩
    · intro q new' hq
      by_cases hqp : q = p
      · subst hqp
        simp only [World.take_effect, release_stage, enter_stage_self, Stage.pending,
          Option.some.injEq] at hq
        rw [← hq, hcontents]
        rfl
      · rw [hother _ q hqp, hx.nothing_pending hpast hnone] at hq
        cases hq
    · intro hall
      have hthis := hall p
      simp [World.take_effect, Stage.pending] at hthis
    · intro q z hq
      by_cases hqp : q = p
      · subst hqp
        simp only [World.take_effect, release_stage, enter_stage_self] at hq
        cases fd with
        | false => cases hq
        | true =>
          obtain rfl := Option.some.inj hq
          rfl
      · rw [hother _ q hqp] at hq
        exact absurd hq (hx.no_other_handle hpast hqp z)

/-- **A rename** brings to the path what the single file has since the call. -/
theorem Simulates.rename (h : Simulates w s) (hx : Exclusive w) {new : Option C} {fd : Bool}
    {x : H} (hp : w.stage p = .closed new fd x) :
    Simulates ((w.publish new).enter p (.renamed fd x)) s := by
  have hpast : (w.stage p).past = true := by rw [hp]; rfl
  have hcontents : s.contents = new.getD (w.data w.path) :=
    h.pending p new (by rw [hp]; rfl)
  have hother : ∀ q, q ≠ p →
      ((w.publish new).enter p (.renamed fd x)).stage q = w.stage q := by
    intro q hq
    rw [enter_stage_other _ _ hq, publish_stage]
  refine ⟨fun q new' hq => ?_, fun _ => ?_, fun q y hq => ?_⟩
  · by_cases hqp : q = p
    · rw [hqp, enter_stage_self] at hq
      cases hq
    · rw [hother q hqp] at hq
      exact absurd (hx.one q p (Stage.past_of_pending hq) hpast) hqp
  · rw [hcontents, enter_data, enter_path, publish_contents]
  · by_cases hqp : q = p
    · subst hqp
      rw [enter_stage_self] at hq
      apply h.current
      rw [hp]
      cases fd with
      | false => cases hq
      | true => exact hq
    · rw [hother q hqp] at hq
      exact absurd hq (hx.no_other_handle hpast hqp y)

/-- **Every action** is a deed done to the single file, or none. -/
theorem Simulates.step (h : Simulates w s) (hx : Exclusive w) (hm : Moves P w p a w') :
    ∃ s', serial P s (w.deeds P p a) = some s' ∧ Simulates w' s' := by
  -- most actions are no deed, and leave what the simulation speaks of
  have hkept : w.deeds P p a = [] → w'.path = w.path → w'.data = w.data →
      (w'.stage p).pending = (w.stage p).pending →
      (∀ x, (w'.stage p).handle = some x → (w.stage p).handle = some x) →
      ∃ s', serial P s (w.deeds P p a) = some s' ∧ Simulates w' s' := by
    intro hdeeds hpath hdata hpending hhandle
    rw [hdeeds]
    exact ⟨s, rfl, h.kept hpath hdata (fun q hq => hm.stage_other hq) hpending hhandle⟩
  cases hm with
  | load hp hload =>
    rename_i i mode x
    obtain ⟨hstep, hsim⟩ := h.load hx hp hload
    refine ⟨_, ?_, hsim⟩
    simp only [World.deeds, hp, hload, Option.isSome_some, if_true, serial, hstep, Option.bind_some]
  | call k closes hp =>
    obtain ⟨s', hstep, hsim⟩ := h.call hx k closes hp
    refine ⟨s', ?_, hsim⟩
    simp only [World.deeds, hp, serial, hstep, Option.bind_some]
  | rename hp => exact ⟨s, by simp only [World.deeds, serial], h.rename hx hp⟩
  | rejected hp hload =>
    refine hkept (by simp [World.deeds, hp, hload]) rfl rfl ?_ fun x hy => ?_
    · simp [hp, Stage.pending]
    · simp [Stage.handle] at hy
  | reopen hp =>
    rename_i fd x
    refine hkept (by simp [World.deeds]) rfl rfl ?_ fun y hy => ?_
    · simp [hp, Stage.pending]
    · rw [hp]
      cases fd with
      | false => simp [Stage.handle] at hy
      | true => simpa [Stage.handle] using hy
  | close_old hp =>
    rename_i i new fd x
    refine hkept (by simp [World.deeds]) rfl rfl ?_ fun y hy => ?_
    · simp [hp, Stage.pending]
    · rw [hp]
      cases fd with
      | false => simp [Stage.handle] at hy
      | true => simpa [Stage.handle] using hy
  | orphan k closes hp =>
    refine hkept (by simp [World.deeds, hp]) rfl rfl ?_ fun x hy => ?_
    · simp [hp, Stage.pending]
    · simp [Stage.handle] at hy
  | _ hp =>
    refine hkept (by simp [World.deeds]) rfl rfl ?_ fun x hy => ?_
    · simp [hp, Stage.pending]
    · simp [Stage.handle] at hy

/-! ## Runs

By induction over the steps.
-/

/-- **Every guarded run** keeps the processes apart and amounts to the serial run of its deeds. -/
theorem Simulates.run (as : List (ι × Action μ κ)) {w w' : World ι C H} {s : Serial ι C H}
    (h : Simulates w s) (hx : Exclusive w) (hguard : w.GuardedRun P as)
    (hrun : w.run P as = some w') :
    Exclusive w' ∧ ∃ s', serial P s (w.trace P as) = some s' ∧ Simulates w' s' := by
  induction as generalizing w s with
  | nil =>
    obtain rfl := Option.some.inj hrun
    exact ⟨hx, s, rfl, h⟩
  | cons q as ih =>
    obtain ⟨p, a⟩ := q
    rw [World.run, Option.bind_eq_some_iff] at hrun
    obtain ⟨w₁, hstep, hrun⟩ := hrun
    have hm := moves_of_step hstep
    obtain ⟨s₁, hdeeds, h₁⟩ := h.step hx hm
    obtain ⟨hx', s', hserial, h'⟩ :=
      ih h₁ (hx.step hguard.1 hm) (hguard.2 w₁ hstep) hrun
    refine ⟨hx', s', ?_, h'⟩
    rw [World.trace, hstep]
    exact serial_append hdeeds hserial

end LockedFile
