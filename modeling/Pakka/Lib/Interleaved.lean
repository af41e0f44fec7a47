/-
Parties that take turns on something they share.

A party keeps a state of its own, and a call of it may also change what is shared. Parties are
isolated when what a call replies, and what the party is afterwards, cannot be told from the
shared thing. Then an interleaving of any calls of any parties tells each party the same as its own
calls would alone (`replies_to_play`).

The last part is about parties that hand out a list from the front, as much as they are asked for.

Turns are a list, so an interleaving is a list of calls with the parties that make them, and any
order is allowed. Neither the state of a party nor the shared thing is restricted in any way.
-/
import Mathlib.Algebra.BigOperators.Group.List.Basic
import Mathlib.Algebra.Ring.Nat
import Mathlib.Logic.Function.Basic

set_option autoImplicit false

namespace Interleaved

variable {ι σ ρ κ β : Type}

/-- One turn: a call of a party, or somebody else leaves the shared thing as it is then. -/
inductive Turn (ι σ κ : Type) where
  | call (party : ι) (k : κ)
  | elsewhere (shared : σ)

/-- The calls of one party, in their order. -/
def calls_of [DecidableEq ι] (party : ι) : List (Turn ι σ κ) → List κ
  | [] => []
  | .call i k :: turns => if i = party then k :: calls_of party turns else calls_of party turns
  | .elsewhere _ :: turns => calls_of party turns

theorem mem_calls_of [DecidableEq ι] {party : ι} {k : κ} {turns : List (Turn ι σ κ)} :
    k ∈ calls_of party turns ↔ .call party k ∈ turns := by
  induction turns with
  | nil => simp [calls_of]
  | cons turn turns ih =>
    cases turn with
    | elsewhere s => simp [calls_of, ih]
    | call i k' =>
      by_cases hi : i = party
      · simp [calls_of, hi, ih]
      · simp [calls_of, hi, Ne.symm hi, ih]

/-- What is replied, and to whom, when the turns are taken one after the other. -/
def play [DecidableEq ι] (act : σ → ρ → κ → σ × ρ × β) :
    σ → (ι → ρ) → List (Turn ι σ κ) → List (ι × β)
  | _, _, [] => []
  | shared, parties, .call i k :: turns =>
    let x := act shared (parties i) k
    (i, x.2.2) :: play act x.1 (Function.update parties i x.2.1) turns
  | _, parties, .elsewhere shared :: turns => play act shared parties turns

/-- The replies to one party. -/
def replies_to [DecidableEq ι] (party : ι) : List (ι × β) → List β
  | [] => []
  | (i, b) :: log => if i = party then b :: replies_to party log else replies_to party log

/-- A party that makes its calls alone. -/
def alone (act : ρ → κ → ρ × β) : ρ → List κ → List β
  | _, [] => []
  | r, k :: ks => (act r k).2 :: alone act (act r k).1 ks

/-- As long as the shared thing is `Good`, it stays so, and a call cannot tell it from another. -/
structure Isolated (act : σ → ρ → κ → σ × ρ × β) (own : ρ → κ → ρ × β) (Good : σ → Prop) :
    Prop where
  keeps : ∀ {shared}, Good shared → ∀ r k, Good (act shared r k).1
  same : ∀ {shared}, Good shared → ∀ r k, (act shared r k).2 = own r k

/-- **Isolated parties do not notice each other**: what one of them is told is what its own calls
would be told alone. -/
theorem Isolated.replies_to_play [DecidableEq ι] {act : σ → ρ → κ → σ × ρ × β}
    {own : ρ → κ → ρ × β} {Good : σ → Prop} (h : Isolated act own Good) (party : ι)
    (turns : List (Turn ι σ κ)) :
    ∀ {shared : σ} {parties : ι → ρ}, Good shared →
      (∀ s, Turn.elsewhere s ∈ turns → Good s) →
      replies_to party (play act shared parties turns) =
        alone own (parties party) (calls_of party turns) := by
  induction turns with
  | nil => intros; rfl
  | cons turn turns ih =>
    intro shared parties hgood helse
    have hlater : ∀ s, Turn.elsewhere s ∈ turns → Good s := by
      intro s hs
      exact helse s (List.mem_cons_of_mem _ hs)
    cases turn with
    | elsewhere s =>
      rw [play, calls_of]
      exact ih (helse s List.mem_cons_self) hlater
    | call i k =>
      rw [play, replies_to, calls_of]
      simp only [h.same hgood]
      rw [ih (h.keeps hgood (parties i) k) hlater]
      by_cases hi : i = party
      · -- the party that called goes on from what its call left
        subst hi
        rw [if_pos rfl, if_pos rfl, alone, Function.update_self]
      · rw [if_neg hi, if_neg hi, Function.update_of_ne (Ne.symm hi)]

/-! ## Handing out a list

A party whose replies are pieces of one list, in their order.
-/

variable {α : Type}

/-- A list cut into pieces of at most the given lengths, from the front. -/
def pieces : List α → List ℕ → List (List α)
  | _, [] => []
  | l, n :: ns => l.take n :: pieces (l.drop n) ns

/-- Party states that still have to hand out a list: a call hands out its beginning and leaves the
rest. -/
def HandsOut (own : ρ → ℕ → ρ × β) (piece : List α → β) (Holds : ρ → List α → Prop) : Prop :=
  ∀ r l, Holds r l → ∀ n, (own r n).2 = piece (l.take n) ∧ Holds (own r n).1 (l.drop n)

theorem HandsOut.alone {own : ρ → ℕ → ρ × β} {piece : List α → β} {Holds : ρ → List α → Prop}
    (h : HandsOut own piece Holds) (ns : List ℕ) {r : ρ} {l : List α} (hr : Holds r l) :
    Interleaved.alone own r ns = (pieces l ns).map piece := by
  induction ns generalizing r l with
  | nil => rfl
  | cons n ns ih =>
    obtain ⟨hreply, hrest⟩ := h r l hr n
    rw [Interleaved.alone, pieces, List.map_cons, hreply, ih hrest]

/-- Pieces put together are a beginning of the list. -/
theorem flatten_pieces (l : List α) (ns : List ℕ) : (pieces l ns).flatten = l.take ns.sum := by
  induction ns generalizing l with
  | nil => rfl
  | cons n ns ih => rw [pieces, List.flatten_cons, ih, List.sum_cons, List.take_add]

theorem pieces_nil (ns : List ℕ) : ∀ p ∈ pieces ([] : List α) ns, p = [] := by
  induction ns with
  | nil =>
    intro p hp
    cases hp
  | cons n ns ih =>
    intro p hp
    rw [pieces, List.take_nil, List.drop_nil] at hp
    rcases List.mem_cons.mp hp with rfl | hp
    · rfl
    · exact ih p hp

/-- **An empty piece is the end**: when something is asked for each time, a piece is empty exactly
if everything has been handed out before it, and then all later ones are. -/
theorem pieces_end {l : List α} {ns : List ℕ} {before later : List (List α)} {p : List α}
    (hns : ∀ n ∈ ns, 0 < n) (h : pieces l ns = before ++ p :: later) :
    (p = [] ↔ before.flatten = l) ∧ (p = [] → ∀ q ∈ later, q = []) := by
  induction before generalizing l ns with
  | nil =>
    cases ns with
    | nil => cases h
    | cons n ns =>
      obtain ⟨rfl, rfl⟩ := List.cons.inj h
      have hn := hns n List.mem_cons_self
      have hnil : l.take n = [] ↔ l = [] := by
        rw [List.take_eq_nil_iff, or_iff_right (Nat.ne_of_gt hn)]
      refine ⟨by rw [hnil, List.flatten_nil, eq_comm], ?_⟩
      intro hp
      rw [hnil.mp hp, List.drop_nil]
      exact pieces_nil ns
  | cons q before ih =>
    cases ns with
    | nil => cases h
    | cons n ns =>
      obtain ⟨rfl, hrest⟩ := List.cons.inj h
      obtain ⟨hiff, hend⟩ := ih (fun m hm => hns m (List.mem_cons_of_mem _ hm)) hrest
      refine ⟨?_, hend⟩
      rw [hiff, List.flatten_cons]
      constructor
      · intro hl
        rw [hl, List.take_append_drop]
      · intro hl
        apply List.append_cancel_left
        rw [hl, List.take_append_drop]

end Interleaved
