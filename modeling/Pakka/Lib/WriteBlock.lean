/-
Blocks of writes: writes to one file that go one behind the other.

`Confined` says where a computation did not write. `Block` says where it did: its first write
starts at a given position, and each later one where the one before it ended. Of a computation
that is cut short, the block is shorter, but it starts at the same place.

Sequences of calls are followed with it: the place where a block ends is the place where the next
one may start, so what lies in front of the first one is never written to.
-/
import Mathlib.Algebra.Ring.Nat
import Pakka.Lib.Faults

set_option autoImplicit false

open ByteImage

namespace Logged

variable {ι ε α β P : Type}

/-- The writes of a log go to `f`, the first at `pos` and each where the one before it ended. -/
def Block (f : ι) : ℕ → List (FileOp ι) → Prop
  | _, [] => True
  | pos, op :: log => ∃ bs, op = .write f pos bs ∧ Block f (pos + bs.length) log

/-- How many bytes the writes of a log carry. -/
def written (log : List (FileOp ι)) : ℕ :=
  (log.map fun op => match op with
    | .write _ _ bs => bs.length
    | _ => 0).sum

@[simp] theorem written_nil : written ([] : List (FileOp ι)) = 0 := rfl

@[simp] theorem written_write (f : ι) (pos : ℕ) (bs : Bytes) (log : List (FileOp ι)) :
    written (.write f pos bs :: log) = bs.length + written log := rfl

theorem written_append (l m : List (FileOp ι)) : written (l ++ m) = written l + written m := by
  rw [written, written, written, List.map_append, List.sum_append]

theorem Block.nil (f : ι) (pos : ℕ) : Block f pos ([] : List (FileOp ι)) := trivial

theorem Block.single (f : ι) (pos : ℕ) (bs : Bytes) : Block f pos [.write f pos bs] :=
  ⟨bs, rfl, trivial⟩

/-- A block and what continues it. -/
theorem Block.append {f : ι} {pos : ℕ} {l m : List (FileOp ι)} (hl : Block f pos l)
    (hm : Block f (pos + written l) m) : Block f pos (l ++ m) := by
  induction l generalizing pos with
  | nil => exact hm
  | cons op l ih =>
    obtain ⟨bs, rfl, hl⟩ := hl
    rw [written_write, ← Nat.add_assoc] at hm
    exact ⟨bs, rfl, ih hl hm⟩

/-- A block stays behind its start. -/
theorem Block.confined {f : ι} {pos lo hi : ℕ} {log : List (FileOp ι)} (h : Block f pos log)
    (hpos : hi ≤ pos) : Confined f lo hi log := by
  induction log generalizing pos with
  | nil => exact Confined.nil f lo hi
  | cons op log ih =>
    obtain ⟨bs, rfl, hlog⟩ := h
    intro op ho
    rcases List.mem_cons.mp ho with rfl | ho
    · exact ⟨pos, bs, rfl, Or.inr hpos⟩
    · exact ih hlog (Nat.le_add_right_of_le hpos) op ho

/-! ## Sequences

Two computations one after the other write one block, if the second starts where the first ended.
The composition lemmas keep that position.
-/

/-- A first part that leaves the files alone. -/
theorem log_bind_of_nil {p : List (FileOp ι) → Prop} {x : Logged ι ε α} {k : α → Logged ι ε β}
    (hp : p []) (hx : x.log = []) (hk : ∀ a, x.res = .ok a → p (k a).log) : p (x >>= k).log := by
  cases hr : x.res with
  | error e =>
    rw [bind_eq_of_error hr, hx]
    exact hp
  | ok a =>
    rw [bind_log_of_ok hr, hx]
    exact hk a hr

/-- A second part that leaves the files alone. -/
theorem log_bind_nil {x : Logged ι ε α} {k : α → Logged ι ε β}
    (hk : ∀ a, x.res = .ok a → (k a).log = []) : (x >>= k).log = x.log := by
  cases hr : x.res with
  | error e => rw [bind_eq_of_error hr]
  | ok a => rw [bind_log_of_ok hr, hk a hr, List.append_nil]

theorem block_writeAt (σ : Schedule P) (p : P) (f : ι) (pos : ℕ) (bs : Bytes) (e : ε) :
    Block f pos (writeAt σ p f pos bs e).log ∧ written (writeAt σ p f pos bs e).log ≤ bs.length := by
  unfold writeAt
  split_ifs
  · refine ⟨Block.single f pos _, ?_⟩
    rw [written_write, written_nil, List.length_take]
    omega
  · exact ⟨Block.single f pos bs, Nat.le_refl _⟩

/-- A copy is a block, whatever fails. -/
theorem block_copyChunks {σ : Schedule P} {rd wr : ℕ → P} {size : ℕ} {src : Bytes} {f : ι} {e : ε}
    (remaining : ℕ) {pos dst k : ℕ} :
    Block f dst (copyChunks σ rd wr size src f e remaining pos dst k).log := by
  induction remaining using Nat.strongRecOn generalizing pos dst k with
  | ind remaining ih =>
    rw [copyChunks]
    split
    · exact Block.nil f dst
    · refine log_bind_of_nil (Block.nil f dst) (call_log _ _ _) fun _ _ => ?_
      refine log_bind_of_nil (Block.nil f dst) (ofOption_log _ _) fun bs hbs => ?_
      rw [ofOption_res_ok] at hbs
      obtain ⟨-, hlen⟩ := readExact_eq_some.mp hbs
      cases hw : (writeAt σ (wr k) f dst bs e : Logged ι ε Unit).res with
      | error e' =>
        rw [bind_eq_of_error hw]
        exact (block_writeAt _ _ _ _ _ _).1
      | ok u =>
        rw [bind_log_of_ok hw, writeAt_log_of_ok ((writeAt_res_ok _ _ _ _ _ _ _).mp hw)]
        refine (Block.single f dst bs).append ?_
        rw [written_write, written_nil, Nat.add_zero, hlen]
        rw [log_bind_nil fun _ _ => pure_log _]
        exact ih _ (by omega)

end Logged
