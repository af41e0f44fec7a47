/-
Texts as literals and copies.

A token is a letter, or a copy of what stands some distance back; a copy may reach into what it
writes itself. Tokens spell a part of a text when the letters are those of the text and a copy is
taken from where the text agrees with itself. What tokens spell is what they unpack to, on top of
the text in front.

The relation `Spells` is what a compressor is to be checked against: it speaks of the text it has,
and never of what a decompressor would do. That unpacking gives the text back is then one theorem,
`Spells.unpack`, by induction on the tokens.
-/
import Mathlib.Data.List.GetD
import Mathlib.Tactic.Common

set_option autoImplicit false

namespace Lz77

variable {α : Type*}

/-- A letter, or `len` letters from `dist` back. -/
inductive Token (α : Type*) where
  | lit (a : α)
  | copy (dist len : ℕ)
  deriving DecidableEq, Repr

section Copy

variable [Inhabited α]

/-- Copy letter by letter. -/
def copyBack (dist : ℕ) : ℕ → List α → List α
  | 0, out => out
  | len + 1, out => copyBack dist len (out ++ [out.getD (out.length - dist) default])

@[simp] theorem length_copyBack (dist len : ℕ) (out : List α) :
    (copyBack dist len out).length = out.length + len := by
  induction len generalizing out with
  | zero => rfl
  | succ len ih =>
    rw [copyBack, ih, List.length_append, List.length_singleton]
    omega

/-- **A copy from where the text agrees with itself goes on with the text.** -/
theorem copyBack_take {x : List α} {p dist : ℕ} (len : ℕ) (hpos : 0 < dist) (hdist : dist ≤ p)
    (hlen : p + len ≤ x.length)
    (hsame : ∀ k, k < len → x.getD (p - dist + k) default = x.getD (p + k) default) :
    copyBack dist len (x.take p) = x.take (p + len) := by
  induction len generalizing p with
  | zero => rfl
  | succ len ih =>
    have hp : (x.take p).length = p := List.length_take_of_le (by omega)
    have hletter : (x.take p).getD (p - dist) default = x.getD p default := by
      have h0 := hsame 0 (Nat.succ_pos len)
      rw [Nat.add_zero, Nat.add_zero] at h0
      rw [← h0, List.getD_eq_getElem?_getD, List.getElem?_take_of_lt (by omega),
        ← List.getD_eq_getElem?_getD]
    have hnext : x.take p ++ [x.getD p default] = x.take (p + 1) := by
      rw [List.take_add_one, List.getElem?_eq_getElem (by omega), List.getD_eq_getElem _ _ (by omega)]
      rfl
    rw [copyBack, hp, hletter, hnext, ih (by omega) (by omega), Nat.add_right_comm, Nat.add_assoc]
    intro k hk
    have hk1 := hsame (k + 1) (by omega)
    rwa [show p - dist + (k + 1) = p + 1 - dist + k by omega,
      show p + (k + 1) = p + 1 + k by omega] at hk1

theorem copyBack_add (dist m n : ℕ) (out : List α) :
    copyBack dist (m + n) out = copyBack dist n (copyBack dist m out) := by
  induction m generalizing out with
  | zero => rw [Nat.zero_add, copyBack]
  | succ m ih => rw [Nat.add_right_comm, copyBack, ih, copyBack]

theorem prefix_copyBack (dist len : ℕ) (out : List α) : out <+: copyBack dist len out := by
  induction len generalizing out with
  | zero => exact List.prefix_rfl
  | succ len ih => exact (List.prefix_append _ _).trans (ih _)

/-- A copy that goes too far begins with the copy. -/
theorem take_copyBack (dist : ℕ) {len len' : ℕ} (out : List α) (h : len ≤ len') :
    (copyBack dist len' out).take (out.length + len) = copyBack dist len out := by
  obtain ⟨k, rfl⟩ := Nat.exists_eq_add_of_le h
  obtain ⟨more, hmore⟩ := prefix_copyBack dist k (copyBack dist len out)
  rw [copyBack_add, ← hmore, List.take_left' (length_copyBack _ _ _)]

/-- **A copy that does not reach into what it writes** is a slice. -/
theorem copyBack_slice {dist len : ℕ} {out : List α} (hlen : len ≤ dist) (hdist : dist ≤ out.length) :
    copyBack dist len out = out ++ (out.drop (out.length - dist)).take len := by
  induction len with
  | zero => rw [copyBack, List.take_zero, List.append_nil]
  | succ len ih =>
    have hat : out.length + len - dist < out.length := by omega
    rw [copyBack_add, ih (by omega), copyBack, copyBack, List.append_assoc, List.take_add_one]
    congr 2
    -- the letter stands in the text in front
    rw [List.length_append, List.length_take_of_le (by rw [List.length_drop]; omega),
      List.getD_eq_getElem?_getD, List.getElem?_append_left hat, List.getElem?_drop,
      show out.length - dist + len = out.length + len - dist by omega, List.getElem?_eq_getElem hat]
    rfl

/-- **A copy from one back** repeats the last letter. -/
theorem copyBack_one (len : ℕ) (out : List α) (a : α) :
    copyBack 1 len (out ++ [a]) = out ++ [a] ++ List.replicate len a := by
  induction len generalizing out with
  | zero => rw [copyBack, List.replicate_zero, List.append_nil]
  | succ len ih =>
    have hlast : (out ++ [a]).getD ((out ++ [a]).length - 1) default = a := by
      rw [List.length_append, List.length_singleton, Nat.add_sub_cancel, List.getD_eq_getElem?_getD,
        List.getElem?_append_right (Nat.le_refl _), Nat.sub_self]
      rfl
    rw [copyBack, hlast, ih, List.replicate_succ, List.append_assoc (out ++ [a]),
      List.singleton_append]

/-- What a token adds. -/
def Token.unpack (out : List α) : Token α → List α
  | .lit a => out ++ [a]
  | .copy dist len => copyBack dist len out

end Copy

/-! ## Spelling a text

A relation between tokens and a part of a text, and what it says about unpacking.
-/

section Spells

variable [Inhabited α]

/-- The tokens spell the text from `p` on up to `q`. -/
inductive Spells (x : List α) : ℕ → List (Token α) → ℕ → Prop
  | nil {p : ℕ} (hp : p ≤ x.length) : Spells x p [] p
  | lit {p q : ℕ} {ts : List (Token α)} (hp : p < x.length) (h : Spells x (p + 1) ts q) :
      Spells x p (.lit (x.getD p default) :: ts) q
  | copy {p q dist len : ℕ} {ts : List (Token α)} (hpos : 0 < dist) (hdist : dist ≤ p)
      (hlen : p + len ≤ x.length)
      (hsame : ∀ k, k < len → x.getD (p - dist + k) default = x.getD (p + k) default)
      (h : Spells x (p + len) ts q) : Spells x p (.copy dist len :: ts) q

variable {x : List α} {p q r : ℕ} {ts us : List (Token α)}

theorem Spells.append (h : Spells x p ts q) (h' : Spells x q us r) : Spells x p (ts ++ us) r := by
  induction h with
  | nil => exact h'
  | lit hp _ ih => exact .lit hp (ih h')
  | copy hpos hdist hlen hsame _ ih => exact .copy hpos hdist hlen hsame (ih h')

theorem Spells.le (h : Spells x p ts q) : p ≤ q ∧ q ≤ x.length := by
  induction h with
  | nil hp => exact ⟨Nat.le_refl _, hp⟩
  | lit _ _ ih => exact ⟨by omega, ih.2⟩
  | copy _ _ _ _ _ ih => exact ⟨by omega, ih.2⟩

/-- Letters spell themselves. -/
theorem spells_slice (n : ℕ) (h : p + n ≤ x.length) :
    Spells x p (((x.drop p).take n).map Token.lit) (p + n) := by
  induction n generalizing p with
  | zero => exact .nil h
  | succ n ih =>
    have hp : p < x.length := by omega
    rw [List.drop_eq_getElem_cons hp, List.take_succ_cons, List.map_cons,
      ← List.getD_eq_getElem x default hp, Nat.add_comm n 1, ← Nat.add_assoc]
    exact .lit hp (ih (by omega))

/-- **Tokens that spell a part of the text unpack to it.** -/
theorem Spells.unpack (h : Spells x p ts q) : ts.foldl Token.unpack (x.take p) = x.take q := by
  induction h with
  | nil => rfl
  | @lit p q ts hp h ih =>
    rw [List.foldl_cons, Token.unpack, ← ih]
    congr 1
    rw [List.take_add_one, List.getElem?_eq_getElem hp, List.getD_eq_getElem _ _ hp]
    rfl
  | copy hpos hdist hlen hsame h ih =>
    rw [List.foldl_cons, Token.unpack, copyBack_take _ hpos hdist hlen hsame, ih]

end Spells

end Lz77
