/-
Catalogues: ordered lists of named values, and the four edits an archive tool makes to
them. Names may repeat; every edit that takes a name means the first entry that bears it.

The second half relates an implementation to its catalogue: a list of records, each with a
name and a value, where an edit works on the position of the first record of a name.

Nothing is assumed of the values. So one set of lemmas serves an archive as its names, as its stored
items and as its decoded contents, and `mapValues` goes from one of these views to another without a
new induction.
-/
import Mathlib.Data.List.Basic
import Mathlib.Data.List.Nodup

set_option autoImplicit false

/-- Names and values, in order. -/
abbrev Catalogue (ν β : Type) := List (ν × β)

namespace Catalogue

variable {ν β ε : Type}

/-- The names, in order. -/
def names (c : Catalogue ν β) : List ν := c.map Prod.fst

/-- Append an entry. -/
def add (c : Catalogue ν β) (n : ν) (v : β) : Catalogue ν β := c ++ [(n, v)]

variable [DecidableEq ν]

/-- The value of the first entry of a name. -/
def find : Catalogue ν β → ν → Option β
  | [], _ => none
  | p :: c, n => if p.1 = n then some p.2 else find c n

/-- Remove the first entry of a name. -/
def remove : Catalogue ν β → ν → Catalogue ν β
  | [], _ => []
  | p :: c, n => if p.1 = n then c else p :: remove c n

/-- Rename the first entry of a name, where it stands. -/
def rename : Catalogue ν β → ν → ν → Catalogue ν β
  | [], _, _ => []
  | p :: c, n, m => if p.1 = n then (m, p.2) :: c else p :: rename c n m

/-- Append the value of the first entry of a name under another. -/
def copy (c : Catalogue ν β) (n m : ν) : Catalogue ν β :=
  match find c n with
  | some v => add c m v
  | none => c

/-- The edits. -/
inductive Edit (ν β : Type) where
  | add (n : ν) (v : β)
  | remove (n : ν)
  | rename (n m : ν)
  | copy (n m : ν)
  | keep

/-- What an edit does. -/
def edit (c : Catalogue ν β) : Edit ν β → Catalogue ν β
  | .add n v => add c n v
  | .remove n => remove c n
  | .rename n m => rename c n m
  | .copy n m => copy c n m
  | .keep => c

/-- Edits in a row. -/
def edits (c : Catalogue ν β) (l : List (Edit ν β)) : Catalogue ν β := l.foldl edit c

/-- Renaming to the same name changes nothing. -/
theorem rename_self (c : Catalogue ν β) (n : ν) : rename c n n = c := by
  induction c with
  | nil => rfl
  | cons p c ih =>
    unfold rename
    split_ifs with h
    · rw [← h]
    · rw [ih]

theorem names_remove_sublist (c : Catalogue ν β) (n : ν) :
    (names (remove c n)).Sublist (names c) := by
  induction c with
  | nil => exact List.Sublist.refl _
  | cons p c ih =>
    unfold remove
    split_ifs
    · exact List.sublist_cons_self _ _
    · exact ih.cons_cons _

theorem mem_names_rename {c : Catalogue ν β} {n m x : ν} (h : x ∈ names (rename c n m)) :
    x = m ∨ x ∈ names c := by
  induction c with
  | nil => cases h
  | cons p c ih =>
    unfold rename at h
    split_ifs at h with hp
    · rcases List.mem_cons.mp h with h | h
      · exact Or.inl h
      · exact Or.inr (List.mem_cons_of_mem _ h)
    · rcases List.mem_cons.mp h with h | h
      · exact Or.inr (h ▸ List.mem_cons_self)
      · rcases ih h with h | h
        · exact Or.inl h
        · exact Or.inr (List.mem_cons_of_mem _ h)

/-- Distinct names stay distinct under a rename to a fresh one. -/
theorem nodup_rename {c : Catalogue ν β} {n m : ν} (h : (names c).Nodup) (hm : m ∉ names c) :
    (names (rename c n m)).Nodup := by
  induction c with
  | nil => exact List.nodup_nil
  | cons p c ih =>
    obtain ⟨hp, hc⟩ := List.nodup_cons.mp h
    have hm' : m ∉ names c := fun hx => hm (List.mem_cons_of_mem _ hx)
    unfold rename
    split_ifs
    · exact List.nodup_cons.mpr ⟨hm', hc⟩
    · refine List.nodup_cons.mpr ⟨fun hx => ?_, ih hc hm'⟩
      rcases mem_names_rename hx with hx | hx
      · exact hm (hx ▸ List.mem_cons_self)
      · exact hp hx

/-! ## Names under edits

Which names an edit adds and which it removes.
-/

/-- The name an edit gives to an entry. -/
def Edit.takes : Edit ν β → Option ν
  | .add n _ => some n
  | .rename _ m => some m
  | .copy _ m => some m
  | _ => none

/-- The name an edit takes from the entry it gives one to. -/
def Edit.frees : Edit ν β → Option ν
  | .rename n _ => some n
  | _ => none

/-- Names after an edit are names of before, or the one it gives. -/
theorem mem_names_edit {c : Catalogue ν β} {e : Edit ν β} {x : ν} (h : x ∈ names (edit c e)) :
    x ∈ names c ∨ e.takes = some x := by
  have hadd : ∀ m (v : β), x ∈ names (add c m v) → x ∈ names c ∨ some m = some x := by
    intro m v hx
    rw [names, add, List.map_append, List.mem_append] at hx
    rcases hx with hx | hx
    · exact Or.inl hx
    · exact Or.inr (congrArg some (List.mem_singleton.mp hx).symm)
  cases e with
  | add m v => exact hadd m v h
  | remove n => exact Or.inl ((names_remove_sublist c n).subset h)
  | rename n m =>
    rcases mem_names_rename h with rfl | hx
    · exact Or.inr rfl
    · exact Or.inl hx
  | copy n m =>
    change x ∈ names (copy c n m) at h
    unfold copy at h
    cases hf : find c n with
    | none =>
      rw [hf] at h
      exact Or.inl h
    | some v =>
      rw [hf] at h
      exact hadd m v h
  | keep => exact Or.inl h

/-- **Keys of names stay apart** under an edit that gives a name whose key is none of those of the
other entries. Names themselves have to be distinct, for the edit to mean one entry. -/
theorem nodup_map_names_edit {κ : Type} (f : ν → κ) {c : Catalogue ν β} {e : Edit ν β}
    (hnames : (names c).Nodup) (hkeys : ((names c).map f).Nodup)
    (h : ∀ m, e.takes = some m → ∀ x ∈ names c, e.frees ≠ some x → f x ≠ f m) :
    ((names (edit c e)).map f).Nodup := by
  have hadd : ∀ m (v : β), (∀ x ∈ names c, f x ≠ f m) → ((names (add c m v)).map f).Nodup := by
    intro m v hm
    rw [names, add, List.map_append, List.map_append, List.nodup_append]
    refine ⟨hkeys, List.nodup_singleton _, ?_⟩
    rintro a ha b hb rfl
    obtain ⟨x, hx, hxa⟩ := List.mem_map.mp ha
    exact hm x hx (hxa.trans (List.mem_singleton.mp hb))
  cases e with
  | add m v => exact hadd m v fun x hx => h m rfl x hx (by simp [Edit.frees])
  | remove n => exact hkeys.sublist ((names_remove_sublist c n).map f)
  | rename n m =>
    change ((names (rename c n m)).map f).Nodup
    have hm : ∀ x ∈ names c, n ≠ x → f x ≠ f m := fun x hx hne =>
      h m rfl x hx fun he => hne (Option.some.inj he)
    clear h hadd
    induction c with
    | nil => exact List.nodup_nil
    | cons p c ih =>
      obtain ⟨hp, hc⟩ := List.nodup_cons.mp hnames
      obtain ⟨hfp, hfc⟩ := List.nodup_cons.mp hkeys
      unfold rename
      split_ifs with hpn
      · -- the other names are not the freed one
        refine List.nodup_cons.mpr ⟨fun hx => ?_, hfc⟩
        obtain ⟨x, hx, hxm⟩ := List.mem_map.mp hx
        refine hm x (List.mem_cons_of_mem _ hx) ?_ hxm
        rintro rfl
        exact hp (hpn ▸ hx)
      · refine List.nodup_cons.mpr ⟨fun hx => ?_, ih hc hfc fun x hx =>
          hm x (List.mem_cons_of_mem _ hx)⟩
        obtain ⟨x, hx, hxp⟩ := List.mem_map.mp hx
        rcases mem_names_rename hx with rfl | hx
        · exact hm p.1 List.mem_cons_self (fun he => hpn he.symm) hxp.symm
        · exact hfp (List.mem_map.mpr ⟨x, hx, hxp⟩)
  | copy n m =>
    change ((names (copy c n m)).map f).Nodup
    unfold copy
    cases find c n with
    | none => exact hkeys
    | some v => exact hadd m v fun x hx => h m rfl x hx (by simp [Edit.frees])
  | keep => exact hkeys

/-! ## Values

Edits commute with a function of the values.
-/

section

variable {γ : Type} (f : β → γ)

omit [DecidableEq ν]

/-- A catalogue of what the values are worth. -/
def mapValues (c : Catalogue ν β) : Catalogue ν γ := c.map fun p => (p.1, f p.2)

/-- An edit with what its value is worth. -/
def Edit.mapValues : Edit ν β → Edit ν γ
  | .add n v => .add n (f v)
  | .remove n => .remove n
  | .rename n m => .rename n m
  | .copy n m => .copy n m
  | .keep => .keep

variable [DecidableEq ν]

theorem find_mapValues (c : Catalogue ν β) (n : ν) :
    find (c.mapValues f) n = (find c n).map f := by
  induction c with
  | nil => rfl
  | cons p c ih =>
    change (if p.1 = n then some (f p.2) else find (mapValues f c) n) =
      (if p.1 = n then some p.2 else find c n).map f
    split_ifs
    · rfl
    · exact ih

/-- **Edits do not look at values.** -/
theorem edit_mapValues (c : Catalogue ν β) (e : Edit ν β) :
    (edit c e).mapValues f = edit (c.mapValues f) (e.mapValues f) := by
  have hadd : ∀ m v, (add c m v).mapValues f = add (c.mapValues f) m (f v) :=
    fun m v => List.map_append
  cases e with
  | add n v => exact hadd n v
  | remove n =>
    change (remove c n).mapValues f = remove (c.mapValues f) n
    clear hadd
    induction c with
    | nil => rfl
    | cons p c ih =>
      change mapValues f (if p.1 = n then c else p :: remove c n) =
        if p.1 = n then mapValues f c else (p.1, f p.2) :: remove (mapValues f c) n
      split_ifs
      · rfl
      · exact congrArg _ ih
  | rename n m =>
    change (rename c n m).mapValues f = rename (c.mapValues f) n m
    clear hadd
    induction c with
    | nil => rfl
    | cons p c ih =>
      change mapValues f (if p.1 = n then (m, p.2) :: c else p :: rename c n m) =
        if p.1 = n then (m, f p.2) :: mapValues f c
        else (p.1, f p.2) :: rename (mapValues f c) n m
      split_ifs
      · rfl
      · exact congrArg _ ih
  | copy n m =>
    change (copy c n m).mapValues f = copy (c.mapValues f) n m
    rw [copy, copy, find_mapValues]
    cases find c n with
    | none => rfl
    | some v => exact hadd m v
  | keep => rfl

end

/-! ## Implementations

Positions for names.
-/

/-- The catalogue of a list of records. -/
def of (key : ε → ν) (val : ε → β) (es : List ε) : Catalogue ν β := es.map fun e => (key e, val e)

omit [DecidableEq ν] in
@[simp] theorem of_append (key : ε → ν) (val : ε → β) (es fs : List ε) :
    of key val (es ++ fs) = of key val es ++ of key val fs := List.map_append

omit [DecidableEq ν] in
theorem names_of (key : ε → ν) (val : ε → β) (es : List ε) : names (of key val es) = es.map key := by
  unfold names of
  rw [List.map_map]
  rfl

omit [DecidableEq ν] in
/-- Catalogues see keys and values only. -/
theorem of_congr {key : ε → ν} {val val' : ε → β} {es : List ε} (h : ∀ e ∈ es, val e = val' e) :
    of key val es = of key val' es := by
  apply List.map_congr_left
  intro e he
  rw [h e he]

/-- Looking up the first record of a name. -/
theorem find_of {key : ε → ν} {val : ε → β} {es : List ε} {n : ν} {e : ε}
    (h : es.find? (fun e => decide (key e = n)) = some e) :
    find (of key val es) n = some (val e) := by
  induction es with
  | nil => cases h
  | cons x es ih =>
    change (if key x = n then some (val x) else find (of key val es) n) = some (val e)
    rw [List.find?_cons] at h
    by_cases hx : key x = n
    · rw [if_pos hx]
      simp only [hx, decide_true, Option.some.injEq] at h
      rw [h]
    · rw [if_neg hx]
      simp only [hx, decide_false] at h
      exact ih h

/-- Erasing the first record of a name. -/
theorem of_eraseIdx {key : ε → ν} {val : ε → β} {es : List ε} {n : ν} {i : ℕ}
    (h : es.findIdx? (fun e => decide (key e = n)) = some i) :
    of key val (es.eraseIdx i) = remove (of key val es) n := by
  induction es generalizing i with
  | nil => cases h
  | cons x es ih =>
    change _ = if key x = n then of key val es else (key x, val x) :: remove (of key val es) n
    rw [List.findIdx?_cons] at h
    by_cases hx : key x = n
    · rw [if_pos hx]
      simp only [hx, decide_true, if_true, Option.some.injEq] at h
      rw [← h]
      rfl
    · rw [if_neg hx]
      simp only [hx, decide_false, Bool.false_eq_true, if_false, Option.map_eq_some_iff] at h
      obtain ⟨j, hj, rfl⟩ := h
      rw [List.eraseIdx_cons_succ, ← ih hj]
      rfl

/-- Changing the name of the first record of a name. -/
theorem of_modify {key : ε → ν} {val : ε → β} {es : List ε} {n m : ν} {i : ℕ} {g : ε → ε}
    (h : es.findIdx? (fun e => decide (key e = n)) = some i) (hkey : ∀ e, key (g e) = m)
    (hval : ∀ e, val (g e) = val e) :
    of key val (es.modify i g) = rename (of key val es) n m := by
  induction es generalizing i with
  | nil => cases h
  | cons x es ih =>
    change _ = if key x = n then (m, val x) :: of key val es
      else (key x, val x) :: rename (of key val es) n m
    rw [List.findIdx?_cons] at h
    by_cases hx : key x = n
    · rw [if_pos hx]
      simp only [hx, decide_true, if_true, Option.some.injEq] at h
      rw [← h, List.modify_zero_cons]
      simp [of, hkey, hval]
    · rw [if_neg hx]
      simp only [hx, decide_false, Bool.false_eq_true, if_false, Option.map_eq_some_iff] at h
      obtain ⟨j, hj, rfl⟩ := h
      rw [List.modify_succ_cons, ← ih hj]
      rfl

end Catalogue
