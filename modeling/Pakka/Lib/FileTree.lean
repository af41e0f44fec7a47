/-
A tree of directories, regular files and symbolic links, and what the POSIX calls that open and
create below a directory descriptor do to it.

A node sits at its real location, the list of names that leads to it from the root, so there are no
hard links. A descriptor is the real location it was opened at. Walking a path follows symbolic
links, up to a limit, except that the flag `nofollow` keeps a call from following one in the last
component.

The operations take the tree and give a tree back, with an error number where the call fails. Only
the calls that opening a path needs are here. The lemmas at the end are for paths of one name that
are opened without following links: for these the location reached is the one named, which is what
confinement rests on.
-/
import Mathlib.Logic.Function.Basic
import Mathlib.Data.List.Infix

set_option autoImplicit false

namespace FileTree

/-! ## Trees

Nodes by location, with a directory above each.
-/

/-- One component of a path. -/
inductive Comp (Name : Type) where
  | dot
  | dotdot
  | name (n : Name)
  deriving DecidableEq

/-- What is at a location. The target of a link is absolute or relative to the link's directory. -/
inductive Node (Name Content : Type) where
  | dir
  | file (contents : Content)
  | link (absolute : Bool) (target : List (Comp Name))

inductive Errno where
  | enoent
  | eexist
  | enotdir
  | eisdir
  | eloop
  | eio
  deriving DecidableEq, Repr

/-- A tree: the root is a directory, and whatever is anywhere is in a directory. -/
structure Tree (Name Content : Type) where
  node : List Name → Option (Node Name Content)
  root : node [] = some .dir
  parent : ∀ {p : List Name} {n : Name}, (node (p ++ [n])).isSome = true → node p = some .dir

namespace Tree

variable {Name Content : Type}

/-- Whether there is a directory at a location. -/
def isDir (t : Tree Name Content) (p : List Name) : Bool :=
  match t.node p with
  | some .dir => true
  | _ => false

@[simp] theorem isDir_iff {t : Tree Name Content} {p : List Name} :
    t.isDir p = true ↔ t.node p = some .dir := by
  unfold isDir
  split
  · rename_i h
    simp [h]
  · rename_i h
    simpa using h

/-- What leads to something is directories. -/
theorem dir_of_prefix {t : Tree Name Content} {p q : List Name}
    (h : (t.node (p ++ q)).isSome = true) (hq : q ≠ []) : t.node p = some .dir := by
  induction q using List.reverseRecOn with
  | nil => exact absurd rfl hq
  | append_singleton q n ih =>
    rw [← List.append_assoc] at h
    have hdir := t.parent h
    by_cases hnil : q = []
    · rwa [hnil, List.append_nil] at hdir
    · exact ih (by rw [hdir]; rfl) hnil

theorem dir_dropLast {t : Tree Name Content} {p : List Name} (h : t.node p = some .dir) :
    t.node p.dropLast = some .dir := by
  by_cases hp : p = []
  · rw [hp]
    exact t.root
  · refine t.parent (n := p.getLast hp) ?_
    rw [List.dropLast_append_getLast hp, h]
    rfl

/-! ## Walking a path

With the links followed on the way, and a limit on them.
-/

/-- Where a path leads: to a directory reached, or to a name in one, taken or free. -/
inductive Loc (Name : Type) where
  | dir (p : List Name)
  | entry (p : List Name) (n : Name)

/-- Walk a path from a directory. What is behind a symbolic link is left to `next`; one in the last
component is passed on only if `follow` says so. -/
def walk (t : Tree Name Content) (follow : Bool)
    (next : List Name → List (Comp Name) → Except Errno (Loc Name)) (cur : List Name) :
    List (Comp Name) → Except Errno (Loc Name)
  | [] => .ok (.dir cur)
  | .dot :: cs => t.walk follow next cur cs
  | .dotdot :: cs => t.walk follow next cur.dropLast cs
  | .name n :: cs =>
    match t.node (cur ++ [n]) with
    | none => if cs.isEmpty then .ok (.entry cur n) else .error .enoent
    | some .dir => if cs.isEmpty then .ok (.entry cur n) else t.walk follow next (cur ++ [n]) cs
    | some (.file _) => if cs.isEmpty then .ok (.entry cur n) else .error .enotdir
    | some (.link absolute target) =>
      if cs.isEmpty && !follow then .ok (.entry cur n)
      else next (if absolute then [] else cur) (target ++ cs)

/-- Walk a path from a directory, through `links` symbolic links at most. -/
def locate (t : Tree Name Content) (follow : Bool) :
    ℕ → List Name → List (Comp Name) → Except Errno (Loc Name)
  | 0 => t.walk follow fun _ _ => .error .eloop
  | links + 1 => t.walk follow (t.locate follow links)

/-- A walk is a walk with something to do behind the first link. -/
theorem locate_eq (t : Tree Name Content) (follow : Bool) (links : ℕ) :
    ∃ next, t.locate follow links = t.walk follow next := by
  cases links with
  | zero => exact ⟨_, rfl⟩
  | succ links => exact ⟨_, rfl⟩

/-- A single name, no link followed, leads to that name. -/
theorem locate_name (t : Tree Name Content) (links : ℕ) (d : List Name) (n : Name) :
    t.locate false links d [.name n] = .ok (.entry d n) := by
  obtain ⟨next, h⟩ := t.locate_eq false links
  rw [h, walk]
  split <;> rfl

/-- A walk that ends in a directory reached it through directories. -/
theorem walk_dir {t : Tree Name Content} {follow : Bool}
    {next : List Name → List (Comp Name) → Except Errno (Loc Name)} {cur p : List Name}
    {cs : List (Comp Name)}
    (hnext : ∀ cur cs, t.node cur = some .dir → next cur cs = .ok (.dir p) →
      t.node p = some .dir)
    (hcur : t.node cur = some .dir) (h : t.walk follow next cur cs = .ok (.dir p)) :
    t.node p = some .dir := by
  fun_induction walk t follow next cur cs with
  | case1 cur =>
    obtain rfl := Loc.dir.inj (Except.ok.inj h)
    exact hcur
  | case2 cur cs ih => exact ih hcur h
  | case3 cur cs ih => exact ih (dir_dropLast hcur) h
  | case7 cur n cs hdir _ ih => exact ih hdir h
  | case11 cur n cs absolute target _ _ =>
    refine hnext _ _ ?_ h
    split_ifs
    · exact t.root
    · exact hcur
  | case4 | case5 | case6 | case8 | case9 | case10 => cases h

theorem locate_dir {t : Tree Name Content} {follow : Bool} {links : ℕ} {cur p : List Name}
    {cs : List (Comp Name)} (hcur : t.node cur = some .dir)
    (h : t.locate follow links cur cs = .ok (.dir p)) : t.node p = some .dir := by
  induction links generalizing cur cs with
  | zero => exact walk_dir (fun _ _ _ hloop => by cases hloop) hcur h
  | succ links ih => exact walk_dir (fun _ _ hdir hrest => ih hdir hrest) hcur h

/-- **A real location leads to itself.** -/
theorem locate_real {t : Tree Name Content} {links : ℕ} (cur q : List Name) (n : Name)
    (h : t.node (cur ++ (q ++ [n])) = some .dir) :
    t.locate true links cur ((q ++ [n]).map .name) = .ok (.entry (cur ++ q) n) := by
  obtain ⟨next, hwalk⟩ := t.locate_eq true links
  rw [hwalk]
  clear hwalk
  induction q generalizing cur with
  | nil =>
    rw [List.nil_append] at h
    rw [List.nil_append, List.map_singleton, walk, h, List.append_nil]
    rfl
  | cons m q ih =>
    have hm : t.node (cur ++ [m]) = some .dir := by
      refine dir_of_prefix (q := q ++ [n]) ?_ (by simp)
      rw [List.append_assoc]
      exact Option.isSome_iff_exists.mpr ⟨_, h⟩
    have hnext := ih (cur ++ [m]) (by rwa [List.append_assoc])
    rw [List.append_assoc] at hnext
    rw [List.cons_append, List.map_cons, walk, hm]
    simp only
    rw [if_neg (by simp)]
    exact hnext

/-! ## Changing a tree

At one location.
-/

variable [DecidableEq Name]

/-- The nodes with something else at a location. -/
def update (t : Tree Name Content) (p : List Name) (x : Node Name Content) :
    List Name → Option (Node Name Content) :=
  Function.update t.node p (some x)

/-- Put a node under a name of a directory, unless that would take others with it. -/
def add (t : Tree Name Content) (p : List Name) (n : Name) (x : Node Name Content) :
    Except Errno (Tree Name Content) :=
  if h : t.isDir p = true ∧ ¬ t.isDir (p ++ [n]) = true then
    .ok
      { node := t.update (p ++ [n]) x
        root := by
          rw [update, Function.update_of_ne (by simp)]
          exact t.root
        parent := by
          intro q m hq
          simp only [update, Function.update_apply] at hq ⊢
          by_cases hqm : q ++ [m] = p ++ [n]
          · obtain ⟨rfl, -⟩ := List.append_inj' hqm rfl
            rw [if_neg (by simp)]
            exact isDir_iff.mp h.1
          · rw [if_neg hqm] at hq
            have hparent := t.parent hq
            have hne : q ≠ p ++ [n] := by
              rintro rfl
              exact h.2 (isDir_iff.mpr hparent)
            rw [if_neg hne]
            exact hparent }
  else .error .enotdir

theorem add_ok {t t' : Tree Name Content} {p : List Name} {n : Name} {x : Node Name Content}
    (h : t.add p n x = .ok t') :
    t.node p = some .dir ∧ t'.node = Function.update t.node (p ++ [n]) (some x) := by
  unfold add at h
  split_ifs at h with hc
  obtain rfl := Except.ok.inj h
  exact ⟨isDir_iff.mp hc.1, rfl⟩

/-- Where nothing is yet, a directory takes a node. -/
theorem add_free {t : Tree Name Content} {p : List Name} {n : Name} (x : Node Name Content)
    (hdir : t.node p = some .dir) (hfree : t.node (p ++ [n]) = none) :
    ∃ t', t.add p n x = .ok t' ∧
      t'.node = Function.update t.node (p ++ [n]) (some x) := by
  have h : t.isDir p = true ∧ ¬ t.isDir (p ++ [n]) = true := by
    simp [hdir, hfree]
  unfold add
  rw [dif_pos h]
  exact ⟨_, rfl, rfl⟩

/-- Give the file at a location other contents. -/
def store (t : Tree Name Content) (p : List Name) (c : Content) : Tree Name Content :=
  match h : t.node p with
  | some (.file _) =>
    { node := t.update p (.file c)
      root := by
        rw [update, Function.update_of_ne ?_]
        · exact t.root
        · rintro rfl
          rw [t.root] at h
          cases h
      parent := by
        intro q m hq
        have hq' : (t.node (q ++ [m])).isSome = true := by
          simp only [update, Function.update_apply] at hq
          by_cases hqm : q ++ [m] = p
          · rw [hqm, h]
            rfl
          · rwa [if_neg hqm] at hq
        have hparent := t.parent hq'
        have hne : q ≠ p := by
          rintro rfl
          rw [hparent] at h
          cases h
        rw [update, Function.update_of_ne hne]
        exact hparent }
  | _ => t

theorem store_node {t : Tree Name Content} {p : List Name} {c₀ : Content} (c : Content)
    (h : t.node p = some (.file c₀)) :
    (t.store p c).node = Function.update t.node p (some (.file c)) := by
  unfold store
  split
  · rfl
  · rename_i hx
    exact absurd h (hx c₀)

/-! ## Calls

`mkdirat` and `openat`, with the flags that matter.
-/

/-- How many symbolic links a call follows. -/
abbrev SYMLOOP_MAX : ℕ := 40

/-- The flags of `openat`. -/
structure OpenFlags where
  directory : Bool := false
  write : Bool := false
  creat : Bool := false
  trunc : Bool := false
  nofollow : Bool := false

/-- `mkdirat`. -/
def mkdirat (t : Tree Name Content) (dirfd : List Name) (path : List (Comp Name)) :
    Except Errno (Tree Name Content) :=
  match t.locate false SYMLOOP_MAX dirfd path with
  | .error e => .error e
  | .ok (.dir _) => .error .eexist
  | .ok (.entry p n) =>
    match t.node (p ++ [n]) with
    | none => t.add p n .dir
    | some _ => .error .eexist

/-- **Making a directory** puts it under that very name. -/
theorem mkdirat_ok {t t' : Tree Name Content} {d : List Name} {n : Name}
    (h : t.mkdirat d [.name n] = .ok t') :
    t.node (d ++ [n]) = none ∧ t.node d = some .dir ∧
      t'.node = Function.update t.node (d ++ [n]) (some .dir) := by
  unfold mkdirat at h
  rw [locate_name] at h
  simp only at h
  split at h
  · rename_i hfree
    exact ⟨hfree, add_ok h⟩
  · cases h

/-- Where a directory has nothing of that name, it can be made. -/
theorem mkdirat_free {t : Tree Name Content} {d : List Name} {n : Name}
    (hdir : t.node d = some .dir) (hfree : t.node (d ++ [n]) = none) :
    ∃ t', t.mkdirat d [.name n] = .ok t' ∧
      t'.node = Function.update t.node (d ++ [n]) (some .dir) := by
  unfold mkdirat
  rw [locate_name]
  simp only [hfree]
  exact add_free .dir hdir hfree

variable [EmptyCollection Content]

/-- `openat`: the location opened, and the tree afterwards. -/
def openat (t : Tree Name Content) (dirfd : List Name) (path : List (Comp Name))
    (flags : OpenFlags) : Except Errno (List Name × Tree Name Content) :=
  match t.locate (!flags.nofollow) SYMLOOP_MAX dirfd path with
  | .error e => .error e
  | .ok (.dir p) => if flags.write then .error .eisdir else .ok (p, t)
  | .ok (.entry p n) =>
    match t.node (p ++ [n]) with
    | none =>
      if flags.creat then (t.add p n (.file ∅)).map fun t' => (p ++ [n], t')
      else .error .enoent
    | some .dir => if flags.write then .error .eisdir else .ok (p ++ [n], t)
    | some (.file _) =>
      if flags.directory then .error .enotdir
      else .ok (p ++ [n], if flags.trunc then t.store (p ++ [n]) ∅ else t)
    | some (.link _ _) => .error .eloop

/-- Opening a directory changes nothing. -/
theorem openat_directory_ok {t t' : Tree Name Content} {d p : List Name}
    {path : List (Comp Name)} (hd : t.node d = some .dir)
    (h : t.openat d path { directory := true } = .ok (p, t')) :
    t.node p = some .dir ∧ t' = t := by
  unfold openat at h
  simp only [Bool.false_eq_true, if_false, if_true] at h
  split at h
  · cases h
  · rename_i hloc
    obtain ⟨rfl, rfl⟩ := Prod.mk.inj (Except.ok.inj h)
    exact ⟨locate_dir hd hloc, rfl⟩
  · split at h
    · cases h
    · rename_i hdir
      obtain ⟨rfl, rfl⟩ := Prod.mk.inj (Except.ok.inj h)
      exact ⟨hdir, rfl⟩
    · cases h
    · cases h

/-- **A directory opens under its real location.** -/
theorem openat_real {t : Tree Name Content} {p : List Name} (h : t.node p = some .dir) :
    t.openat [] (p.map .name) { directory := true } = .ok (p, t) := by
  unfold openat
  induction p using List.reverseRecOn with
  | nil => rfl
  | append_singleton q n =>
    simp only [Bool.not_false, locate_real [] q n h, List.nil_append, h, Bool.false_eq_true,
      if_false]

/-! ## One component, no link followed

For these the location that is opened is the one that was named.
-/

/-- The flags that open a directory without following a link. -/
abbrev OpenFlags.descend : OpenFlags := { directory := true, nofollow := true }

/-- The flags that create or empty a file without following a link. -/
abbrev OpenFlags.deliver : OpenFlags :=
  { write := true, creat := true, trunc := true, nofollow := true }

/-- **Descending opens what is there**, a directory under that very name, and changes nothing. -/
theorem openat_descend_ok {t t' : Tree Name Content} {d p : List Name} {n : Name} :
    t.openat d [.name n] .descend = .ok (p, t') ↔
      t.node (d ++ [n]) = some .dir ∧ p = d ++ [n] ∧ t' = t := by
  unfold openat
  simp only [Bool.not_true, locate_name]
  split
  all_goals rename_i h; simp [h, eq_comm]

/-- What is not there is reported as missing, and only that. -/
theorem openat_descend_enoent {t : Tree Name Content} {d : List Name} {n : Name} :
    t.openat d [.name n] .descend = .error .enoent ↔ t.node (d ++ [n]) = none := by
  unfold openat
  simp only [Bool.not_true, locate_name]
  split
  all_goals rename_i h; simp [h]

/-- **Creating a file** puts an empty one under that very name, in place of a file or of
nothing. -/
theorem openat_deliver_ok {t t' : Tree Name Content} {d p : List Name} {n : Name}
    (h : t.openat d [.name n] .deliver = .ok (p, t')) :
    p = d ++ [n] ∧ (t.node (d ++ [n]) = none ∨ ∃ c, t.node (d ++ [n]) = some (.file c)) ∧
      t'.node = Function.update t.node (d ++ [n]) (some (.file ∅)) := by
  unfold openat at h
  simp only [Bool.not_true, locate_name] at h
  split at h
  · rename_i hfree
    rw [if_pos trivial] at h
    cases hadd : t.add d n (.file ∅) with
    | error e =>
      rw [hadd] at h
      cases h
    | ok t₁ =>
      rw [hadd] at h
      obtain ⟨rfl, rfl⟩ := Prod.mk.inj (Except.ok.inj h)
      exact ⟨rfl, Or.inl hfree, (add_ok hadd).2⟩
  · simp at h
  · rename_i c hfile
    rw [if_neg (by simp), if_pos trivial] at h
    obtain ⟨rfl, rfl⟩ := Prod.mk.inj (Except.ok.inj h)
    exact ⟨rfl, Or.inr ⟨c, hfile⟩, store_node ∅ hfile⟩
  · cases h

/-- Where a directory has nothing of that name, the file is created. -/
theorem openat_deliver_free {t : Tree Name Content} {d : List Name} {n : Name}
    (hdir : t.node d = some .dir) (hfree : t.node (d ++ [n]) = none) :
    ∃ t', t.openat d [.name n] .deliver = .ok (d ++ [n], t') ∧
      t'.node = Function.update t.node (d ++ [n]) (some (.file ∅)) := by
  obtain ⟨t', hadd, hnode⟩ := add_free (.file ∅) hdir hfree
  refine ⟨t', ?_, hnode⟩
  unfold openat
  simp only [Bool.not_true, locate_name, hfree]
  rw [if_pos trivial, hadd]
  rfl

end Tree

end FileTree
