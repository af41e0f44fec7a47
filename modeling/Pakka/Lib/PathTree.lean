/-
Trees of paths with sibling lists.

A node points to the first of its children and to its next sibling, so a tree is the list of the
nodes at its top, each with a tree below. Siblings are kept in the order of their names; several
may have one name. A path is inserted by walking down its directories, of which the missing ones
are created, and hanging a file under the last.

What a tree contains are its paths. Inserting adds the path and the missing prefixes, no prefix
twice; and two sorted trees with the same paths differ in the order of siblings with one name only.
-/
import Mathlib.Data.List.Dedup
import Mathlib.Data.List.Nodup
import Mathlib.Data.List.Perm.Basic

set_option autoImplicit false

namespace PathTree

variable {α : Type*}

/-- A node, or none. -/
inductive Tree (α : Type*) where
  | null
  | node (name : α) (is_dir : Bool) (children next : Tree α)
  deriving DecidableEq, Repr

/-! ## What a tree contains

The paths to its nodes, and the two conditions a tree should meet.
-/

/-- A name in front of a path. -/
def under (name : α) (p : List α × Bool) : List α × Bool := (name :: p.1, p.2)

theorem under_injective (name : α) : Function.Injective (under name) := by
  rintro ⟨p, b⟩ ⟨q, c⟩ h
  simp only [under, Prod.mk.injEq, List.cons.injEq, true_and] at h
  rw [h.1, h.2]

namespace Tree

/-- Every node by its path, and whether it is a directory. -/
def nodes : Tree α → List (List α × Bool)
  | null => []
  | node name is_dir children next =>
    ([name], is_dir) :: (children.nodes.map (under name) ++ next.nodes)

/-- The nodes at the top. -/
def level : Tree α → List (α × Bool)
  | null => []
  | node name is_dir _ next => (name, is_dir) :: next.level

/-- Siblings stand in the order of their names. -/
def Sorted (le : α → α → Prop) : Tree α → Prop
  | null => True
  | node name _ children next =>
    (∀ x ∈ next.level, le name x.1) ∧ children.Sorted le ∧ next.Sorted le

/-- A file has nothing below it, and of the siblings with one name at most one is a directory. -/
def Proper : Tree α → Prop
  | null => True
  | node name is_dir children next =>
    (is_dir = false → children = null) ∧ (is_dir = true → (name, true) ∉ next.level) ∧
      children.Proper ∧ next.Proper

theorem path_ne_nil {t : Tree α} {p : List α} {b : Bool} (h : (p, b) ∈ t.nodes) : p ≠ [] := by
  induction t with
  | null => cases h
  | node name is_dir children next ihc ihn =>
    simp only [nodes, List.mem_cons, List.mem_append, List.mem_map, Prod.mk.injEq] at h
    rcases h with ⟨rfl, -⟩ | ⟨q, -, hq⟩ | h
    · exact List.cons_ne_nil _ _
    · rw [← (Prod.mk.inj hq).1]
      exact List.cons_ne_nil _ _
    · exact ihn h

/-- The nodes at the top are those with paths of one name. -/
theorem mem_level_iff {t : Tree α} {name : α} {b : Bool} :
    (name, b) ∈ t.level ↔ ([name], b) ∈ t.nodes := by
  induction t with
  | null => simp [level, nodes]
  | node n d children next ihc ihn =>
    have hbelow : ([name], b) ∉ children.nodes.map (under n) := by
      intro hmem
      obtain ⟨⟨q, c⟩, hq, heq⟩ := List.mem_map.mp hmem
      simp only [under, Prod.mk.injEq, List.cons.injEq] at heq
      exact path_ne_nil hq heq.1.2
    simp [level, nodes, ihn, hbelow]

/-- What is below the top is below a directory. -/
theorem Proper.below {t : Tree α} (h : t.Proper) {name : α} {p : List α} {b : Bool}
    (hmem : (name :: p, b) ∈ t.nodes) (hp : p ≠ []) : (name, true) ∈ t.level := by
  induction t with
  | null => cases hmem
  | node n d children next ihc ihn =>
    obtain ⟨hfile, -, -, hnext⟩ := h
    simp only [nodes, List.mem_cons, List.mem_append, List.mem_map, Prod.mk.injEq,
      List.cons.injEq] at hmem
    rcases hmem with ⟨⟨-, rfl⟩, -⟩ | ⟨⟨q, c⟩, hq, heq⟩ | hmem
    · exact absurd rfl hp
    · cases d with
      | false =>
        rw [hfile rfl] at hq
        cases hq
      | true =>
        simp only [under, Prod.mk.injEq, List.cons.injEq] at heq
        rw [← heq.1.1]
        exact List.mem_cons_self
    · exact List.mem_cons_of_mem _ (ihn hnext hmem)

/-! ## A new sibling

Inserted in order.
-/

section Insert

variable (le : α → α → Prop) [DecidableRel le]

/-- Insert a node behind every sibling that is not greater. -/
def insert (name : α) (is_dir : Bool) : Tree α → Tree α → Tree α
  | null, children => node name is_dir children null
  | node n d c next, children =>
    if le n name then node n d c (next.insert name is_dir children)
    else node name is_dir children (node n d c next)

variable {le}

theorem insert_level (name : α) (is_dir : Bool) (t children : Tree α) :
    (t.insert le name is_dir children).level.Perm ((name, is_dir) :: t.level) := by
  induction t with
  | null => exact List.Perm.refl _
  | node n d c next ihc ihn =>
    rw [insert]
    split_ifs
    · exact (ihn.cons (n, d)).trans (List.Perm.swap _ _ _)
    · exact List.Perm.refl _

theorem insert_nodes (name : α) (is_dir : Bool) (t children : Tree α) :
    (t.insert le name is_dir children).nodes.Perm
      (([name], is_dir) :: (children.nodes.map (under name) ++ t.nodes)) := by
  induction t with
  | null => exact List.Perm.refl _
  | node n d c next ihc ihn =>
    rw [insert]
    split_ifs
    · refine ((ihn.append_left _).cons _).trans ?_
      -- the new node moves in front of the one it was inserted behind
      exact List.perm_append_comm_assoc (([n], d) :: c.nodes.map (under n))
        (([name], is_dir) :: children.nodes.map (under name)) next.nodes
    · exact List.Perm.refl _

theorem Sorted.insert {name : α} {is_dir : Bool} {children t : Tree α}
    (htotal : ∀ a b, le a b ∨ le b a) (htrans : ∀ a b c, le a b → le b c → le a c)
    (h : t.Sorted le) (hc : children.Sorted le) :
    (t.insert le name is_dir children).Sorted le := by
  induction t with
  | null => exact ⟨by simp [level], hc, trivial⟩
  | node n d c next ihc ihn =>
    obtain ⟨hn, hcs, hnext⟩ := h
    rw [Tree.insert]
    split_ifs with hle
    · refine ⟨?_, hcs, ihn hnext⟩
      intro x hx
      rcases List.mem_cons.mp ((insert_level name is_dir next children).mem_iff.mp hx) with rfl | hx
      · exact hle
      · exact hn x hx
    · have hlt : le name n := (htotal n name).resolve_left hle
      refine ⟨?_, hc, hn, hcs, hnext⟩
      intro x hx
      rcases List.mem_cons.mp hx with rfl | hx
      · exact hlt
      · exact htrans name n x.1 hlt (hn x hx)

theorem Proper.insert {name : α} {is_dir : Bool} {children t : Tree α} (h : t.Proper)
    (hc : children.Proper) (hfile : is_dir = false → children = null)
    (hnew : is_dir = true → (name, true) ∉ t.level) :
    (t.insert le name is_dir children).Proper := by
  induction t with
  | null => exact ⟨hfile, by simp [level], hc, trivial⟩
  | node n d c next ihc ihn =>
    obtain ⟨hf, hsingle, hcs, hnext⟩ := h
    rw [Tree.insert]
    split_ifs
    · refine ⟨hf, ?_, hcs, ihn hnext ?_⟩
      · intro hd hmem
        have hmem := (insert_level name is_dir next children).mem_iff.mp hmem
        rcases List.mem_cons.mp hmem with heq | hmem
        · obtain ⟨rfl, hdir⟩ := Prod.mk.inj heq
          refine hnew hdir.symm ?_
          rw [← hd]
          exact List.mem_cons_self
        · exact hsingle hd hmem
      · intro hdir hmem
        exact hnew hdir (List.mem_cons_of_mem _ hmem)
    · exact ⟨hfile, hnew, hc, hf, hsingle, hcs, hnext⟩

end Insert

/-! ## A directory at the top

Found by name, and replaced by a changed one.
-/

section Find

variable [DecidableEq α]

/-- What is below the first directory with a name. -/
def find (name : α) : Tree α → Option (Tree α)
  | null => none
  | node n d c next => if d = true ∧ n = name then some c else next.find name

/-- Put something else below it. -/
def replace (name : α) : Tree α → Tree α → Tree α
  | null, _ => null
  | node n d c next, new =>
    if d = true ∧ n = name then node n d new next else node n d c (next.replace name new)

theorem find_isSome {name : α} {t : Tree α} :
    (t.find name).isSome = true ↔ (name, true) ∈ t.level := by
  induction t with
  | null => simp [find, level]
  | node n d c next ihc ihn =>
    rw [find, level, List.mem_cons, Prod.mk.injEq]
    split_ifs with h
    · obtain ⟨rfl, rfl⟩ := h
      simp
    · rw [ihn]
      constructor
      · exact Or.inr
      · rintro (⟨rfl, rfl⟩ | hmem)
        · exact absurd ⟨rfl, rfl⟩ h
        · exact hmem

theorem replace_level (name : α) (t new : Tree α) : (t.replace name new).level = t.level := by
  induction t with
  | null => rfl
  | node n d c next ihc ihn =>
    rw [replace]
    split_ifs
    · rfl
    · rw [level, level, ihn]

theorem Sorted.find {le : α → α → Prop} {name : α} {t c : Tree α} (h : t.Sorted le)
    (hfind : t.find name = some c) : c.Sorted le := by
  induction t with
  | null => cases hfind
  | node n d ch next ihc ihn =>
    rw [Tree.find] at hfind
    split_ifs at hfind
    · rw [← Option.some.inj hfind]
      exact h.2.1
    · exact ihn h.2.2 hfind

theorem Proper.find {name : α} {t c : Tree α} (h : t.Proper) (hfind : t.find name = some c) :
    c.Proper := by
  induction t with
  | null => cases hfind
  | node n d ch next ihc ihn =>
    rw [Tree.find] at hfind
    split_ifs at hfind
    · rw [← Option.some.inj hfind]
      exact h.2.2.1
    · exact ihn h.2.2.2 hfind

theorem Sorted.replace {le : α → α → Prop} {name : α} {t new : Tree α} (h : t.Sorted le)
    (hnew : new.Sorted le) : (t.replace name new).Sorted le := by
  induction t with
  | null => trivial
  | node n d c next ihc ihn =>
    rw [Tree.replace]
    split_ifs
    · exact ⟨h.1, hnew, h.2.2⟩
    · refine ⟨?_, h.2.1, ihn h.2.2⟩
      rw [replace_level]
      exact h.1

theorem Proper.replace {name : α} {t new : Tree α} (h : t.Proper) (hnew : new.Proper) :
    (t.replace name new).Proper := by
  induction t with
  | null => trivial
  | node n d c next ihc ihn =>
    obtain ⟨hf, hsingle, hcs, hnext⟩ := h
    rw [Tree.replace]
    split_ifs with hhere
    · refine ⟨?_, hsingle, hnew, hnext⟩
      intro hd
      rw [hhere.1] at hd
      cases hd
    · refine ⟨hf, ?_, hcs, ihn hnext⟩
      rw [replace_level]
      exact hsingle

/-- **Where a directory's part of the tree is.** The rest has nothing below this name. -/
theorem nodes_of_find {name : α} {t c : Tree α} (h : t.Proper) (hfind : t.find name = some c) :
    ∃ others, t.nodes.Perm (c.nodes.map (under name) ++ others) ∧
      (∀ new, (t.replace name new).nodes.Perm (new.nodes.map (under name) ++ others)) ∧
      ∀ p b, (name :: p, b) ∈ others → p = [] := by
  induction t with
  | null => cases hfind
  | node n d ch next ihc ihn =>
    obtain ⟨hf, hsingle, -, hnext⟩ := h
    rw [Tree.find] at hfind
    split_ifs at hfind with hhere
    · obtain ⟨rfl, rfl⟩ := hhere
      obtain rfl := Option.some.inj hfind
      refine ⟨([n], true) :: next.nodes, List.perm_middle.symm, ?_, ?_⟩
      · intro new
        rw [Tree.replace, if_pos ⟨rfl, rfl⟩]
        exact List.perm_middle.symm
      · intro p b hmem
        rcases List.mem_cons.mp hmem with heq | hmem
        · exact (List.cons.inj (Prod.mk.inj heq).1).2
        · by_contra hp
          exact hsingle rfl (hnext.below hmem hp)
    · obtain ⟨others, hnodes, hreplace, hrest⟩ := ihn hnext hfind
      -- this node and what is below it stand in front of both sides
      have hfront : ∀ {a b : List (List α × Bool)}, a.Perm (b ++ others) →
          (([n], d) :: (ch.nodes.map (under n) ++ a)).Perm
            (b ++ (([n], d) :: (ch.nodes.map (under n) ++ others))) := by
        intro a b hab
        exact ((hab.append_left _).cons _).trans
          (List.perm_append_comm_assoc (([n], d) :: ch.nodes.map (under n)) b others)
      refine ⟨_, hfront hnodes, ?_, ?_⟩
      · intro new
        rw [Tree.replace, if_neg hhere]
        exact hfront (hreplace new)
      · intro p b hmem
        rcases List.mem_cons.mp hmem with heq | hmem
        · exact (List.cons.inj (Prod.mk.inj heq).1).2
        rcases List.mem_append.mp hmem with hmem | hmem
        · obtain ⟨⟨q, e⟩, hq, heq⟩ := List.mem_map.mp hmem
          simp only [under, Prod.mk.injEq, List.cons.injEq] at heq
          obtain ⟨⟨rfl, rfl⟩, -⟩ := heq
          cases d with
          | true => exact absurd ⟨rfl, rfl⟩ hhere
          | false =>
            rw [hf rfl] at hq
            cases hq
        · exact hrest p b hmem

end Find

end Tree

/-! ## A new path

What is missing on the way is created, and the rest stays.
-/

/-- The proper prefixes of a path, from the shortest on. -/
def prefixes : List α → List (List α)
  | [] | [_] => []
  | name :: next :: rest => [name] :: (prefixes (next :: rest)).map (name :: ·)

theorem mem_prefixes {p q : List α} :
    q ∈ prefixes p ↔ q ≠ [] ∧ ∃ rest, rest ≠ [] ∧ p = q ++ rest := by
  induction p using prefixes.induct generalizing q with
  | case1 =>
    refine iff_of_false (by simp [prefixes]) ?_
    rintro ⟨hq, rest, -, heq⟩
    exact hq (List.append_eq_nil_iff.mp heq.symm).1
  | case2 name =>
    refine iff_of_false (by simp [prefixes]) ?_
    rintro ⟨hq, rest, hrest, heq⟩
    rcases List.append_eq_singleton_iff.mp heq.symm with ⟨h, -⟩ | ⟨-, h⟩
    · exact hq h
    · exact hrest h
  | case3 name next rest ih =>
    rw [prefixes, List.mem_cons, List.mem_map]
    constructor
    · rintro (rfl | ⟨r, hr, rfl⟩)
      · exact ⟨List.cons_ne_nil _ _, next :: rest, List.cons_ne_nil _ _, rfl⟩
      · obtain ⟨-, tail, htail, heq⟩ := ih.mp hr
        exact ⟨List.cons_ne_nil _ _, tail, htail, by rw [heq]; rfl⟩
    · rintro ⟨hq, tail, htail, heq⟩
      obtain ⟨n, r, rfl⟩ := List.exists_cons_of_ne_nil hq
      rw [List.cons_append, List.cons.injEq] at heq
      obtain ⟨rfl, heq⟩ := heq
      by_cases hr : r = []
      · exact Or.inl (by rw [hr])
      · exact Or.inr ⟨r, ih.mpr ⟨hr, tail, htail, heq⟩, rfl⟩

theorem prefixes_nodup (p : List α) : (prefixes p).Nodup := by
  induction p using prefixes.induct with
  | case1 => exact List.nodup_nil
  | case2 => exact List.nodup_nil
  | case3 name next rest ih =>
    rw [prefixes, List.nodup_cons]
    refine ⟨?_, List.Nodup.map (fun _ _ h => (List.cons.inj h).2) ih⟩
    intro hmem
    obtain ⟨q, hq, heq⟩ := List.mem_map.mp hmem
    exact (mem_prefixes.mp hq).1 (List.cons.inj heq).2

namespace Tree

section InsertPath

variable [DecidableEq α] (le : α → α → Prop) [DecidableRel le]

/-- Insert a path: its last name as a file, under directories that are created where they are
missing. -/
def insertPath : List α → Tree α → Tree α
  | [], t => t
  | [name], t => t.insert le name false null
  | name :: next :: rest, t =>
    match t.find name with
    | some children => t.replace name (insertPath (next :: rest) children)
    | none =>
      (t.insert le name true null).replace name (insertPath (next :: rest) null)

variable {le}

/-- The prefixes of a path that are no directories yet. -/
def missing (p : List α) (t : Tree α) : List (List α) :=
  (prefixes p).filter fun q => (q, true) ∉ t.nodes

/-- What inserting a path does. -/
structure Inserted (le : α → α → Prop) (p : List α) (t t' : Tree α) : Prop where
  sorted : t'.Sorted le
  proper : t'.Proper
  nodes : t'.nodes.Perm ((p, false) :: ((missing p t).map (·, true) ++ t.nodes))

/-- A directory that has just been inserted is found, with nothing below it. -/
theorem find_insert {name : α} {t : Tree α} (h : t.find name = none) :
    (t.insert le name true null).find name = some null := by
  induction t with
  | null => simp [insert, find]
  | node n d c next ihc ihn =>
    rw [find] at h
    split_ifs at h with hhere
    rw [insert]
    split_ifs
    · rw [find, if_neg hhere, ihn h]
    · rw [find, if_pos ⟨rfl, rfl⟩]

/-- Going down into a directory: what is missing below it is missing in the whole. -/
theorem missing_below {name next : α} {rest : List α} {t c : Tree α} (h : t.Proper)
    (hfind : t.find name = some c) :
    missing (name :: next :: rest) t = (missing (next :: rest) c).map (name :: ·) := by
  obtain ⟨others, hnodes, -, hothers⟩ := nodes_of_find h hfind
  have hhere : ([name], true) ∈ t.nodes := by
    rw [← mem_level_iff, ← find_isSome, hfind]
    rfl
  rw [missing, prefixes, List.filter_cons_of_neg (by simpa using hhere), List.filter_map, missing]
  congr 1
  refine List.filter_congr ?_
  intro q hq
  have hne := (mem_prefixes.mp hq).1
  -- below this name there is only what is in its directory
  have hiff : (name :: q, true) ∈ t.nodes ↔ (q, true) ∈ c.nodes := by
    rw [hnodes.mem_iff, List.mem_append]
    constructor
    · rintro (hmem | hmem)
      · obtain ⟨r, hr, heq⟩ := List.mem_map.mp hmem
        have heq : r = (q, true) := under_injective name heq
        rwa [heq] at hr
      · exact absurd (hothers q true hmem) hne
    · intro hmem
      exact Or.inl (List.mem_map.mpr ⟨_, hmem, rfl⟩)
  simp [hiff]

/-- A directory that was missing is missing no more; nothing else changes. -/
theorem missing_insert {name next : α} {rest : List α} {t : Tree α} (h : t.find name = none) :
    missing (name :: next :: rest) t =
      [name] :: missing (name :: next :: rest) (t.insert le name true null) := by
  have hnodes : ∀ q, (q, true) ∈ (t.insert le name true null).nodes ↔
      q = [name] ∨ (q, true) ∈ t.nodes := by
    intro q
    rw [(insert_nodes name true t null).mem_iff]
    simp [nodes]
  have habsent : ([name], true) ∉ t.nodes := by
    rw [← mem_level_iff, ← find_isSome, h]
    simp
  rw [missing, missing, prefixes, List.filter_cons_of_pos (by simpa using habsent),
    List.filter_cons_of_neg (by simp [hnodes])]
  congr 1
  refine List.filter_congr ?_
  intro q hq
  obtain ⟨r, hr, rfl⟩ := List.mem_map.mp hq
  simp [hnodes, (mem_prefixes.mp hr).1]

omit [DecidableRel le] in
/-- What is inserted below a directory is inserted into the whole. -/
theorem Inserted.below {name next : α} {rest : List α} {t c c' : Tree α} (hs : t.Sorted le)
    (hp : t.Proper) (hfind : t.find name = some c) (h : Inserted le (next :: rest) c c') :
    Inserted le (name :: next :: rest) t (t.replace name c') where
  sorted := hs.replace h.sorted
  proper := hp.replace h.proper
  nodes := by
    obtain ⟨others, hnodes, hreplace, -⟩ := nodes_of_find hp hfind
    have hnew := (h.nodes.map (under name)).append_right others
    rw [List.map_cons, List.map_append, List.map_map, List.cons_append, List.append_assoc] at hnew
    rw [missing_below hp hfind, List.map_map]
    exact (hreplace c').trans (hnew.trans ((hnodes.symm.append_left _).cons _))

/-- **Inserting a path** adds it and its missing prefixes, and keeps the order. -/
theorem insertPath_inserted (htotal : ∀ a b, le a b ∨ le b a)
    (htrans : ∀ a b c, le a b → le b c → le a c) {p : List α} (hne : p ≠ []) {t : Tree α}
    (hs : t.Sorted le) (hp : t.Proper) : Inserted le p t (insertPath le p t) := by
  induction p using prefixes.induct generalizing t with
  | case1 => exact absurd rfl hne
  | case2 name =>
    refine ⟨hs.insert htotal htrans trivial, hp.insert trivial (fun _ => rfl) (by simp), ?_⟩
    rw [insertPath]
    simpa [missing, prefixes, nodes] using insert_nodes name false t null
  | case3 name next rest ih =>
    rw [insertPath]
    cases hfind : t.find name with
    | some c =>
      exact .below hs hp hfind (ih (List.cons_ne_nil _ _) (hs.find hfind) (hp.find hfind))
    | none =>
      have habsent : (name, true) ∉ t.level := by
        rw [← find_isSome, hfind]
        simp
      have hs' : (t.insert le name true null).Sorted le := hs.insert htotal htrans trivial
      have hp' : (t.insert le name true null).Proper :=
        hp.insert trivial (by simp) (fun _ => habsent)
      have h := Inserted.below hs' hp' (find_insert hfind)
        (ih (List.cons_ne_nil _ _) trivial trivial)
      refine ⟨h.sorted, h.proper, h.nodes.trans ?_⟩
      have hmissing : missing (name :: next :: rest) t =
          [name] :: missing (name :: next :: rest) (t.insert le name true null) :=
        missing_insert hfind
      have hdir : (t.insert le name true null).nodes.Perm (([name], true) :: t.nodes) :=
        insert_nodes name true t null
      -- the new directory moves from the tree to what was missing
      rw [hmissing, List.map_cons]
      exact ((hdir.append_left _).trans List.perm_middle).cons _

end InsertPath

/-! ## A list of paths

What insertion of all of them makes.
-/

/-- The directories of a tree. -/
def dirs (t : Tree α) : List (List α) := (t.nodes.filter Prod.snd).map Prod.fst

/-- The files of a tree. -/
def files (t : Tree α) : List (List α) := (t.nodes.filter fun x => !x.2).map Prod.fst

theorem mem_dirs {t : Tree α} {q : List α} : q ∈ t.dirs ↔ (q, true) ∈ t.nodes := by
  simp [dirs]

/-- **A tree lists paths**: every one as a file, and every proper prefix of one as a directory. -/
structure Lists (le : α → α → Prop) (paths : List (List α)) (t : Tree α) : Prop where
  sorted : t.Sorted le
  proper : t.Proper
  files : t.files.Perm paths
  dirs_nodup : t.dirs.Nodup
  mem_dirs : ∀ q, q ∈ t.dirs ↔ ∃ p ∈ paths, q ∈ prefixes p

theorem Lists.nil (le : α → α → Prop) : Lists le [] (null : Tree α) where
  sorted := trivial
  proper := trivial
  files := List.Perm.refl _
  dirs_nodup := List.nodup_nil
  mem_dirs := by simp [dirs, nodes]

theorem Lists.perm {le : α → α → Prop} {paths paths' : List (List α)} {t : Tree α}
    (h : Lists le paths t) (hperm : paths.Perm paths') : Lists le paths' t where
  sorted := h.sorted
  proper := h.proper
  files := h.files.trans hperm
  dirs_nodup := h.dirs_nodup
  mem_dirs := by
    intro q
    rw [h.mem_dirs]
    simp only [hperm.mem_iff]

section Lists

variable [DecidableEq α] {le : α → α → Prop} [DecidableRel le]

omit [DecidableRel le] in
/-- What inserting a path does to the directories and the files. -/
theorem Inserted.parts {p : List α} {t t' : Tree α} (h : Inserted le p t t') :
    t'.files.Perm (p :: t.files) ∧ t'.dirs.Perm (missing p t ++ t.dirs) := by
  constructor
  · have hfiles := (h.nodes.filter fun x => !x.2).map Prod.fst
    simpa [files, List.filter_map, Function.comp_def] using hfiles
  · have hdirs := (h.nodes.filter Prod.snd).map Prod.fst
    simpa [dirs, List.filter_map, Function.comp_def] using hdirs

omit [DecidableRel le] in
/-- **One more path.** -/
theorem Lists.insert {p : List α} {paths : List (List α)} {t t' : Tree α} (h : Lists le paths t)
    (hins : Inserted le p t t') : Lists le (p :: paths) t' where
  sorted := hins.sorted
  proper := hins.proper
  files := hins.parts.1.trans (h.files.cons p)
  dirs_nodup := by
    rw [hins.parts.2.nodup_iff, List.nodup_append]
    refine ⟨(prefixes_nodup p).filter _, h.dirs_nodup, ?_⟩
    rintro q hq r hr rfl
    simp only [missing, List.mem_filter, decide_eq_true_eq] at hq
    exact hq.2 (Tree.mem_dirs.mp hr)
  mem_dirs := by
    intro q
    rw [hins.parts.2.mem_iff, List.mem_append, h.mem_dirs, List.exists_mem_cons_iff, missing,
      List.mem_filter, decide_eq_true_eq, ← Tree.mem_dirs, h.mem_dirs]
    tauto

end Lists

/-! ## Trees with the same paths

Are the same up to the order of equal names, so the order of insertion does not matter.
-/

/-- The same tree but for the order of siblings with one name. -/
inductive Same : Tree α → Tree α → Prop where
  | null : Same null null
  | node {name : α} {is_dir : Bool} {c c' t t' : Tree α} (hc : Same c c') (ht : Same t t') :
    Same (node name is_dir c t) (node name is_dir c' t')
  | swap {name : α} {d d' : Bool} {c c' t : Tree α} :
    Same (node name d c (node name d' c' t)) (node name d' c' (node name d c t))
  | trans {a b c : Tree α} (hab : Same a b) (hbc : Same b c) : Same a c

theorem Same.refl (t : Tree α) : Same t t := by
  induction t with
  | null => exact .null
  | node name d c next ihc ihn => exact .node ihc ihn

theorem Same.symm {t t' : Tree α} (h : Same t t') : Same t' t := by
  induction h with
  | null => exact .null
  | node hc ht ihc iht => exact .node ihc iht
  | swap => exact .swap
  | trans hab hbc ihab ihbc => exact .trans ihbc ihab

theorem Same.level {t t' : Tree α} (h : Same t t') : t.level.Perm t'.level := by
  induction h with
  | null => exact List.Perm.refl _
  | node hc ht ihc iht => exact iht.cons _
  | swap => exact List.Perm.swap _ _ _
  | trans hab hbc ihab ihbc => exact ihab.trans ihbc

theorem Same.nodes {t t' : Tree α} (h : Same t t') : t.nodes.Perm t'.nodes := by
  induction h with
  | null => exact List.Perm.refl _
  | node hc ht ihc iht => exact ((ihc.map _).append iht).cons _
  | @swap name d d' c c' t =>
    exact List.perm_append_comm_assoc (([name], d) :: c.nodes.map (under name))
      (([name], d') :: c'.nodes.map (under name)) t.nodes
  | trans hab hbc ihab ihbc => exact ihab.trans ihbc

theorem Same.sorted {le : α → α → Prop} {t t' : Tree α} (h : Same t t') (hs : t.Sorted le) :
    t'.Sorted le := by
  induction h with
  | null => exact hs
  | node hc ht ihc iht =>
    exact ⟨fun x hx => hs.1 x (ht.level.mem_iff.mpr hx), ihc hs.2.1, iht hs.2.2⟩
  | @swap name d d' c c' t =>
    obtain ⟨h1, hc, h2, hc', ht⟩ := hs
    refine ⟨?_, hc', ?_, hc, ht⟩
    · intro x hx
      rcases List.mem_cons.mp hx with rfl | hx
      · exact h1 (name, d') List.mem_cons_self
      · exact h2 x hx
    · exact h2
  | trans hab hbc ihab ihbc => exact ihbc (ihab hs)

theorem Same.proper {t t' : Tree α} (h : Same t t') (hp : t.Proper) : t'.Proper := by
  induction h with
  | null => exact hp
  | @node name d c c' t t' hc ht ihc iht =>
    obtain ⟨hfile, hsingle, hcs, hnext⟩ := hp
    refine ⟨?_, fun hd hmem => hsingle hd (ht.level.mem_iff.mpr hmem), ihc hcs, iht hnext⟩
    intro hd
    have hnodes := hc.nodes
    rw [hfile hd] at hnodes
    cases c' with
    | null => rfl
    | node => exact absurd hnodes.symm.eq_nil (List.cons_ne_nil _ _)
  | @swap name d d' c c' t =>
    obtain ⟨hfile, hsingle, hcs, hfile', hsingle', hcs', hnext⟩ := hp
    refine ⟨hfile', ?_, hcs', hfile, ?_, hcs, hnext⟩
    · intro hd' hmem
      rcases List.mem_cons.mp hmem with heq | hmem
      · -- of two siblings with one name both would be directories
        refine hsingle (Prod.mk.inj heq).2.symm ?_
        rw [hd']
        exact List.mem_cons_self
      · exact hsingle' hd' hmem
    · intro hd hmem
      exact hsingle hd (List.mem_cons_of_mem _ hmem)
  | trans hab hbc ihab ihbc => exact ihbc (ihab hp)

/-- A sibling with the least name can be brought to the front. -/
theorem exists_front {le : α → α → Prop} (hantisymm : ∀ a b, le a b → le b a → a = b) {name : α}
    {d : Bool} {t : Tree α} (hs : t.Sorted le) (hmem : (name, d) ∈ t.level)
    (hleast : ∀ x ∈ t.level, le name x.1) : ∃ c next, Same t (Tree.node name d c next) := by
  induction t with
  | null => cases hmem
  | node n e c next ihc ihn =>
    obtain ⟨hn, -, hnext⟩ := hs
    rcases List.mem_cons.mp hmem with heq | hmem
    · obtain ⟨rfl, rfl⟩ := Prod.mk.inj heq
      exact ⟨c, next, .refl _⟩
    · have heq : n = name :=
        hantisymm _ _ (hn _ hmem) (hleast (n, e) List.mem_cons_self)
      subst heq
      obtain ⟨c', next', hsame⟩ := ihn hnext hmem
        fun x hx => hleast x (List.mem_cons_of_mem _ hx)
      exact ⟨c', .node n e c next', .trans (.node (.refl c) hsame) .swap⟩

open Classical in
/-- What is below a directory, told from what is below its siblings. -/
theorem filter_below {name : α} {c next : Tree α} (hp : next.Proper)
    (hsingle : (name, true) ∉ next.level) :
    (c.nodes.map (under name) ++ next.nodes).filter
        (fun x => x.1.head? = some name ∧ x.1.tail ≠ []) = c.nodes.map (under name) := by
  rw [List.filter_append, List.filter_eq_self.mpr, List.filter_eq_nil_iff.mpr, List.append_nil]
  · rintro ⟨p, b⟩ hmem hbelow
    simp only [decide_eq_true_eq] at hbelow
    obtain ⟨rest, rfl⟩ := List.head?_eq_some_iff.mp hbelow.1
    exact hsingle (hp.below hmem hbelow.2)
  · intro x hx
    obtain ⟨⟨q, b⟩, hq, rfl⟩ := List.mem_map.mp hx
    simpa [under] using path_ne_nil hq

/-- **The paths make the tree**: of two sorted trees with the same paths one is the other up to
the order of siblings with one name. -/
theorem same_of_nodes {le : α → α → Prop} (htotal : ∀ a b, le a b ∨ le b a)
    (hantisymm : ∀ a b, le a b → le b a → a = b) {t t' : Tree α} (hs : t.Sorted le)
    (hp : t.Proper) (hs' : t'.Sorted le) (hp' : t'.Proper) (h : t.nodes.Perm t'.nodes) :
    Same t t' := by
  induction t generalizing t' with
  | null =>
    cases t' with
    | null => exact .null
    | node => exact absurd h.symm.eq_nil (List.cons_ne_nil _ _)
  | node name d c next ihc ihn =>
    have hlevel : ∀ x, x ∈ (Tree.node name d c next).level ↔ x ∈ t'.level := by
      rintro ⟨n, b⟩
      rw [mem_level_iff, mem_level_iff, h.mem_iff]
    have hleast : ∀ x ∈ t'.level, le name x.1 := by
      intro x hx
      rcases List.mem_cons.mp ((hlevel x).mpr hx) with rfl | hx
      · exact (htotal name name).elim id id
      · exact hs.1 x hx
    obtain ⟨c', next', hsame⟩ := exists_front hantisymm hs'
      ((hlevel (name, d)).mp List.mem_cons_self) hleast
    obtain ⟨-, hcs, hnexts⟩ := hs
    obtain ⟨-, hcs', hnexts'⟩ := hsame.sorted hs'
    obtain ⟨hfile, hsingle, hcp, hnextp⟩ := hp
    obtain ⟨hfile', hsingle', hcp', hnextp'⟩ := hsame.proper hp'
    have hperm : (c.nodes.map (under name) ++ next.nodes).Perm
        (c'.nodes.map (under name) ++ next'.nodes) := (h.trans hsame.nodes).cons_inv
    have hc : c.nodes.Perm c'.nodes := by
      cases d with
      | false => rw [hfile rfl, hfile' rfl]
      | true =>
        classical
        have hbelow := hperm.filter fun x => x.1.head? = some name ∧ x.1.tail ≠ []
        rw [filter_below hnextp (hsingle rfl), filter_below hnextp' (hsingle' rfl)] at hbelow
        exact (List.map_perm_map_iff (under_injective name)).mp hbelow
    have hnext : next.nodes.Perm next'.nodes := by
      have hmap := (hc.map (under name)).append_right next'.nodes
      exact (List.perm_append_left_iff _).mp (hperm.trans hmap.symm)
    exact .trans (.node (ihc hcs hcp hcs' hcp' hc) (ihn hnexts hnextp hnexts' hnextp' hnext))
      hsame.symm

/-- The nodes of a tree are its files and its directories. -/
theorem nodes_perm (t : Tree α) :
    t.nodes.Perm (t.dirs.map (·, true) ++ t.files.map (·, false)) := by
  have hdirs : t.dirs.map (·, true) = t.nodes.filter Prod.snd := by
    rw [dirs, List.map_map]
    refine (List.map_congr_left ?_).trans (List.map_id _)
    rintro ⟨p, b⟩ hmem
    have hb : b = true := (List.mem_filter.mp hmem).2
    simp [hb]
  have hfiles : t.files.map (·, false) = t.nodes.filter fun x => !x.2 := by
    rw [files, List.map_map]
    refine (List.map_congr_left ?_).trans (List.map_id _)
    rintro ⟨p, b⟩ hmem
    have hb : b = false := by simpa using (List.mem_filter.mp hmem).2
    simp [hb]
  rw [hdirs, hfiles]
  exact (List.filter_append_perm Prod.snd t.nodes).symm

/-- **The order of the paths does not matter.** -/
theorem Lists.same {le : α → α → Prop} (htotal : ∀ a b, le a b ∨ le b a)
    (hantisymm : ∀ a b, le a b → le b a → a = b) {paths paths' : List (List α)} {t t' : Tree α}
    (h : Lists le paths t) (h' : Lists le paths' t') (hperm : paths.Perm paths') : Same t t' := by
  have hdirs : t.dirs.Perm t'.dirs := by
    rw [List.perm_ext_iff_of_nodup h.dirs_nodup h'.dirs_nodup]
    intro q
    rw [h.mem_dirs, h'.mem_dirs]
    simp only [hperm.mem_iff]
  have hfiles : t.files.Perm t'.files := h.files.trans (hperm.trans h'.files.symm)
  refine same_of_nodes htotal hantisymm h.sorted h.proper h'.sorted h'.proper ?_
  exact t.nodes_perm.trans (((hdirs.map _).append (hfiles.map _)).trans t'.nodes_perm.symm)

/-- A tree has as many directories as its paths have proper prefixes. -/
theorem Lists.dirs_length [DecidableEq α] {le : α → α → Prop} {paths : List (List α)} {t : Tree α}
    (h : Lists le paths t) : t.dirs.length = (paths.flatMap prefixes).dedup.length := by
  refine List.Perm.length_eq ?_
  rw [List.perm_ext_iff_of_nodup h.dirs_nodup (List.nodup_dedup _)]
  intro q
  rw [h.mem_dirs, List.mem_dedup, List.mem_flatMap]

end Tree

end PathTree
