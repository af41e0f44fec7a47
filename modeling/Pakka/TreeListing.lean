/-
The tree `pakka --list --tree` prints.

Every entry name is cut into components at its slashes and walked down from the root; directories
are created on the way where they are missing, and counted, and the last component becomes a file.
Sibling lists are kept sorted by `strcmp`. A file may have the name of a directory, and names may
repeat.

The walk is path insertion as `PathTree` has it, so what the tree contains is known from the names
alone, whatever their order: each name as a file and each proper prefix once as a directory.
-/
import Pakka.Basic
import Pakka.Lib.PathTree
import Pakka.Lib.Split

set_option autoImplicit false

namespace Pakka

open ByteImage PathTree

/-! ## Source

The nodes and the functions as the source has them.
-/

abbrev PAK_TREE_MAX_DEPTH : ℕ := 100

/-- `strcmp`, by its sign: the first bytes that differ decide, as unsigned numbers. -/
def strcmp : Bytes → Bytes → ℤ
  | [], [] => 0
  | [], _ :: _ => -1
  | _ :: _, [] => 1
  | a :: as, b :: bs => if a = b then strcmp as bs else if a < b then -1 else 1

/-- `treenode_t`, or no node. A function on the children of a node takes and returns their list,
by its first node. -/
abbrev treenode_t := PathTree.Tree Bytes

/-- `create_tree_node`, with a sibling behind it. -/
def create_tree_node (name : Bytes) (is_dir : Bool) (next : treenode_t) : treenode_t :=
  .node name is_dir .null next

/-- `find_tree_dir`: what is below the directory that is found. -/
def find_tree_dir : treenode_t → Bytes → Option treenode_t
  | .null, _ => none
  | .node current is_dir children next, name =>
    if is_dir = true ∧ strcmp current name = 0 then some children else find_tree_dir next name

/-- Write back what is below the directory that `find_tree_dir` finds. -/
def set_tree_dir : treenode_t → Bytes → treenode_t → treenode_t
  | .null, _, _ => .null
  | .node current is_dir children next, name, new =>
    if is_dir = true ∧ strcmp current name = 0 then .node current is_dir new next
    else .node current is_dir children (set_tree_dir next name new)

/-- `insert_tree_child` of a node that has just been created. -/
def insert_tree_child : treenode_t → Bytes → Bool → treenode_t
  | .null, name, is_dir => create_tree_node name is_dir .null
  | .node current d children next, name, is_dir =>
    if strcmp current name ≤ 0 then .node current d children (insert_tree_child next name is_dir)
    else create_tree_node name is_dir (.node current d children next)

/-- Behind the slashes in front there is none. -/
theorem ne_slash_of_dropWhile {path rest : Bytes} {c : UInt8}
    (h : path.dropWhile (· = 0x2F) = c :: rest) : c ≠ 0x2F := by
  intro hslash
  have hhead := List.head?_dropWhile_not (fun x : UInt8 => decide (x = 0x2F)) path
  rw [h] at hhead
  simp [hslash] at hhead

/-- What `strtok` cuts a path into at its slashes. -/
def strtok_slash (path : Bytes) : List Bytes :=
  match _ : path.dropWhile (· = 0x2F) with
  | [] => []
  | c :: rest =>
    (c :: rest).takeWhile (· ≠ 0x2F) :: strtok_slash ((c :: rest).dropWhile (· ≠ 0x2F))
  termination_by path.length
  decreasing_by
    rename_i h
    have hc := ne_slash_of_dropWhile h
    have hle := (List.dropWhile_sublist (fun x : UInt8 => decide (x = 0x2F))
      (l := path)).length_le
    have hdrop := (List.dropWhile_sublist (fun x : UInt8 => decide (x ≠ 0x2F))
      (l := rest)).length_le
    rw [h, List.length_cons] at hle
    rw [List.dropWhile_cons_of_pos (by simpa using hc)]
    omega

/-- The loop of `insert_tree_path`, from a component on, below the node it has come to. -/
def insert_tree_loop :
    List Bytes → ℕ → treenode_t → UInt32 → UInt32 → Option (treenode_t × UInt32 × UInt32)
  | [], _, parent, dir_count, file_count => some (parent, dir_count, file_count)
  | [component], depth, parent, dir_count, file_count =>
    if depth ≥ PAK_TREE_MAX_DEPTH then none
    else some (insert_tree_child parent component false, dir_count, file_count + 1)
  | component :: next :: rest, depth, parent, dir_count, file_count =>
    if depth ≥ PAK_TREE_MAX_DEPTH then none
    else
      match find_tree_dir parent component with
      | some dir => do
        let (dir, dir_count, file_count) ←
          insert_tree_loop (next :: rest) (depth + 1) dir dir_count file_count
        some (set_tree_dir parent component dir, dir_count, file_count)
      | none => do
        -- `dir` is the new node, with nothing below it
        let parent := insert_tree_child parent component true
        let (dir, dir_count, file_count) ←
          insert_tree_loop (next :: rest) (depth + 1) .null (dir_count + 1) file_count
        some (set_tree_dir parent component dir, dir_count, file_count)

/-- `insert_tree_path` below the root; `none` where it gives up. -/
def insert_tree_path (root : treenode_t) (path : CStr) (dir_count file_count : UInt32) :
    Option (treenode_t × UInt32 × UInt32) :=
  if path.bytes = [] then some (root, dir_count, file_count)
  else insert_tree_loop (strtok_slash path.bytes) 0 root dir_count file_count

/-- The loop of `op_list_tree` over the entries. -/
def insert_tree_paths (names : List CStr) (root : treenode_t) (dir_count file_count : UInt32) :
    Option (treenode_t × UInt32 × UInt32) :=
  match names with
  | [] => some (root, dir_count, file_count)
  | name :: names => do
    let (root, dir_count, file_count) ← insert_tree_path root name dir_count file_count
    insert_tree_paths names root dir_count file_count

/-- `op_list_tree`, less the printing: what is below the root, and the totals. -/
def op_list_tree (pak : Archive) : Option (treenode_t × UInt32 × UInt32) :=
  insert_tree_paths (pak.entries.map (·.filename)) .null 0 0

/-! ## The order of names

`strcmp` as an order.
-/

/-- A name does not come after another. -/
def NotAfter (a b : Bytes) : Prop := strcmp a b ≤ 0

instance : DecidableRel NotAfter := fun a b => inferInstanceAs (Decidable (strcmp a b ≤ 0))

theorem strcmp_eq_zero {a b : Bytes} : strcmp a b = 0 ↔ a = b := by
  induction a generalizing b with
  | nil => cases b <;> simp [strcmp]
  | cons x as ih =>
    cases b with
    | nil => simp [strcmp]
    | cons y bs =>
      rw [strcmp, List.cons.injEq]
      split_ifs with h1 h2
      · rw [ih, and_iff_right h1]
      · simp [h1]
      · simp [h1]

theorem notAfter_cons {a b : UInt8} {as bs : Bytes} :
    NotAfter (a :: as) (b :: bs) ↔ a < b ∨ a = b ∧ NotAfter as bs := by
  unfold NotAfter
  rw [strcmp]
  split_ifs with h1 h2
  · subst h1
    simp
  · simp [h1, h2]
  · simp [h1, h2]

theorem notAfter_total (a b : Bytes) : NotAfter a b ∨ NotAfter b a := by
  induction a generalizing b with
  | nil => cases b <;> simp [NotAfter, strcmp]
  | cons x as ih =>
    cases b with
    | nil => simp [NotAfter, strcmp]
    | cons y bs =>
      rw [notAfter_cons, notAfter_cons]
      rcases Nat.lt_trichotomy x.toNat y.toNat with h | h | h
      · exact Or.inl (Or.inl (UInt8.lt_iff_toNat_lt.mpr h))
      · have hxy := UInt8.toNat_inj.mp h
        exact (ih bs).imp (fun h => Or.inr ⟨hxy, h⟩) fun h => Or.inr ⟨hxy.symm, h⟩
      · exact Or.inr (Or.inl (UInt8.lt_iff_toNat_lt.mpr h))

theorem notAfter_antisymm (a b : Bytes) (hab : NotAfter a b) (hba : NotAfter b a) : a = b := by
  induction a generalizing b with
  | nil =>
    cases b with
    | nil => rfl
    | cons y bs => simp [NotAfter, strcmp] at hba
  | cons x as ih =>
    cases b with
    | nil => simp [NotAfter, strcmp] at hab
    | cons y bs =>
      rw [notAfter_cons] at hab hba
      rcases hab with hlt | ⟨rfl, hab⟩
      · rcases hba with hgt | ⟨heq, -⟩
        · exact absurd (UInt8.lt_trans hlt hgt) (UInt8.lt_irrefl _)
        · rw [heq] at hlt
          exact absurd hlt (UInt8.lt_irrefl _)
      · rcases hba with hlt | ⟨-, hba⟩
        · exact absurd hlt (UInt8.lt_irrefl _)
        · rw [ih bs hab hba]

theorem notAfter_trans (a b c : Bytes) (hab : NotAfter a b) (hbc : NotAfter b c) :
    NotAfter a c := by
  induction a generalizing b c with
  | nil => cases c <;> simp [NotAfter, strcmp]
  | cons x as ih =>
    cases b with
    | nil => simp [NotAfter, strcmp] at hab
    | cons y bs =>
      cases c with
      | nil => simp [NotAfter, strcmp] at hbc
      | cons z cs =>
        rw [notAfter_cons] at hab hbc ⊢
        rcases hab with hxy | ⟨rfl, hab⟩
        · rcases hbc with hyz | ⟨rfl, -⟩
          · exact Or.inl (UInt8.lt_trans hxy hyz)
          · exact Or.inl hxy
        · exact hbc.imp_right fun h => ⟨h.1, ih bs cs hab h.2⟩

/-! ## Path insertion

Each function is the one of the library, for this order.
-/

theorem find_tree_dir_eq (t : treenode_t) (name : Bytes) : find_tree_dir t name = t.find name := by
  induction t with
  | null => rfl
  | node current d children next ihc ihn =>
    simp only [find_tree_dir, Tree.find, strcmp_eq_zero, ihn]

theorem set_tree_dir_eq (t : treenode_t) (name : Bytes) (new : treenode_t) :
    set_tree_dir t name new = t.replace name new := by
  induction t with
  | null => rfl
  | node current d children next ihc ihn =>
    simp only [set_tree_dir, Tree.replace, strcmp_eq_zero, ihn]

theorem insert_tree_child_eq (t : treenode_t) (name : Bytes) (is_dir : Bool) :
    insert_tree_child t name is_dir = t.insert NotAfter name is_dir .null := by
  induction t with
  | null => rfl
  | node current d children next ihc ihn =>
    simp only [insert_tree_child, Tree.insert, ihn]
    rfl

/-- **The loop inserts the path** and counts what it creates. It gives up where there are more
directories than the limit. -/
theorem insert_tree_loop_eq {components : List Bytes} (hne : components ≠ []) {depth : ℕ}
    (hdepth : depth + components.length ≤ PAK_TREE_MAX_DEPTH) {t : treenode_t} (ht : t.Proper)
    (dir_count file_count : UInt32) :
    insert_tree_loop components depth t dir_count file_count =
      some (Tree.insertPath NotAfter components t,
        dir_count + UInt32.ofNat (Tree.missing components t).length, file_count + 1) := by
  induction components using prefixes.induct generalizing depth t dir_count with
  | case1 => exact absurd rfl hne
  | case2 name =>
    rw [List.length_singleton] at hdepth
    rw [insert_tree_loop, if_neg (by omega), insert_tree_child_eq, Tree.insertPath]
    simp [Tree.missing, prefixes]
  | case3 name next rest ih =>
    rw [List.length_cons] at hdepth
    rw [insert_tree_loop, if_neg (by omega), find_tree_dir_eq, Tree.insertPath]
    cases hfind : t.find name with
    | some c =>
      simp only
      rw [ih (List.cons_ne_nil _ _) (by omega) (ht.find hfind), Tree.missing_below ht hfind,
        List.length_map]
      simp only [set_tree_dir_eq, Option.bind_eq_bind, Option.bind_some]
    | none =>
      have habsent : (name, true) ∉ t.level := by
        rw [← Tree.find_isSome, hfind]
        simp
      have hnew : (t.insert NotAfter name true .null).Proper :=
        ht.insert trivial (by simp) (fun _ => habsent)
      have hmissing : Tree.missing (name :: next :: rest) t =
          [name] :: Tree.missing (name :: next :: rest) (t.insert NotAfter name true .null) :=
        Tree.missing_insert hfind
      rw [Tree.missing_below hnew (Tree.find_insert hfind)] at hmissing
      simp only
      rw [ih (List.cons_ne_nil _ _) (t := .null) (by omega) trivial, hmissing, List.length_cons,
        List.length_map]
      simp only [set_tree_dir_eq, insert_tree_child_eq, Option.bind_eq_bind, Option.bind_some]
      rw [UInt32.ofNat_add, UInt32.add_assoc, UInt32.add_comm 1]
      rfl

/-! ## Components

`strtok` skips empty components, so a path is the list of the others.
-/

/-- The non-empty pieces between slashes. -/
def path_components (path : Bytes) : List Bytes :=
  (path.splitOnP (· = 0x2F)).filter (· ≠ [])

/-- A slash in front changes nothing. -/
theorem path_components_slash (rest : Bytes) :
    path_components (0x2F :: rest) = path_components rest := by
  have hsplit : (0x2F :: rest : Bytes).splitOnP (· = 0x2F) =
      [] :: rest.splitOnP (· = 0x2F) :=
    @List.splitOnP_append_cons_of_forall_mem _ (fun c : UInt8 => decide (c = 0x2F)) []
      (by simp) 0x2F (by simp) rest
  rw [path_components, hsplit, List.filter_cons_of_neg (by simp)]
  rfl

theorem path_components_dropWhile (path : Bytes) :
    path_components (path.dropWhile (· = 0x2F)) = path_components path := by
  induction path with
  | nil => rfl
  | cons c rest ih =>
    by_cases hc : c = 0x2F
    · rw [List.dropWhile_cons_of_pos (by simpa using hc), ih, hc, path_components_slash]
    · rw [List.dropWhile_cons_of_neg (by simpa using hc)]

/-- The first component, up to the next slash. -/
theorem path_components_cons {c : UInt8} (hc : c ≠ 0x2F) (rest : Bytes) :
    path_components (c :: rest) = (c :: rest).takeWhile (· ≠ 0x2F) ::
      path_components ((c :: rest).dropWhile (· ≠ 0x2F)) := by
  have hsplit := List.takeWhile_append_dropWhile (p := fun x : UInt8 => decide (x ≠ 0x2F))
    (l := c :: rest)
  have hseg : ∀ x ∈ (c :: rest).takeWhile (· ≠ 0x2F), decide (x = 0x2F) = false := by
    intro x hx
    simpa using List.mem_takeWhile_imp hx
  have hne : (c :: rest).takeWhile (· ≠ 0x2F) ≠ [] := by
    rw [List.takeWhile_cons_of_pos (by simpa using hc)]
    exact List.cons_ne_nil _ _
  have hnext : ∀ x, ((c :: rest).dropWhile (· ≠ 0x2F)).head? = some x → x = 0x2F := by
    intro x hx
    have := List.head?_dropWhile_not (fun x : UInt8 => decide (x ≠ 0x2F)) (c :: rest)
    rw [hx] at this
    simpa using this
  conv_lhs => rw [path_components, ← hsplit]
  revert hseg hne hnext
  generalize (c :: rest).takeWhile (· ≠ 0x2F) = seg, (c :: rest).dropWhile (· ≠ 0x2F) = after
  intro hseg hne hnext
  cases after with
  | nil =>
    rw [List.append_nil, List.splitOnP_eq_singleton hseg,
      List.filter_cons_of_pos (by simpa using hne)]
    rfl
  | cons x after =>
    have hx := hnext x rfl
    subst hx
    rw [List.splitOnP_append_cons_of_forall_mem hseg _ (by simp),
      List.filter_cons_of_pos (by simpa using hne), path_components_slash]
    rfl

/-- **`strtok` gives the components.** -/
theorem strtok_slash_eq (path : Bytes) : strtok_slash path = path_components path := by
  induction path using strtok_slash.induct with
  | case1 path h =>
    rw [strtok_slash, ← path_components_dropWhile]
    split
    · rename_i h'
      rw [h']
      rfl
    · rename_i h'
      rw [h] at h'
      cases h'
  | case2 path c rest h ih =>
    have hc := ne_slash_of_dropWhile h
    rw [strtok_slash, ← path_components_dropWhile path]
    split
    · rename_i h'
      rw [h] at h'
      cases h'
    · rename_i h'
      rw [h] at h'
      obtain ⟨rfl, rfl⟩ := List.cons.inj h'
      rw [h, ih, path_components_cons hc]

/-- A name without components is made of slashes. -/
theorem path_components_ne_nil {path : Bytes} (h : ∃ c ∈ path, c ≠ 0x2F) :
    path_components path ≠ [] := by
  obtain ⟨c, hmem, hc⟩ := h
  rw [← path_components_dropWhile]
  cases hdrop : path.dropWhile (· = 0x2F) with
  | nil =>
    have hall := List.dropWhile_eq_nil_iff.mp hdrop c hmem
    exact absurd (by simpa using hall) hc
  | cons x rest =>
    rw [path_components_cons (ne_slash_of_dropWhile hdrop)]
    exact List.cons_ne_nil _ _

/-! ## The listing

Files, directories and the counts, for any list of names short enough in depth.
-/

/-- A name the listing takes: not of slashes only, and not too deep. -/
structure Listable (name : CStr) : Prop where
  some_byte : ∃ c ∈ name.bytes, c ≠ 0x2F
  shallow : (prefixes (path_components name.bytes)).length < PAK_TREE_MAX_DEPTH

theorem prefixes_length {α : Type*} (p : List α) : (prefixes p).length = p.length - 1 := by
  induction p using prefixes.induct with
  | case1 => rfl
  | case2 => rfl
  | case3 name next rest ih =>
    rw [prefixes, List.length_cons, List.length_map, ih, List.length_cons, List.length_cons]
    rfl

/-- The trees the listing builds. -/
abbrev ListsNames (names : List CStr) (t : treenode_t) : Prop :=
  Tree.Lists NotAfter (names.map fun name => path_components name.bytes) t

/-- **One more name**: the path is inserted, and the totals stay those of the tree. -/
theorem insert_tree_path_lists {name : CStr} (hname : Listable name) {names : List CStr}
    {t : treenode_t} (h : ListsNames names t) :
    ∃ t', ListsNames (name :: names) t' ∧
      insert_tree_path t name (UInt32.ofNat t.dirs.length) (UInt32.ofNat names.length) =
        some (t', UInt32.ofNat t'.dirs.length, UInt32.ofNat (name :: names).length) := by
  have hcomponents := path_components_ne_nil hname.some_byte
  have hdepth : 0 + (path_components name.bytes).length ≤ PAK_TREE_MAX_DEPTH := by
    have := hname.shallow
    rw [prefixes_length] at this
    omega
  have hne : name.bytes ≠ [] := by
    obtain ⟨c, hc, -⟩ := hname.some_byte
    exact List.ne_nil_of_mem hc
  have hins := Tree.insertPath_inserted notAfter_total notAfter_trans hcomponents h.sorted h.proper
  refine ⟨_, h.insert hins, ?_⟩
  rw [insert_tree_path, if_neg hne, strtok_slash_eq,
    insert_tree_loop_eq hcomponents hdepth h.proper, hins.parts.2.length_eq, List.length_append,
    List.length_cons, UInt32.ofNat_add, UInt32.ofNat_add, UInt32.add_comm (UInt32.ofNat _)]
  rfl

/-- **All names**, on top of those that are listed already. -/
theorem insert_tree_paths_lists {names : List CStr} (hnames : ∀ name ∈ names, Listable name)
    {listed : List CStr} {t : treenode_t} (h : ListsNames listed t) :
    ∃ t', ListsNames (names.reverse ++ listed) t' ∧
      insert_tree_paths names t (UInt32.ofNat t.dirs.length) (UInt32.ofNat listed.length) =
        some (t', UInt32.ofNat t'.dirs.length, UInt32.ofNat (names.length + listed.length)) := by
  induction names generalizing listed t with
  | nil =>
    refine ⟨t, h, ?_⟩
    rw [insert_tree_paths, List.length_nil, Nat.zero_add]
  | cons name names ih =>
    rw [List.forall_mem_cons] at hnames
    obtain ⟨t₁, h₁, hstep⟩ := insert_tree_path_lists hnames.1 h
    obtain ⟨t', h', hrest⟩ := ih hnames.2 h₁
    refine ⟨t', ?_, ?_⟩
    · rw [List.reverse_cons, List.append_assoc]
      exact h'
    · rw [insert_tree_paths, hstep, Option.bind_eq_bind, Option.bind_some]
      simp only
      rw [hrest, List.length_cons, List.length_cons, Nat.add_right_comm, Nat.add_assoc]

/-- What `op_list_tree` builds and reports. -/
theorem op_list_tree_lists (pak : Archive)
    (hnames : ∀ name ∈ pak.entries.map (·.filename), Listable name) :
    ∃ t, ListsNames (pak.entries.map (·.filename)) t ∧
      op_list_tree pak =
        some (t, UInt32.ofNat t.dirs.length, UInt32.ofNat pak.entries.length) := by
  have hnil : ListsNames [] .null := Tree.Lists.nil NotAfter
  obtain ⟨t, ht, hrun⟩ := insert_tree_paths_lists hnames hnil
  refine ⟨t, ht.perm ?_, ?_⟩
  · rw [List.append_nil]
    exact (List.reverse_perm _).map _
  · rw [List.length_map, List.length_nil, Nat.add_zero] at hrun
    exact hrun

/-- The names of an archive that a loader accepts have too few prefixes for a counter to wrap. -/
theorem prefixes_count_lt {names : List CStr} (hnames : ∀ name ∈ names, Listable name)
    (hmax : names.length ≤ PAKFILE_MAX_ENTRIES) :
    (names.flatMap fun name => prefixes (path_components name.bytes)).dedup.length < 2 ^ 32 := by
  have hsum : ∀ l : List CStr, (∀ name ∈ l, Listable name) →
      (l.flatMap fun name => prefixes (path_components name.bytes)).length ≤
        100 * l.length := by
    intro l hl
    induction l with
    | nil => simp
    | cons name l ih =>
      rw [List.forall_mem_cons] at hl
      have hrest := ih hl.2
      have hfirst : _ < 100 := hl.1.shallow
      rw [List.flatMap_cons, List.length_append, List.length_cons]
      omega
  have hall := hsum names hnames
  have hdedup := (List.dedup_sublist
    (names.flatMap fun name => prefixes (path_components name.bytes))).length_le
  have hentries : PAKFILE_MAX_ENTRIES = 1048576 := rfl
  omega

/-- **The tree listing is complete and ordered.** Each entry is a file at its path, each proper
prefix is one directory, siblings are sorted, the totals are those numbers, and the order of the
entries shows only among siblings with one name. -/
theorem tree_listing_complete (pak : Archive)
    (hnames : ∀ name ∈ pak.entries.map (·.filename), Listable name) :
    ∃ t dir_count file_count, op_list_tree pak = some (t, dir_count, file_count) ∧
      t.files.Perm (pak.entries.map fun e => path_components e.filename.bytes) ∧
      t.dirs.Nodup ∧
      (∀ q, q ∈ t.dirs ↔ q ≠ [] ∧ ∃ e ∈ pak.entries, ∃ rest, rest ≠ [] ∧
        path_components e.filename.bytes = q ++ rest) ∧
      t.Proper ∧ t.Sorted NotAfter ∧
      dir_count = UInt32.ofNat t.dirs.length ∧ file_count = UInt32.ofNat pak.entries.length ∧
      (pak.entries.length ≤ PAKFILE_MAX_ENTRIES →
        dir_count.toNat = (pak.entries.flatMap fun e =>
          prefixes (path_components e.filename.bytes)).dedup.length ∧
        file_count.toNat = pak.entries.length) ∧
      ∀ pak' : Archive, (pak'.entries.map (·.filename)).Perm (pak.entries.map (·.filename)) →
        ∃ t', op_list_tree pak' = some (t', dir_count, file_count) ∧ Tree.Same t t' := by
  obtain ⟨t, ht, hrun⟩ := op_list_tree_lists pak hnames
  refine ⟨t, _, _, hrun, ?_, ht.dirs_nodup, ?_, ht.proper, ht.sorted, rfl, rfl, ?_, ?_⟩
  · simpa [Function.comp_def] using ht.files
  · intro q
    rw [ht.mem_dirs]
    simp only [List.map_map, List.mem_map, Function.comp_apply, exists_exists_and_eq_and,
      mem_prefixes]
    constructor
    · rintro ⟨e, he, hq, hrest⟩
      exact ⟨hq, e, he, hrest⟩
    · rintro ⟨hq, e, he, hrest⟩
      exact ⟨e, he, hq, hrest⟩
  · intro hmax
    have hlength := ht.dirs_length
    have hlt := prefixes_count_lt hnames (by rw [List.length_map]; exact hmax)
    rw [List.flatMap_map] at hlt
    rw [List.map_map, List.flatMap_map] at hlength
    rw [UInt32.toNat_ofNat_of_lt' (by rw [hlength]; exact hlt), hlength,
      UInt32.toNat_ofNat_of_lt' (Nat.lt_of_le_of_lt hmax (by decide))]
    exact ⟨rfl, rfl⟩
  -- names in another order give the same paths
  · intro pak' hperm
    obtain ⟨t', ht', hrun'⟩ := op_list_tree_lists pak'
      fun name hmem => hnames name (hperm.mem_iff.mp hmem)
    have hpaths := (hperm.map fun name => path_components name.bytes).symm
    have hsame := ht.same notAfter_total notAfter_antisymm ht' hpaths
    refine ⟨t', ?_, hsame⟩
    have hlen : pak'.entries.length = pak.entries.length := by
      simpa using hperm.length_eq
    have hdirs : t'.dirs.length = t.dirs.length := by
      rw [ht.dirs_length, ht'.dirs_length]
      exact List.Perm.length_eq (hpaths.flatMap_right _).dedup.symm
    rw [hrun', hlen, hdirs]

/-- Two files in one directory, and a file with the name of that directory. -/
def tree_sample : Archive :=
  { entries := [{ filename := ⟨[0x6D, 0x2F, 0x61], by decide⟩ },
      { filename := ⟨[0x6D], by decide⟩ },
      { filename := ⟨[0x2F, 0x6D, 0x2F, 0x2F, 0x62], by decide⟩ }] }

theorem tree_listing_complete_sample :
    ∃ t, op_list_tree tree_sample = some (t, 1, 3) ∧ t.Sorted NotAfter := by
  have hnames : ∀ name ∈ tree_sample.entries.map (·.filename), Listable name := by
    simp only [tree_sample, List.map_cons, List.map_nil, List.forall_mem_cons]
    exact ⟨⟨by decide, by decide +kernel⟩, ⟨by decide, by decide +kernel⟩,
      ⟨by decide, by decide +kernel⟩, by simp⟩
  obtain ⟨t, d, f, hrun, -, -, -, -, hsorted, -, -, hmax, -⟩ :=
    tree_listing_complete tree_sample hnames
  obtain ⟨hd, hf⟩ := hmax (by decide)
  have hd : d = 1 := UInt32.toNat_inj.mp (hd.trans (by decide +kernel))
  have hf : f = 3 := UInt32.toNat_inj.mp (hf.trans (by decide +kernel))
  rw [hd, hf] at hrun
  exact ⟨t, hrun, hsorted⟩

end Pakka
