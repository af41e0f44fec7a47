/-
Extraction is confined to its destination.

The walk of `pakka_platform_open_extract_target` goes down one component at a time. What a safe name
calls a component, the system reads as a plain name; so each step stays where it is put, a planted
link ends the walk, and what changes lies on the way from the destination to the target.

The tree is arbitrary, with symbolic links anywhere in it. That is what an attacker who writes to
the destination first, or an earlier entry of the same archive, can have put there.

What the walk does to the tree is recorded as `Walked`, a relation between the tree before, the tree
after and the location that was reached, which is composed component by component. Failures are
arbitrary: the schedule says of every system call whether it fails, and the statement holds of all
schedules.
-/
import Pakka.Extract

set_option autoImplicit false

namespace Pakka

open ByteImage FileTree

/-! ## Components of a safe name

No component is empty, `.` or `..`, and none holds a slash.
-/

/-- The system reads a safe component as a name. -/
theorem path_comp_safe {seg : Bytes} (h : is_unsafe_segment seg = false) :
    seg ≠ [] ∧ path_comp seg = .name seg := by
  refine ⟨(safe_segment_bytes h).1, ?_⟩
  unfold path_comp
  rw [if_neg, if_neg]
  · rintro rfl
    exact absurd h (by decide)
  · rintro rfl
    exact absurd h (by decide)

/-! ## One directory down

An open without following links, a directory made and opened again. Each of the attempts may also
fail for a reason of its own.
-/

theorem attempt_ok {α : Type} {σ : Schedule ExtractSite} {site : ExtractSite}
    {x : Except Errno α} {a : α} (h : attempt σ site x = .ok a) : x = .ok a := by
  unfold attempt at h
  split_ifs at h
  exact h

/-- Opening the directory a second time changes nothing. -/
theorem extract_redescend_spec (σ : Schedule ExtractSite) (i : ℕ) (dirfd : List Bytes)
    {seg : Bytes} (fs : Fs) (hseg : is_unsafe_segment seg = false) :
    (extract_redescend σ i dirfd seg fs).2 = fs ∧
      ∀ newfd, (extract_redescend σ i dirfd seg fs).1 = some newfd →
        newfd = dirfd ++ [seg] ∧ fs.node (dirfd ++ [seg]) = some .dir := by
  unfold extract_redescend
  rw [(path_comp_safe hseg).2]
  split
  · exact ⟨rfl, fun _ h => by cases h⟩
  · rename_i newfd fs' h
    obtain ⟨hdir, rfl, rfl⟩ := Tree.openat_descend_ok.mp (attempt_ok h)
    refine ⟨rfl, ?_⟩
    rintro newfd' hnew
    obtain rfl := Option.some.inj hnew
    exact ⟨rfl, hdir⟩

/-- **One directory down.** It is there, or it is made; whatever the outcome, nothing else
changes. -/
theorem extract_descend_spec (σ : Schedule ExtractSite) (i : ℕ) (dirfd : List Bytes)
    {seg : Bytes} (fs : Fs) (hseg : is_unsafe_segment seg = false) :
    ((extract_descend σ i dirfd seg fs).2 = fs ∨
        fs.node (dirfd ++ [seg]) = none ∧
          (extract_descend σ i dirfd seg fs).2.node =
            Function.update fs.node (dirfd ++ [seg]) (some .dir)) ∧
      ∀ newfd, (extract_descend σ i dirfd seg fs).1 = some newfd →
        newfd = dirfd ++ [seg] := by
  unfold extract_descend
  rw [(path_comp_safe hseg).2]
  split
  · rename_i newfd fs' h
    obtain ⟨-, rfl, rfl⟩ := Tree.openat_descend_ok.mp (attempt_ok h)
    exact ⟨Or.inl rfl, fun _ hnew => (Option.some.inj hnew).symm⟩
  · split
    · rename_i fs' h
      obtain ⟨hfree, -, hnode⟩ := Tree.mkdirat_ok (attempt_ok h)
      obtain ⟨hsame, hnew⟩ := extract_redescend_spec σ i dirfd fs' hseg
      rw [hsame]
      exact ⟨Or.inr ⟨hfree, hnode⟩, fun newfd h => (hnew newfd h).1⟩
    · obtain ⟨hsame, hnew⟩ := extract_redescend_spec σ i dirfd fs hseg
      exact ⟨Or.inl hsame, fun newfd h => (hnew newfd h).1⟩
    · exact ⟨Or.inl rfl, fun _ h => by cases h⟩
  · exact ⟨Or.inl rfl, fun _ h => by cases h⟩

/-! ## The walk

`Walked` is where the walk may be and what it may have changed.
-/

/-- What a walk towards `comps` below `dirfd` may do at a location: make a directory where there
was nothing, on the way, or put an empty file in place of a file or of nothing, at the end. -/
inductive Change (dirfd comps : List Bytes) (fs fs' : Fs) (p : List Bytes) : Prop where
  | made (s t : List Bytes) (hs : s ≠ []) (ht : t ≠ []) (hcomps : comps = s ++ t)
      (hp : p = dirfd ++ s) (before : fs.node p = none) (after : fs'.node p = some .dir)
  | opened (hne : comps ≠ []) (hp : p = dirfd ++ comps)
      (before : fs.node p = none ∨ ∃ c, fs.node p = some (.file c))
      (after : fs'.node p = some (.file []))

/-- What a walk towards `comps` below `dirfd` leaves: the target, if it was opened, under its very
location, and no other change than those. -/
structure Walked (dirfd comps : List Bytes) (fs : Fs) (r : Option (List Bytes) × Fs) : Prop where
  target : ∀ tfd, r.1 = some tfd → tfd = dirfd ++ comps ∧ r.2.node tfd = some (.file [])
  changed : ∀ p, r.2.node p ≠ fs.node p → Change dirfd comps fs r.2 p

/-- A walk that stops at once. -/
theorem Walked.stop (dirfd comps : List Bytes) (fs : Fs) : Walked dirfd comps fs (none, fs) := by
  constructor
  · intro tfd h
    cases h
  · intro p hp
    exact absurd rfl hp

/-- One component in front. -/
theorem Walked.cons {dirfd comps : List Bytes} {seg : Bytes} {fs fs₁ : Fs}
    {r : Option (List Bytes) × Fs} (hne : comps ≠ [])
    (hdown : fs₁ = fs ∨ fs.node (dirfd ++ [seg]) = none ∧
      fs₁.node = Function.update fs.node (dirfd ++ [seg]) (some .dir))
    (h : Walked (dirfd ++ [seg]) comps fs₁ r) : Walked dirfd (seg :: comps) fs r := by
  have happ : ∀ s, dirfd ++ [seg] ++ s = dirfd ++ seg :: s := by simp
  refine ⟨?_, ?_⟩
  · intro tfd htfd
    rw [← happ]
    exact h.target tfd htfd
  intro p hp
  -- below the new directory nothing changed before
  have hbelow : ∀ s, s ≠ [] → p = dirfd ++ [seg] ++ s → fs₁.node p = fs.node p := by
    rintro s hs rfl
    rcases hdown with rfl | ⟨-, hnode⟩
    · rfl
    · rw [hnode, Function.update_of_ne (by simpa using hs)]
  by_cases hp₁ : r.2.node p = fs₁.node p
  · rcases hdown with rfl | ⟨hfree, hnode⟩
    · exact absurd hp₁ hp
    · have hpeq : p = dirfd ++ [seg] := by
        by_contra hpne
        rw [hnode, Function.update_of_ne hpne] at hp₁
        exact hp hp₁
      refine .made [seg] comps (by simp) hne rfl hpeq (by rw [hpeq, hfree]) ?_
      rw [hp₁, hnode, hpeq, Function.update_self]
  · cases h.changed p hp₁ with
    | made s t hs ht hcomps hpeq before after =>
      rw [hbelow s hs hpeq] at before
      exact .made (seg :: s) t (by simp) ht (by rw [hcomps, List.cons_append])
        (by rw [hpeq, happ]) before after
    | opened hne' hpeq before after =>
      rw [hbelow comps hne' hpeq] at before
      exact .opened (by simp) (by rw [hpeq, happ]) before after

/-- **The walk over a safe name.** -/
theorem extract_walk_spec (σ : Schedule ExtractSite) (rest seg : Bytes) (i : ℕ)
    (dirfd : List Bytes) (fs : Fs) (hseg : ∀ c ∈ seg, is_separator c = false)
    (hsafe : ∀ s ∈ entry_components (seg ++ rest), is_unsafe_segment s = false) :
    Walked dirfd (entry_components (seg ++ rest)) fs (extract_walk σ rest seg i dirfd fs) := by
  induction rest generalizing seg i dirfd fs with
  -- the last component is the file: it is opened in the directory that was reached
  | nil =>
    rw [List.append_nil, entry_components, List.splitOnP_eq_singleton hseg] at hsafe ⊢
    rw [List.forall_mem_singleton] at hsafe
    rw [extract_walk, (path_comp_safe hsafe).2]
    have hne : seg.length ≠ 0 := fun h => (path_comp_safe hsafe).1 (List.length_eq_zero_iff.mp h)
    rw [if_neg hne]
    by_cases hlong : seg.length ≥ OS_PATH_MAX
    · rw [if_pos hlong]
      exact Walked.stop _ _ _
    rw [if_neg hlong]
    split
    · exact Walked.stop _ _ _
    rename_i leaf_fd fs' h
    obtain ⟨rfl, hbefore, hnode⟩ := Tree.openat_deliver_ok (attempt_ok h)
    have hchanged : ∀ p, fs'.node p ≠ fs.node p → Change dirfd [seg] fs fs' p := by
      intro p hp
      have hpeq : p = dirfd ++ [seg] := by
        by_contra hpne
        rw [hnode, Function.update_of_ne hpne] at hp
        exact hp rfl
      refine .opened (by simp) hpeq (by rw [hpeq]; exact hbefore) ?_
      rw [hnode, hpeq, Function.update_self]
      rfl
    by_cases hfdopen : σ.fails .fdopen = true
    · rw [if_pos hfdopen]
      refine ⟨?_, hchanged⟩
      intro tfd htfd
      cases htfd
    · rw [if_neg hfdopen]
      refine ⟨?_, hchanged⟩
      intro tfd htfd
      obtain rfl := Option.some.inj htfd
      refine ⟨rfl, ?_⟩
      rw [hnode, Function.update_self]
      rfl
  | cons c rest ih =>
    rw [extract_walk]
    by_cases hc : is_separator c = true
    -- a separator ends a component, which is gone into
    · rw [if_pos hc]
      rw [entry_components, List.splitOnP_append_cons_of_forall_mem hseg c hc] at hsafe ⊢
      rw [List.forall_mem_cons] at hsafe
      have hne : seg.length ≠ 0 :=
        fun h => (path_comp_safe hsafe.1).1 (List.length_eq_zero_iff.mp h)
      rw [if_neg hne]
      by_cases hlong : seg.length ≥ OS_PATH_MAX
      · rw [if_pos hlong]
        exact Walked.stop _ _ _
      rw [if_neg hlong]
      obtain ⟨hdown, hnew⟩ := extract_descend_spec σ i dirfd fs hsafe.1
      split
      · rename_i fs' h
        rw [h] at hdown
        exact Walked.cons (List.splitOnP_ne_nil _ _) hdown (Walked.stop _ _ _)
      · rename_i newfd fs' h
        rw [h] at hdown hnew
        obtain rfl := hnew newfd rfl
        exact Walked.cons (List.splitOnP_ne_nil _ _) hdown (ih [] _ _ _ (by simp) hsafe.2)
    -- any other byte belongs to the component
    · rw [if_neg hc]
      rw [List.append_cons] at hsafe ⊢
      refine ih _ _ _ _ ?_ hsafe
      intro b hb
      rcases List.mem_append.mp hb with hb | hb
      · exact hseg b hb
      · rw [List.mem_singleton.mp hb]
        simpa using hc

/-! ## Confinement

Nothing changes outside the destination, and the target is opened where its name says.
-/

/-- **Extraction is confined.** Whatever the tree, whatever links are planted in it and whichever
calls fail: of a safe name, nothing is opened or one file, at the location that the components of
the name lead to below the real location of the destination, by real directories all the way; and
all that changes on the way is a directory made inside the destination where there was nothing,
or that one file. -/
theorem open_extract_target_confined (σ : Schedule ExtractSite) (fs : Fs)
    (dest_dir : List (Comp Bytes)) (rel_path : CStr)
    (hsafe : pakka_unsafe_entry_name rel_path = false) :
    let r := pakka_platform_open_extract_target σ fs dest_dir rel_path
    let comps := entry_components rel_path.bytes
    r = (none, fs) ∨
      ∃ dest, fs.openat [] dest_dir { directory := true } = .ok (dest, fs) ∧ comps ≠ [] ∧
        (∀ tfd, r.1 = some tfd →
          tfd = dest ++ comps ∧ r.2.node tfd = some (.file []) ∧
            ∀ s t, comps = s ++ t → t ≠ [] → r.2.node (dest ++ s) = some .dir) ∧
        ∀ p, r.2.node p ≠ fs.node p → Change dest comps fs r.2 p := by
  intro r comps
  simp only [r, pakka_platform_open_extract_target]
  split
  · exact Or.inl rfl
  rename_i dirfd fs' h
  have hopen := attempt_ok h
  obtain ⟨-, rfl⟩ := Tree.openat_directory_ok fs.root hopen
  have hw := extract_walk_spec σ rel_path.bytes [] 0 dirfd fs' (by simp)
    (pakka_unsafe_entry_name_eq_false.mp hsafe)
  refine Or.inr ⟨dirfd, hopen, List.splitOnP_ne_nil _ _, ?_, hw.changed⟩
  intro tfd htfd
  obtain ⟨heq, hfile⟩ := hw.target tfd htfd
  refine ⟨heq, hfile, ?_⟩
  intro s t hst ht
  refine Tree.dir_of_prefix (q := t) ?_ ht
  rw [List.append_assoc, ← hst]
  rw [heq] at hfile
  exact Option.isSome_iff_exists.mpr ⟨_, hfile⟩

/-- A tree with nothing but a link to the root in it. -/
def planted_tree : Fs where
  node p := if p = [] then some .dir else if p = [ascii "l"] then some (.link true []) else none
  root := by simp
  parent := by
    intro p n h
    by_cases hp : p = []
    · simp [hp]
    · have hlen : p ++ [n] ≠ [ascii "l"] := by
        intro heq
        exact hp (List.append_inj' (heq.trans (List.nil_append _).symm) rfl).1
      simp [hlen] at h

/-- The walk through the planted link. -/
theorem open_extract_target_confined_planted :
    let r := pakka_platform_open_extract_target (.calm _) planted_tree [] (.ofField (ascii "l/x"))
    let comps := entry_components (CStr.ofField (ascii "l/x")).bytes
    r = (none, planted_tree) ∨
      ∃ dest, planted_tree.openat [] [] { directory := true } = .ok (dest, planted_tree) ∧
        comps ≠ [] ∧
        (∀ tfd, r.1 = some tfd →
          tfd = dest ++ comps ∧ r.2.node tfd = some (.file []) ∧
            ∀ s t, comps = s ++ t → t ≠ [] → r.2.node (dest ++ s) = some .dir) ∧
        ∀ p, r.2.node p ≠ planted_tree.node p → Change dest comps planted_tree r.2 p :=
  open_extract_target_confined (.calm _) planted_tree [] (.ofField (ascii "l/x"))
    (by decide +kernel)

end Pakka
