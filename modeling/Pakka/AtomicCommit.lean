/-
Commits by rebuild under faults.

A commit that cannot work in place writes the new archive to a scratch file and renames it over the
live one. Between the two stand allocations, opens, reads, writes, a flush and a close, and each of
them may fail. Whatever fails, and wherever a crash would cut the commit off, the live file is the
old archive or the new one, and a commit that gives up before the rename puts its handle back as it
was, so that it can be tried again.

This holds of every handle that calls can reach, so the module starts with that: `Reached` says what
they can reach, a handle that lost its file or one of the two session invariants. Then `Replaces` is
the pattern of a publication: of all the states the live file goes through, the first are the old
file and the rest are the new one. The two families have a rebuild each, with its own order of
steps; their outcomes are brought to the same form before the pattern is applied.

The last part lists what any call can do to a reached handle (`StepOutcome`). It is the case
analysis that later modules use in place of looking into the calls again.
-/
import Pakka.ZipReopen

set_option autoImplicit false

namespace Pakka

open ByteImage Logged

/-! ## Reached sessions

The two families have their own invariants and their own proofs that calls keep them. A session
belongs to one of the families from its start, so one disjunction covers everything a run can lead
to, the third case being a commit that could not open the renamed file again.
-/

/-- What is known of a session after any calls: its handle lost its file, or one of the two
invariants holds. -/
inductive Reached (s : Session) : Prop where
  | lost (h : s.pak.fp = false) : Reached s
  | pak {format : Format} {geom : Geometry} {t : Prop} {disk : Bytes}
      (h : PakLive format geom t s disk) : Reached s
  | zip {format : Format} {disk : Bytes} (h : ZipLive format s disk) : Reached s

variable {df : Deflate} {s : Session} {disk : Bytes} {env : Env} {c : Call}

/-- A session starts on a PAK-class or on a ZIP archive. -/
theorem Session.Started.format_class (h : Session.Started s) :
    pakka_format_is_zip s.pak.format = true ∨ IsPakClass s.pak.format := by
  cases h with
  | opened hopen =>
    rcases open_format_class hopen with hz | ⟨geom, hg⟩
    · exact Or.inl hz
    · exact Or.inr (Option.isSome_iff_exists.mpr ⟨geom, hg⟩)
  | @created env path format pak hcreate =>
    have hformat := created_format hcreate
    change pakka_format_is_zip pak.format = true ∨ IsPakClass pak.format
    rw [hformat]
    cases format <;> decide

/-- A session starts with all its entries on disk. -/
theorem Session.Started.on_disk (h : Session.Started s) :
    ∀ e ∈ s.pak.entries, e.staged = false := by
  have hclass := h.format_class
  cases h with
  | opened hopen =>
    rcases hclass with hz | hcls
    · obtain ⟨hd, cdr, l, es, hdir, rfl⟩ := open_zip_directory hopen hz
      exact fun e he => (hdir.opened_entry e he).not_staged
    · exact (open_pak_fresh hcls hopen).on_disk
  | @created env path format pak hcreate =>
    have hnil : pak.entries = [] := by
      rcases hclass with hz | hcls
      · exact (ZipLive.created hcreate hz).2
      · obtain ⟨geom, disk, -, hnil⟩ := PakLive.created hcreate hcls
        exact hnil
    intro e he
    exact absurd he (List.eq_nil_iff_forall_not_mem.mp hnil e)

/-- Every session starts with its invariant. -/
theorem Session.Started.reached (h : Session.Started s) : Reached s := by
  rcases h.format_class with hz | hcls
  · obtain ⟨disk, hl⟩ := h.zip_live hz
    exact Reached.zip hl
  · obtain ⟨geom, disk, hl⟩ := h.live hcls
    exact Reached.pak hl

/-- **One call**, whatever fails. -/
theorem Reached.step (h : Reached s) : Reached (s.step df env c).2 := by
  cases h with
  | lost hfp =>
    obtain ⟨method, hs⟩ := lost_step df env c hfp
    apply Reached.lost
    rw [hs]
    exact hfp
  | pak hl =>
    rcases PakRun.step df env c (Or.inr ⟨_, hl⟩) with hlost | ⟨disk', hl'⟩
    · exact Reached.lost hlost.1
    · exact Reached.pak hl'
  | zip hl =>
    rcases hl.step df env c with ⟨disk', hl'⟩ | ⟨-, hlost⟩
    · exact Reached.zip hl'
    · exact Reached.lost hlost

/-- **Any run**, whatever fails. -/
theorem Reached.run (calls : List (Env × Call)) {s : Session} (h : Reached s) :
    Reached (s.run df calls) := by
  induction calls generalizing s with
  | nil => exact h
  | cons p calls ih => exact ih h.step

/-! ## Rebuilding commits

What a commit has to do depends on the marks of the handle. The conditions under which it rebuilds
are those of the code, and under them the log of the commit is scratch work, a rename, and a reopen.
The new archive is given with the handle that lists it, complete, because after the rename it is the
only file there is.
-/

/-- The commit of a handle has to rebuild: a changed ZIP archive, or a changed PAK-class one that
is opened for atomic commits or had an entry deleted or staged. -/
def commit_rebuilds (pak : Archive) : Prop :=
  pak.writable = true ∧ pak.dirty = true ∧
    (pakka_format_is_zip pak.format = true ∨ pak.needs_rebuild = true ∨ pak.atomic_commit = true)

/-- The complete archive that a commit of `pak` stands for, with the handle that lists it. -/
inductive NewArchive (env : Env) (disk : Bytes) (pak : Archive) (new : Bytes) (pak' : Archive) :
    Prop where
  | pak {geom : Geometry} (h : PakCommitted env disk pak new pak' geom) :
      NewArchive env disk pak new pak'
  | zip (h : ZipCommitted env disk pak new pak') : NewArchive env disk pak new pak'

/-- A call that replaces the live file by the archive `new` at one point, or not at all. -/
structure Replaces (env : Env) (s : Session) (r : Step) (new : Bytes) (pak' : Archive) : Prop where
  at_every_point : ∀ pre, pre <+: r.log → FileOp.run s.files pre .live = s.files .live ∨
    FileOp.run s.files pre .live = some new ∧ NewArchive env s.disk s.pak new pak'
  ok : r.status = .ok → FileOp.run s.files r.log .live = some new ∧
    NewArchive env s.disk s.pak new pak' ∧ r.pak = pak'
  error : r.status ≠ .ok → FileOp.rename .scratch .live ∉ r.log →
    FileOp.run s.files r.log .live = s.files .live ∧ (r.pak = s.pak ∨ r.pak = lost_fp s.pak)

/-- A call that does nothing to the files and fails. -/
theorem Replaces.of_nothing {r : Step} (hlog : r.log = []) (hst : r.status ≠ .ok)
    (hpak : r.pak = s.pak) : Replaces env s r [] s.pak := by
  refine ⟨fun pre hpre => ?_, fun hok => absurd hok hst, fun _ _ => ?_⟩
  · rw [hlog, List.prefix_nil] at hpre
    rw [hpre]
    exact Or.inl rfl
  · rw [hlog]
    exact ⟨rfl, Or.inl hpak⟩

/-- **A rebuild replaces the live file.** -/
theorem RebuildOutcome.replaces {New : Bytes → Archive → Prop} {Lost : Archive → Prop}
    {x : HandleOp Archive} (h : RebuildOutcome s.pak New Lost x)
    (hnew : ∀ new pak', New new pak' → NewArchive env s.disk s.pak new pak') :
    ∃ new pak', Replaces env s (Step.of x) new pak' := by
  have hlog : (Step.of x).log = x.log := by
    unfold Step.of
    split <;> rfl
  cases h with
  | @kept st pak' hres hst hscr hpak =>
    refine ⟨[], s.pak, ?_, ?_, ?_⟩
    · intro pre hpre
      rw [hlog] at hpre
      left
      exact FileOp.run_of_not_touches fun op ho =>
        hscr.not_touches (by simp) op (hpre.subset ho)
    · intro hok
      rw [Step.of_error hres] at hok
      change st = .ok at hok
      subst hok
      exact absurd hst (by simp [IsError])
    · intro _ _
      rw [Step.of_error hres]
      exact ⟨FileOp.run_of_not_touches (hscr.not_touches (by simp)), hpak⟩
  | @published work scratch pak' hpub hwork hscratch hn hres =>
    refine ⟨scratch, pak', ?_, ?_, ?_⟩
    · intro pre hpre
      rw [hlog, hpub] at hpre
      rcases FileOp.publish_cases s.files (by decide) (hwork.not_touches (by simp)) hpre with
        hold | hrun
      · exact Or.inl hold
      · right
        rw [hrun]
        exact ⟨hscratch _, hnew _ _ hn⟩
    · intro hok
      rcases hres with hdone | ⟨st, p, hp, hst, -⟩
      · rw [hlog, hpub]
        refine ⟨run_rename_scratch hscratch, hnew _ _ hn, ?_⟩
        rw [Step.of_ok hdone]
      · rw [Step.of_error hp] at hok
        change st = .ok at hok
        subst hok
        exact absurd hst (by simp [IsError])
    · intro _ hno
      rw [hlog, hpub] at hno
      exact absurd (List.mem_append_right _ (List.mem_singleton.mpr rfl)) hno

/-- The commit of a PAK-class handle that has to rebuild is the rebuild. -/
theorem pakka_commit_eq_rebuild (env : Env) {pak : Archive}
    (hz : pakka_format_is_zip pak.format = false) (hfp : pak.fp = true)
    (hreb : commit_rebuilds pak) :
    pakka_commit env disk pak = pakka_commit_rebuild env disk pak := by
  obtain ⟨hw, hd, hpath⟩ := hreb
  have hpath' : ¬ (¬ pak.needs_rebuild ∧ ¬ pak.atomic_commit) := by
    rintro ⟨hn, ha⟩
    rcases hpath with hx | hx | hx
    · rw [hz] at hx
      cases hx
    · exact hn hx
    · exact ha hx
  unfold pakka_commit
  rw [if_neg (by simp [hd]), if_neg (by simp [hw, hfp]), if_neg (by simp [hz]), if_neg hpath']

/-- The ways out of a commit of a PAK-class handle that has to rebuild. -/
theorem pak_commit_rebuild_outcome (env : Env) {pak : Archive} {geom : Geometry}
    (h : PakState disk.length pak geom) (hfp : pak.fp = true) (hreb : commit_rebuilds pak) :
    RebuildOutcome pak (fun new pak' => PakCommitted env disk pak new pak' geom)
      (fun p => env.faults.fails .reopen = true ∧ p.fp = false ∧ p.dirty = pak.dirty)
      (pakka_commit env disk pak) := by
  rw [pakka_commit_eq_rebuild env (not_zip_of_geometry h.geometry) hfp hreb]
  exact pakka_commit_rebuild_outcome env h hfp

/-- **A commit that has to rebuild** on a reached session replaces the live file. -/
theorem Reached.commit_replaces (h : Reached s) (df : Deflate) (env : Env)
    (hreb : commit_rebuilds s.pak) :
    ∃ new pak', Replaces env s (pakka_call df env s.disk s.pak .commit) new pak' := by
  rw [pakka_call]
  cases h with
  | lost hfp =>
    rw [lost_commit_fails env s.disk hfp hreb.2.1]
    exact ⟨_, _, Replaces.of_nothing rfl (fun hok => by cases hok) rfl⟩
  | pak hl =>
    have hstate := hl.disk_state
    exact (pak_commit_rebuild_outcome env hstate hl.live hreb).replaces fun _ _ hn =>
      NewArchive.pak hn
  | zip hl =>
    have hstate := hl.disk_state
    exact (zip_commit_outcome env hstate hl.named hreb.2.1).replaces fun _ _ hn =>
      NewArchive.zip hn

/-! ## What a call can do

One case for each way a call can change a handle: not at all, by the effect of a mutator, by a
commit, by a commit that lost the file. A commit in place belongs here too. It is not atomic, and
what it leaves when it fails is said by its own module.
-/

/-- What a call can make of a handle: nothing but to the fields that say how to go on, the effect
of a call that succeeds, a commit, or a commit that lost the file it renamed into place. -/
inductive StepOutcome (df : Deflate) (env : Env) (s : Session) (c : Call) (pak' : Archive) :
    Prop where
  | kept {fp : Bool} {method : UInt16} {diroffset dirlength : UInt32}
      (hfp : fp = true → s.pak.fp = true)
      (h : pak' = { s.pak with
        fp := fp
        pk3_compression := method
        diroffset := diroffset
        dirlength := dirlength }) : StepOutcome df env s c pak'
  | pak {log : List (FileOp FileId)} {geom : Geometry}
      (hstate : PakState s.disk.length s.pak geom) (h : PakEffect env s.pak c log pak') :
      StepOutcome df env s c pak'
  | zip {n : ℕ} (hstate : ZipState n s.pak) (h : ZipEffect df env s.pak c pak') :
      StepOutcome df env s c pak'
  | committed {disk' : Bytes} (hc : c = .commit) (h : NewArchive env s.disk s.pak disk' pak') :
      StepOutcome df env s c pak'
  | lost (hc : c = .commit) (h : reopen_failed df s env c) (hfp : pak'.fp = false)
      (hstaged : pak'.dirty = true ∨ ∀ e ∈ pak'.entries, e.staged = false) :
      StepOutcome df env s c pak'

/-- A commit by rebuild, as the outcome of a call. -/
theorem RebuildOutcome.step {New : Bytes → Archive → Prop} {Lost : Archive → Prop}
    (h : RebuildOutcome s.pak New Lost (pakka_commit env s.disk s.pak))
    (hnew : ∀ new pak', New new pak' → NewArchive env s.disk s.pak new pak')
    (hlost : ∀ p, Lost p → p.fp = false ∧ (p.dirty = true ∨ ∀ e ∈ p.entries, e.staged = false)) :
    StepOutcome df env s .commit (s.step df env .commit).2.pak := by
  change StepOutcome df env s .commit (Step.of (pakka_commit env s.disk s.pak)).pak
  cases h with
  | kept hres _ _ hpak =>
    rw [Step.of_error hres]
    rcases hpak with rfl | rfl
    · exact .kept id rfl
    · exact .kept (fun hx => by cases hx) rfl
  | @published work scratch pak' hlog _ _ hn hres =>
    rcases hres with hok | ⟨st, p, hp, hst, hl⟩
    · rw [Step.of_ok hok]
      exact .committed rfl (hnew _ _ hn)
    · rw [Step.of_error hp]
      obtain ⟨h1, h2⟩ := hlost p hl
      refine .lost rfl ⟨?_, ?_⟩ h1 h2
      · change (Step.of (pakka_commit env s.disk s.pak)).status ≠ .ok
        rw [Step.of_error hp]
        rintro rfl
        exact absurd hst (by simp [IsError])
      · rw [pakka_call, Step.of_error hp]
        change _ ∈ (pakka_commit env s.disk s.pak).log
        rw [hlog]
        simp

/-- **A commit in place**, or one that is refused. -/
theorem PakLive.commit_in_place {format : Format} {geom : Geometry} {t : Prop}
    (h : PakLive format geom t s disk) (hdirty : s.pak.dirty = true)
    (hpath : ¬ commit_rebuilds s.pak) :
    StepOutcome df env s .commit (s.step df env .commit).2.pak := by
  change StepOutcome df env s .commit (Step.of (pakka_commit env s.disk s.pak)).pak
  have hz := not_zip_of_geometry h.state.geometry
  cases hw : s.pak.writable with
  | false =>
    have hc : pakka_commit env s.disk s.pak = fail (.invalid_argument, s.pak) := by
      unfold pakka_commit
      rw [if_neg (by simp [hdirty]), if_pos (Or.inl (by simp [hw]))]
    rw [hc]
    exact .kept id rfl
  | true =>
    have hin : ¬ s.pak.needs_rebuild ∧ ¬ s.pak.atomic_commit :=
      ⟨fun hx => hpath ⟨hw, hdirty, Or.inr (Or.inl hx)⟩,
        fun hx => hpath ⟨hw, hdirty, Or.inr (Or.inr hx)⟩⟩
    have hsig : s.pak.signature.length = 4 := by
      rw [h.state.signature, geometry_signature_length h.state.geometry]
    have hc : pakka_commit env s.disk s.pak = pakka_commit_in_place env s.pak := by
      unfold pakka_commit
      rw [if_neg (by simp [hdirty]), if_neg (by simp [hw, h.live]), if_neg (by simp [hz]),
        if_pos hin]
    cases hres : (pakka_commit env s.disk s.pak).res with
    | ok pak' =>
      rw [Step.of_ok hres]
      have hstate := h.state
      rw [← h.disk_eq] at hstate
      obtain ⟨disk', -, hdone⟩ := pak_commit_ok hstate hdirty hres
      exact .committed rfl (.pak hdone)
    | error err =>
      obtain ⟨st, pak'⟩ := err
      rw [Step.of_error hres]
      rw [hc] at hres
      obtain ⟨d, l, hpak⟩ := ((pakka_commit_in_place_failed env hsig).1 _ hres).2
      exact .kept id hpak

/-- **What one call can do** on a reached session. -/
theorem Reached.outcome (df : Deflate) (env : Env) (c : Call) (h : Reached s) :
    StepOutcome df env s c (s.step df env c).2.pak := by
  cases h with
  | lost hfp =>
    obtain ⟨method, hs⟩ := lost_step df env c hfp
    rw [hs]
    exact .kept id rfl
  | @pak format geom t disk hl =>
    have hstate := hl.disk_state
    by_cases hc : c = .commit
    · subst hc
      cases hd : s.pak.dirty with
      | false =>
        change StepOutcome df env s .commit (Step.of (pakka_commit env s.disk s.pak)).pak
        rw [pakka_commit_clean hd]
        exact .kept id rfl
      | true =>
        by_cases hreb : commit_rebuilds s.pak
        · refine (pak_commit_rebuild_outcome env hstate hl.live hreb).step
            (fun _ _ hn => .pak hn) fun p hp => ⟨hp.2.1, Or.inl (hp.2.2.trans hd)⟩
        · exact hl.commit_in_place hd hreb
    · change StepOutcome df env s c (pakka_call df env s.disk s.pak c).pak
      by_cases hok : (pakka_call df env s.disk s.pak c).status = .ok
      · exact .pak hstate (pak_call_ok (not_zip_of_geometry hl.state.geometry) hc hok)
      · rw [pakka_call_failed hc hok]
        exact .kept id rfl
  | zip hl =>
    have hstate := hl.disk_state
    by_cases hc : c = .commit
    · subst hc
      cases hd : s.pak.dirty with
      | false =>
        change StepOutcome df env s .commit (Step.of (pakka_commit env s.disk s.pak)).pak
        rw [pakka_commit_clean hd]
        exact .kept id rfl
      | true =>
        exact (zip_commit_outcome env hstate hl.named hd).step (fun _ _ hn => .zip hn)
          fun p hp => ⟨hp.2.1, Or.inr hp.2.2⟩
    · change StepOutcome df env s c (pakka_call df env s.disk s.pak c).pak
      by_cases hok : (pakka_call df env s.disk s.pak c).status = .ok
      · exact .zip hstate (zip_call_ok _ _ _ hstate.zip hc hok)
      · rw [pakka_call_failed hc hok]
        exact .kept id rfl

/-- **Commits are atomic under any schedule of faults.** Whatever calls led to a handle, and
whatever of them failed: no call but a commit touches the files of a ZIP archive or of one that is
open for atomic commits. And while a commit that has to rebuild runs, the live file is at each
point the one of before or the complete new archive. It is the new one when the commit succeeds.
When it fails, and not because the file it renamed into place could not be reopened, it is the one
of before, and the handle is as before, up to whether it has its file. -/
theorem commit_atomic (df : Deflate) (s₀ : Session) (calls : List (Env × Call))
    (hstart : Session.Started s₀) :
    (∀ env c, c ≠ .commit → (pakka_format_is_zip (s₀.run df calls).pak.format = true ∨
        (s₀.run df calls).pak.atomic_commit = true) →
      (pakka_call df env (s₀.run df calls).disk (s₀.run df calls).pak c).log = []) ∧
    ∀ env, commit_rebuilds (s₀.run df calls).pak → ∃ new pak', Replaces env (s₀.run df calls)
      (pakka_call df env (s₀.run df calls).disk (s₀.run df calls).pak .commit) new pak' := by
  constructor
  · intro env c hc hkind
    cases hz : pakka_format_is_zip (s₀.run df calls).pak.format with
    | true => exact zip_call_log df env _ _ c hz hc
    | false =>
      rcases hkind with hx | ha
      · rw [hz] at hx
        cases hx
      · exact (pak_call_log df env _ _ c hz hc).2 ha
  · intro env hreb
    exact (hstart.reached.run calls).commit_replaces df env hreb

/-- An environment in which the rename fails. -/
def failing_rename : Env :=
  { calm_env with faults := { fails := fun p => p = .rename, cut := fun _ => 0 } }

/-- A commit whose rename fails leaves handle and file as they were. -/
theorem commit_atomic_failed_rename :
    let s := created_pk3.run .storing [(calm_env, add_high_byte)]
    (s.step .storing failing_rename .commit).1 = .io ∧
      (s.step .storing failing_rename .commit).2.files .live = s.files .live := by
  intro s
  obtain ⟨-, h⟩ := commit_atomic .storing created_pk3 [(calm_env, add_high_byte)] created_pk3_started
  obtain ⟨new, pak', hr⟩ := h failing_rename
    ⟨by decide +kernel, by decide +kernel, by decide +kernel⟩
  exact ⟨by decide +kernel, (hr.error (by decide +kernel) (by decide +kernel)).1⟩

end Pakka
