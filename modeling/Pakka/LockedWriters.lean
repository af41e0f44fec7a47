/-
Processes that write to one archive.

`pakka_open_ex` opens the path, takes an `fcntl` write lock on what it opened and loads it. A
commit that rebuilds closes the descriptor, renames its scratch file over the path and opens the
path again, and takes no lock on what it then has. So the lock keeps writers apart only while
nobody takes it on a file that is not at the path any more, or next to a writer that has just
rebuilt. Where that does not happen, the writers do to the archive what they would do one after
the other.

A process is a program for the library of locked files: the calls of a session become the steps of
the program, and what a commit does to the path is read off the log of the commit. The order of
steps between processes is arbitrary.
-/
import Pakka.ArchiveContents
import Pakka.AtomicCommit
import Pakka.Lib.LockedFile

set_option autoImplicit false

namespace Pakka

open ByteImage Logged LockedFile

/-! ## The program

Which commits give up the lock is a matter of the path the commit takes, with the conditions of the
code.
-/

/-- A mode that opens for writing. -/
abbrev WriteMode := { mode : OpenMode // mode ≠ .read }

/-- The rebuild of a ZIP archive gets as far as `fclose(pak->fp)`. -/
def pk3_rebuild_closes (env : Env) (disk : Bytes) (pak : Archive) : Bool :=
  let work : HandleOp (Archive × UInt32) := do
    (alloc_for_entries env .bookkeeping pak.entries).mapError fun s => (s, pak)
    call env.faults .mkstemp (.io, pak)
    pk3_rebuild_scratch env disk pak
  match work.res with
  | .ok _ => true
  | .error _ => false

/-- The rebuild of a PAK-class archive gets as far as `fclose(archive->fp)`. -/
def pak_rebuild_closes (env : Env) (disk : Bytes) (pak : Archive) : Bool :=
  match (pak_rebuild_work env disk pak).res with
  | .ok _ => true
  | .error _ => false

/-- A commit rebuilds, and gets as far as closing the old file. -/
def commit_closes (env : Env) (disk : Bytes) (pak : Archive) : Bool :=
  pak.dirty && pak.writable && pak.fp &&
    if pakka_format_is_zip pak.format then
      decide (pak.num_entries.toNat ≤ 0xFFFF) && pak.needs_rebuild &&
        pk3_rebuild_closes env disk pak
    else (pak.needs_rebuild || pak.atomic_commit) && pak_rebuild_closes env disk pak

/-- What a call does to the open file, with what it meets outside. -/
def writer_call (df : Deflate) (k : Env × Call) (disk : Bytes) (pak : Archive) :
    Effect Bytes Archive :=
  let s' := ((Session.opened disk pak).step df k.1 k.2).2
  if k.2 = .commit ∧ commit_closes k.1 disk pak = true then
    .rebuilt (if .rename .scratch .live ∈ (pakka_call df k.1 disk pak k.2).log then some s'.disk
      else none) s'.pak.fp s'.pak
  else .edited s'.disk s'.pak

/-- A process that opens the archive at `path` for writing. -/
def writer (df : Deflate) (path : CStr) :
    Program (WriteMode × Format) (Env × Call) Bytes Archive where
  load m disk := (pakka_open_ex path m.1 m.2 (some disk)).toOption
  call := writer_call df
  orphan k pak := (pakka_call df k.1 [] pak k.2).pak

/-! ## What the writers make of the archive

If no lock is taken on a file that has left the path, or next to a writer that rebuilt, the writers
are in some order one after the other, and the archive holds the edits of all commits in that order.
-/

section

variable {ι : Type} {df : Deflate} {path : CStr} {files : CStr → Bytes} {hint : Format}
  {disk : Bytes} {pak : Archive} {c : Call}

/-- The edit a deed stands for. -/
def deed_edit (files : CStr → Bytes) :
    Deed ι (WriteMode × Format) (Env × Call) → Catalogue.Edit CStr (Option Bytes)
  | .load _ _ => .keep
  | .call _ k => content_edit files k.2

/-- A call that succeeds where nothing fails and the sources hold `files`, within what the formats
can say. -/
structure Succeeds (df : Deflate) (files : CStr → Bytes) (c : Call) (disk : Bytes) (pak : Archive) :
    Prop where
  ok : (pakka_call df (Env.quiet files) disk pak c).status = .ok
  portable : pakka_format_is_zip pak.format = true → call_portable (Env.quiet files) c
  countable : c = .commit → commit_countable pak

variable [DecidableEq ι]

/-- Every deed succeeds, every load is under one hint, and what a process does it commits before
the next one loads: `published` says whether all is committed so far. -/
def AllCommitted (df : Deflate) (path : CStr) (files : CStr → Bytes) (hint : Format) :
    Bool → Serial ι Bytes Archive → List (Deed ι (WriteMode × Format) (Env × Call)) → Prop
  | published, _, [] => published = true
  | published, s, .load p m :: ds => published = true ∧ m.2 = hint ∧
      ∀ s', s.step (writer df path) (.load p m) = some s' →
        AllCommitted df path files hint true s' ds
  | _, s, .call p k :: ds => k.1 = Env.quiet files ∧
      (∀ q pak, s.current = some (q, pak) → Succeeds df files k.2 s.contents pak) ∧
      ∀ s', s.step (writer df path) (.call p k) = some s' →
        AllCommitted df path files hint (decide (k.2 = .commit)) s' ds

/-- A commit that rebuilds and succeeds went through with its rename and its reopen. -/
theorem InOrder.commit_renames {env : Env} (h : InOrder hint disk pak)
    (hdirty : pak.dirty = true) (hreb : commit_rebuilds pak)
    (hok : (pakka_call df env disk pak .commit).status = .ok) :
    .rename .scratch .live ∈ (pakka_call df env disk pak .commit).log ∧
      (pakka_call df env disk pak .commit).pak.fp = true := by
  have hout : ∀ {New : Bytes → Archive → Prop} {Lost : Archive → Prop},
      RebuildOutcome pak New Lost (pakka_commit env disk pak) →
      (∀ new pak', New new pak' → pak'.fp = true) →
      .rename .scratch .live ∈ (pakka_call df env disk pak .commit).log ∧
        (pakka_call df env disk pak .commit).pak.fp = true := by
    intro New Lost hx hnew
    rw [pakka_call] at hok ⊢
    cases hx with
    | kept hres hs _ _ =>
      rw [Step.of_error hres] at hok
      exact absurd hok hs
    | @published work scratch pak' hlog _ _ hn hres =>
      rcases hres with hres | ⟨st, p, hres, hs, -⟩
      · rw [Step.of_ok hres]
        refine ⟨?_, hnew _ _ hn⟩
        change _ ∈ (pakka_commit env disk pak).log
        rw [hlog]
        simp
      · rw [Step.of_error hres] at hok
        exact absurd hok hs
  cases h with
  | pak hl => exact hout (pak_commit_rebuild_outcome env hl.state hl.live hreb) fun _ _ hn => hn.live
  | zip _ hl _ => exact hout (zip_commit_outcome env hl.state hl.named hdirty) fun _ _ hn => hn.live

/-- **A call that succeeds** on a handle in order is one step of a session, whichever way it takes
effect. -/
theorem InOrder.serial_call (h : InOrder hint disk pak) {env : Env} (p : ι)
    (hok : (pakka_call df env disk pak c).status = .ok) :
    (⟨disk, some (p, pak)⟩ : Serial ι Bytes Archive).step (writer df path) (.call p (env, c)) =
      some ⟨((Session.opened disk pak).step df env c).2.disk,
        some (p, ((Session.opened disk pak).step df env c).2.pak)⟩ := by
  unfold Serial.step
  dsimp only [writer]
  rw [if_pos rfl, writer_call]
  by_cases hcloses : c = .commit ∧ commit_closes env disk pak = true
  · obtain ⟨rfl, hc⟩ := hcloses
    have hreb : commit_rebuilds pak := by
      simp only [commit_closes, Bool.and_eq_true] at hc
      obtain ⟨⟨⟨hd, hw⟩, -⟩, hkind⟩ := hc
      refine ⟨hw, hd, ?_⟩
      split_ifs at hkind with hz
      · exact Or.inl hz
      · rw [Bool.and_eq_true, Bool.or_eq_true] at hkind
        exact Or.inr hkind.1
    obtain ⟨hrename, hfp⟩ := h.commit_renames hreb.2.1 hreb hok
    have hfp' : ((Session.opened disk pak).step df env .commit).2.pak.fp = true := hfp
    simp only [hc, and_self, if_true, hrename, hfp', Option.getD_some]
  · simp only [hcloses, if_false]

/-- **The serial run** of deeds that succeed and are committed makes their edits of the archive. -/
theorem serial_contents (ds : List (Deed ι (WriteMode × Format) (Env × Call)))
    (hdf : df.Correct) (hhint : hint ≠ .auto) {published : Bool} {s s' : Serial ι Bytes Archive}
    {contents : Catalogue CStr (Option Bytes)}
    (hopens : published = true → OpensHolding df (some s.contents) hint contents)
    (hcurrent : ∀ p pak, s.current = some (p, pak) →
      InOrder hint s.contents pak ∧ archive_contents df files s.contents pak = contents)
    (hall : AllCommitted df path files hint published s ds)
    (hserial : serial (writer df path) s ds = some s') :
    OpensHolding df (some s'.contents) hint
      (Catalogue.edits contents (ds.map (deed_edit files))) := by
  induction ds generalizing published s contents with
  | nil =>
    obtain rfl := Option.some.inj hserial
    exact hopens hall
  | cons d ds ih =>
    rw [serial, Option.bind_eq_some_iff] at hserial
    obtain ⟨s₁, hstep, hserial⟩ := hserial
    cases d with
    -- a process that starts finds what the last commit left
    | load p m =>
      obtain ⟨hpub, hm, hrest⟩ := hall
      have hopened := hopens hpub
      have hload := hstep
      rw [Serial.step, Option.map_eq_some_iff] at hload
      obtain ⟨pak, hpak, rfl⟩ := hload
      have hopen : pakka_open_ex path m.1 hint (some s.contents) = .ok pak := by
        change (pakka_open_ex path m.1 m.2 (some s.contents)).toOption = some pak at hpak
        rw [hm] at hpak
        cases hres : pakka_open_ex path m.1 hint (some s.contents) with
        | ok x =>
          rw [hres] at hpak
          exact congrArg Except.ok (Option.some.inj hpak)
        | error e =>
          rw [hres] at hpak
          cases hpak
      obtain ⟨horder, hcontents⟩ := hopened.loaded hhint hopen
      refine ih (s := ⟨s.contents, some (p, pak)⟩) (fun _ => hopened) (fun q x hx => ?_)
        (hrest _ hstep) hserial
      obtain ⟨rfl, rfl⟩ := Prod.mk.inj (Option.some.inj hx)
      exact ⟨horder, hcontents files⟩
    -- a call of the process at work makes its edit; after a commit the file has it too
    | call p k =>
      obtain ⟨env, c⟩ := k
      obtain ⟨henv, hsucceeds, hrest⟩ := hall
      change env = Env.quiet files at henv
      subst henv
      have hcur : ∃ pak, s.current = some (p, pak) := by
        rw [Serial.step] at hstep
        cases hc : s.current with
        | none =>
          rw [hc] at hstep
          cases hstep
        | some x =>
          obtain ⟨q, pak⟩ := x
          rw [hc] at hstep
          dsimp only at hstep
          by_cases hq : q = p
          · exact ⟨pak, by rw [hq]⟩
          · rw [if_neg hq] at hstep
            cases hstep
      obtain ⟨pak, hcur⟩ := hcur
      obtain ⟨hok, hportable, hcountable⟩ := hsucceeds p pak hcur
      obtain ⟨horder, hcontents⟩ := hcurrent p pak hcur
      obtain ⟨disk, current⟩ := s
      change current = _ at hcur
      subst hcur
      obtain rfl := Option.some.inj ((horder.serial_call p hok).symm.trans hstep)
      obtain ⟨horder', hcontents'⟩ := horder.step hdf hportable hok
      rw [hcontents] at hcontents'
      refine ih (fun hpub => ?_) (fun q x hx => ?_) (hrest _ hstep) hserial
      · -- what a commit leaves opens with the contents of before, which its edit keeps
        have hcommit : c = .commit := of_decide_eq_true hpub
        subst hcommit
        have hfile := horder.commit_opens (hcountable rfl) hok
        rw [hcontents] at hfile
        obtain ⟨disk', hdisk', hopen⟩ := hfile
        refine ⟨disk', ?_, hopen⟩
        change some (Option.getD _ _) = _
        rw [hdisk', Option.getD_some]
      · obtain ⟨rfl, rfl⟩ := Prod.mk.inj (Option.some.inj hx)
        exact ⟨horder', hcontents'⟩

/-- **Writers whose locks hold do not lose updates.** Any processes write to the archive at one
path, in any modes and under any hints, with any calls, any failures and any interleaving of their
steps. If each takes its lock only on the file that is at the path, and only while no process that
is past its lock is without it (after it rebuilt, or closed another descriptor of the archive),
then in every state reached at most one process is past its lock, and what it has open is the file
at the path. The file at the path is then what the calls make of the first one when they are done
to a single file, each process loading what the one before left. So if the calls succeed and are
committed, the archive has the additions, deletions, renames and copies of all of them, in that
order. -/
theorem locked_writers_serial (df : Deflate) (path : CStr) (disk : Bytes)
    (acts : List (ι × Action (WriteMode × Format) (Env × Call))) (w : World ι Bytes Archive)
    (hguard : (World.initial disk).GuardedRun (writer df path) acts)
    (hrun : (World.initial disk).run (writer df path) acts = some w) :
    (∀ p q, (w.stage p).past = true → (w.stage q).past = true → p = q) ∧
    (∀ p i, (w.stage p).held = some i → i = w.path) ∧
    ∃ s, serial (writer df path) ⟨disk, none⟩ ((World.initial disk).trace (writer df path) acts) =
        some s ∧
      ((∀ p, (w.stage p).pending = none) → w.data w.path = s.contents) ∧
      (∀ p pak, (w.stage p).handle = some pak → s.current = some (p, pak)) ∧
      ∀ files hint contents, df.Correct → hint ≠ .auto → OpensHolding df (some disk) hint contents →
        AllCommitted df path files hint true ⟨disk, none⟩
          ((World.initial disk).trace (writer df path) acts) →
        OpensHolding df (some s.contents) hint (Catalogue.edits contents
          (((World.initial disk).trace (writer df path) acts).map (deed_edit files))) := by
  obtain ⟨hx, s, hserial, hs⟩ :=
    (simulates_initial disk).run acts (exclusive_initial disk) hguard hrun
  refine ⟨hx.one, hx.current, s, hserial, fun h => (hs.settled h).symm, hs.current, ?_⟩
  intro files hint contents hdf hhint hopens hall
  exact serial_contents _ hdf hhint (fun _ => hopens) (fun p pak h => by cases h) hall hserial

end

/-! ## Two writers

Two runs of the same two writers: in one they take turns and the archive has what both added, in the
other the second is let in while the first goes on after a rebuild, and what it added is lost.
-/

/-- The status a call would return now. -/
def call_status {ι : Type} (df : Deflate) (w : World ι Bytes Archive) (p : ι) (k : Env × Call) :
    Option Status :=
  match w.stage p with
  | .ready (some i) pak => some (pakka_call df k.1 (w.data i) pak k.2).status
  | _ => none

/-- The names the file at the path opens with. -/
def names_at_path {ι : Type} (w : World ι Bytes Archive) : Option (List CStr) :=
  match pakka_open_ex CStr.empty .read .pak (some (w.data w.path)) with
  | .ok pak => some (pak.entries.map Entry.filename)
  | .error _ => none

/-- Opening a PAK archive, with its lock. -/
def open_locked {ι : Type} (p : ι) (mode : WriteMode) :
    List (ι × Action (WriteMode × Format) (Env × Call)) :=
  [(p, .open_path), (p, .try_lock), (p, .load (mode, .pak))]

/-- Adding an entry. -/
def add_entry {ι : Type} (p : ι) (c : Call) : ι × Action (WriteMode × Format) (Env × Call) :=
  (p, .call (calm_env, c) [])

/-- The steps of a commit that rebuilds. -/
def rebuild {ι : Type} (p : ι) : List (ι × Action (WriteMode × Format) (Env × Call)) :=
  [(p, .call (calm_env, .commit) []), (p, .close_old), (p, .rename), (p, .reopen)]

/-- One writer adds in place while the other is refused the lock, and then adds in its turn. -/
def taking_turns : List (Bool × Action (WriteMode × Format) (Env × Call)) :=
  open_locked false ⟨.read_write, by decide⟩ ++
    [add_entry false add_a, (true, .open_path), (true, .try_lock),
      (false, .call (calm_env, .commit) []), (false, .close)] ++
    open_locked true ⟨.read_write, by decide⟩ ++
    [add_entry true add_zeros, (true, .call (calm_env, .commit) []), (true, .close)]

/-- What they do, in the order it takes effect. -/
def turns_deeds : List (Deed Bool (WriteMode × Format) (Env × Call)) :=
  [.load false (⟨.read_write, by decide⟩, .pak), .call false (calm_env, add_a),
    .call false (calm_env, .commit), .load true (⟨.read_write, by decide⟩, .pak),
    .call true (calm_env, add_zeros), .call true (calm_env, .commit)]

set_option maxRecDepth 100000 in
theorem turns_trace : (World.initial created_pak.disk).trace (writer .storing CStr.empty)
    taking_turns = turns_deeds := rfl

/-- A call that succeeds on a small PAK-class archive. -/
def SmallStep (c : Call) (disk : Bytes) (pak : Archive) : Prop :=
  (pakka_call .storing calm_env disk pak c).status = .ok ∧
    pakka_format_is_zip pak.format = false ∧ pak.entries.length ≤ 2

instance (c : Call) (disk : Bytes) (pak : Archive) : Decidable (SmallStep c disk pak) :=
  inferInstanceAs (Decidable (_ ∧ _))

theorem SmallStep.succeeds {c : Call} {disk : Bytes} {pak : Archive} (h : SmallStep c disk pak) :
    Succeeds .storing (fun _ => []) c disk pak := by
  obtain ⟨hok, hzip, hlen⟩ := h
  refine ⟨hok, fun hz => ?_, fun _ => ?_⟩
  · rw [hzip] at hz
    cases hz
  · rw [commit_countable, hzip, if_neg (by decide)]
    exact hlen.trans (by decide)

/-- Both writers succeed and commit before they leave. -/
theorem turns_committed : AllCommitted .storing CStr.empty (fun _ => []) .pak true
    ⟨created_pak.disk, none⟩ turns_deeds := by
  -- every state on the way is the one that is computed
  have hsmall :
      ∀ s₁ ∈ (⟨created_pak.disk, none⟩ : Serial Bool Bytes Archive).step (writer .storing CStr.empty)
        (.load false (⟨.read_write, by decide⟩, .pak)),
      (∀ x ∈ s₁.current, SmallStep add_a s₁.contents x.2) ∧
      ∀ s₂ ∈ s₁.step (writer .storing CStr.empty) (.call false (calm_env, add_a)),
      (∀ x ∈ s₂.current, SmallStep .commit s₂.contents x.2) ∧
      ∀ s₃ ∈ s₂.step (writer .storing CStr.empty) (.call false (calm_env, .commit)),
      ∀ s₄ ∈ s₃.step (writer .storing CStr.empty) (.load true (⟨.read_write, by decide⟩, .pak)),
      (∀ x ∈ s₄.current, SmallStep add_zeros s₄.contents x.2) ∧
      ∀ s₅ ∈ s₄.step (writer .storing CStr.empty) (.call true (calm_env, add_zeros)),
      ∀ x ∈ s₅.current, SmallStep .commit s₅.contents x.2 := by
    decide +kernel
  refine ⟨rfl, rfl, fun s₁ h₁ => ?_⟩
  obtain ⟨hadd, hsmall⟩ := hsmall s₁ h₁
  refine ⟨rfl, fun q pak hq => (hadd (q, pak) hq).succeeds, fun s₂ h₂ => ?_⟩
  obtain ⟨hcommit, hsmall⟩ := hsmall s₂ h₂
  refine ⟨rfl, fun q pak hq => (hcommit (q, pak) hq).succeeds, fun s₃ h₃ => ?_⟩
  refine ⟨rfl, rfl, fun s₄ h₄ => ?_⟩
  obtain ⟨hadd, hsmall⟩ := hsmall s₃ h₃ s₄ h₄
  refine ⟨rfl, fun q pak hq => (hadd (q, pak) hq).succeeds, fun s₅ h₅ => ?_⟩
  exact ⟨rfl, fun q pak hq => (hsmall s₅ h₅ (q, pak) hq).succeeds, fun _ _ => rfl⟩

/-- A created archive opens and is empty. -/
theorem created_pak_holding : OpensHolding .storing (some created_pak.disk) .pak [] := by
  have hd : PakDirectory created_pak.disk .pak ⟨ascii "PACK", 56, 64, false⟩ 12 0 :=
    ⟨⟨by decide +kernel, by decide +kernel, by decide +kernel, by decide, by decide +kernel,
      by decide, by decide⟩, fun _ he => (by cases he), fun _ => List.nodup_nil⟩
  exact ⟨_, rfl, fun path mode hpath =>
    ⟨_, (open_pak_iff rfl).mpr ⟨hpath, 12, 0, hd, rfl⟩, fun _ => rfl⟩⟩

/-- **Taking turns keeps both entries.** At no time both are past the lock, and in the end the file
at the path opens with what the first added and what the second added. -/
theorem locked_writers_serial_turns :
    ∃ w, (World.initial created_pak.disk).run (writer .storing CStr.empty) taking_turns = some w ∧
      (∀ p q, (w.stage p).past = true → (w.stage q).past = true → p = q) ∧
      OpensHolding .storing (some (w.data w.path)) .pak
        [(⟨ascii "a", by decide⟩, some [1]),
          (⟨ascii "b", by decide⟩, some (List.replicate 64 0))] := by
  obtain ⟨w, hw⟩ : ∃ w, (World.initial created_pak.disk).run (writer .storing CStr.empty)
      taking_turns = some w := Option.isSome_iff_exists.mp (by decide +kernel)
  have hsettled : ∀ p, (((World.initial created_pak.disk).run (writer .storing CStr.empty)
      taking_turns).bind fun w => (w.stage p).pending.map fun _ => ()) = none := by
    decide +kernel
  obtain ⟨hone, -, s, -, hpath, -, hedits⟩ := locked_writers_serial .storing CStr.empty
    created_pak.disk taking_turns w (by decide +kernel) hw
  have hend := hedits (fun _ => []) .pak [] Deflate.storing_correct (by decide) created_pak_holding
    (by rw [turns_trace]; exact turns_committed)
  rw [turns_trace] at hend
  refine ⟨w, hw, hone, ?_⟩
  rw [hpath fun p => ?_]
  · exact hend
  · have hp := hsettled p
    rw [hw] at hp
    exact Option.map_eq_none_iff.mp hp

/-- Two writers of whom one has rebuilt: the other opens, locks and loads what it renamed. -/
def side_by_side : List (Bool × Action (WriteMode × Format) (Env × Call)) :=
  open_locked false ⟨.read_write_atomic, by decide⟩ ++ [add_entry false add_a] ++ rebuild false ++
    open_locked true ⟨.read_write_atomic, by decide⟩

/-- The second one adds and commits, then the first one does. -/
def second_commits : List (Bool × Action (WriteMode × Format) (Env × Call)) :=
  side_by_side ++ [add_entry true add_zeros] ++ rebuild true

def first_commits : List (Bool × Action (WriteMode × Format) (Env × Call)) :=
  second_commits ++ [add_entry false (.add_memory lump_name [2])] ++ rebuild false

/-- Both have the file at the path open, both commits succeed, and the entry that the second one
committed is gone when the first one has. -/
theorem locked_writers_lose_update :
    let after := (World.initial created_pak.disk).run (writer .storing CStr.empty)
    ((after side_by_side).map fun w => ((w.stage false).held, (w.stage true).held, w.path)) =
        some (some 1, some 1, 1) ∧
      ((after (side_by_side ++ [add_entry true add_zeros])).bind fun w =>
        call_status .storing w true (calm_env, .commit)) = some .ok ∧
      (after second_commits).bind names_at_path =
        some [⟨ascii "a", by decide⟩, ⟨ascii "b", by decide⟩] ∧
      ((after (second_commits ++ [add_entry false (.add_memory lump_name [2])])).bind fun w =>
        call_status .storing w false (calm_env, .commit)) = some .ok ∧
      (after first_commits).bind names_at_path = some [⟨ascii "a", by decide⟩, lump_name] := by
  refine ⟨?_, ?_, ?_, ?_, ?_⟩ <;> decide +kernel

end Pakka
