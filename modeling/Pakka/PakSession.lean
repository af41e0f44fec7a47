/-
Sessions on PAK-class archives: what holds after any sequence of calls, failing ones
included.

`PakLive` is the invariant while the handle has its file, `PakRun` allows for a handle that
lost it. A clean handle has its directory in the file, with one exception: an add that fails
on a clean handle may have written into the directory already. `torn` follows a run and says
whether that is so.

The exception is the reason why the invariant has a parameter. `t` stands for "the directory may be
damaged", and what is promised of the file is promised when `t` is false. A commit that succeeds
makes it false again.
-/
import Pakka.PakFaults

set_option autoImplicit false

namespace Pakka

open ByteImage Logged

/-! ## Published directories under further writes

A directory in the file stays published as long as nothing is written where it stands.
-/

theorem pak_rows_congr {disk disk' : Bytes} {geom : Geometry} {lo hi : ℕ} (n : ℕ) {pos : ℕ}
    (h : SameBetween lo hi disk disk') (hlo : lo ≤ pos) (hhi : pos + n * geom.dir_entry_size ≤ hi)
    (hin : pos + n * geom.dir_entry_size ≤ disk.length) :
    pak_rows disk' geom n pos = pak_rows disk geom n pos := by
  induction n generalizing pos with
  | zero => rfl
  | succ n ih =>
    rw [Nat.succ_mul] at hhi hin
    rw [pak_rows, pak_rows, h.2 _ _ hlo (by omega) (by omega),
      ih (by omega) (by omega) (by omega)]

/-- Writes that spare the header and the directory leave an archive published. -/
theorem PakPublished.congr {disk disk' : Bytes} {pak : Archive} {geom : Geometry}
    (h : PakPublished disk pak geom) (hheader : SameBetween 0 PAKFILE_HEADER_SIZE disk disk')
    (hdir : SameBetween pak.diroffset.toNat (pak.diroffset.toNat + pak.dirlength.toNat)
      disk disk') : PakPublished disk' pak geom := by
  have hh := h.directory.header
  have hfits := hh.fits
  have hin := hh.in_file
  have hlen := hheader.1
  have h12 : PAKFILE_HEADER_SIZE = 12 := rfl
  have hwhole : pak.dirlength.toNat / geom.dir_entry_size * geom.dir_entry_size =
      pak.dirlength.toNat := Nat.div_mul_cancel (Nat.dvd_of_mod_eq_zero hh.whole_rows)
  have hents : pak_row_entries disk' pak.format geom
      (pak.dirlength.toNat / geom.dir_entry_size) pak.diroffset.toNat =
      pak_row_entries disk pak.format geom
        (pak.dirlength.toNat / geom.dir_entry_size) pak.diroffset.toNat := by
    unfold pak_row_entries
    rw [pak_rows_congr _ hdir (Nat.le_refl _) (by omega) (by omega)]
  have hword : ∀ off, off + 4 ≤ 12 → readExact disk' off 4 = readExact disk off 4 := by
    intro off ho
    exact readExact_congr (hheader.2 off 4 (Nat.zero_le _) ho (by omega))
  refine ⟨⟨⟨?_, by omega, ?_, hh.diroffset_ge, by omega, hh.whole_rows, hh.count_le⟩, ?_, ?_⟩, ?_,
    h.on_disk⟩
  · rw [hheader.2 0 4 (Nat.le_refl _) (by omega) (by omega)]
    exact hh.signature
  · have hw := hh.words
    unfold read_pak_header at hw ⊢
    rw [hword 4 (by omega), hword 8 (by omega)]
    exact hw
  · rw [hents]
    intro e he
    have := pak_row_in_range_iff.mp (h.directory.in_range e he)
    exact pak_row_in_range_iff.mpr ⟨this.1, Nat.le_trans this.2 hlen⟩
  · rw [hents]
    exact h.directory.nodup
  · rw [hents]
    exact h.rows

/-- Some write of a log reaches into the directory of the handle. -/
def Tears (pak : Archive) (log : List (FileOp FileId)) : Prop :=
  ∃ off bs, FileOp.write .live off bs ∈ log ∧
    off < pak.diroffset.toNat + pak.dirlength.toNat ∧ pak.diroffset.toNat < off + bs.length

theorem Tears.not_nil (pak : Archive) : ¬ Tears pak [] := by
  rintro ⟨off, bs, h, -⟩
  cases h

/-- A log of writes that does not tear the directory is confined to its outside. -/
theorem confined_of_not_tears {pak : Archive} {lo hi : ℕ} {log : List (FileOp FileId)}
    (h : Confined .live lo hi log) (ht : ¬ Tears pak log) :
    Confined .live pak.diroffset.toNat (pak.diroffset.toNat + pak.dirlength.toNat) log := by
  intro op ho
  obtain ⟨off, bs, rfl, -⟩ := h op ho
  refine ⟨off, bs, rfl, ?_⟩
  by_contra hne
  exact ht ⟨off, bs, ho, by omega⟩

/-! ## The invariant of a session

What holds between calls, in either state of the handle, and how each call keeps it.
-/

/-- A session whose handle has its file, `disk`. While `t` does not hold, a clean handle is
published. -/
structure PakLive (format : Format) (geom : Geometry) (t : Prop) (s : Session) (disk : Bytes) :
    Prop where
  file : s.files .live = some disk
  format : s.pak.format = format
  live : s.pak.fp = true
  state : PakState disk.length s.pak geom
  published : s.pak.dirty = false → ¬ t → s.pak.entries.length ≤ PAKFILE_MAX_ENTRIES →
    PakPublished disk s.pak geom

/-- A handle that lost its file: dirty for good, and no call or close succeeds in publishing
it. -/
def PakLost (s : Session) : Prop := s.pak.fp = false ∧ s.pak.dirty = true

/-- The invariant of any run. -/
def PakRun (format : Format) (geom : Geometry) (t : Prop) (s : Session) : Prop :=
  PakLost s ∨ ∃ disk, PakLive format geom t s disk

/-- The directory of a clean handle is torn after a call if it was before, or if the call failed
with a write into it. -/
def torn_step (df : Deflate) (s : Session) (t : Prop) (env : Env) (c : Call) : Prop :=
  s.pak.dirty = false ∧ (s.step df env c).2.pak.dirty = false ∧
    (t ∨ Tears s.pak (pakka_call df env s.disk s.pak c).log)

/-- Whether the directory is torn after a run. -/
def torn (df : Deflate) : Session → Prop → List (Env × Call) → Prop
  | _, t, [] => t
  | s, t, (env, c) :: cs => torn df (s.step df env c).2 (torn_step df s t env c) cs

variable {df : Deflate} {format : Format} {geom : Geometry} {t : Prop} {s : Session}
  {disk : Bytes} {env : Env} {c : Call}

theorem PakLive.disk_eq (h : PakLive format geom t s disk) : s.disk = disk := by
  rw [Session.disk, h.file]
  rfl

theorem PakLive.disk_state (h : PakLive format geom t s disk) :
    PakState s.disk.length s.pak geom := by
  rw [h.disk_eq]
  exact h.state

theorem PakLive.geometry (h : PakLive format geom t s disk) :
    pakka_pak_geometry format = some geom := h.format ▸ h.state.geometry

theorem PakLive.mono {t' : Prop} (h : PakLive format geom t s disk) (ht : t → t') :
    PakLive format geom t' s disk :=
  { h with published := fun h1 h2 h3 => h.published h1 (fun hx => h2 (ht hx)) h3 }

/-- A call that leaves handle and files alone. -/
theorem PakLive.unchanged (h : PakLive format geom t s disk)
    (hpak : (pakka_call df env s.disk s.pak c).pak = s.pak)
    (hlog : (pakka_call df env s.disk s.pak c).log = []) :
    PakLive format geom (torn_step df s t env c) (s.step df env c).2 disk := by
  have hs : (s.step df env c).2 = s := by
    unfold Session.step
    simp only [hpak, hlog, FileOp.run_nil]
  have ht : s.pak.dirty = false → t → torn_step df s t env c := by
    intro hd hx
    refine ⟨hd, ?_, Or.inl hx⟩
    rw [hs]
    exact hd
  rw [hs]
  exact { h with published := fun h1 h2 h3 => h.published h1 (fun hx => h2 (ht h1 hx)) h3 }

/-- **A call but a commit that fails.** Its writes stay behind the payloads. -/
theorem PakLive.call_failed (h : PakLive format geom t s disk) (hc : c ≠ .commit)
    (hfail : (pakka_call df env s.disk s.pak c).status ≠ .ok) :
    ∃ disk', PakLive format geom (torn_step df s t env c) (s.step df env c).2 disk' := by
  have hpak := pakka_call_failed hc hfail
  obtain ⟨hconf, -⟩ := pak_call_log df env s.disk s.pak c (not_zip_of_geometry h.state.geometry) hc
  obtain ⟨disk', hrun, hsame⟩ := hconf.run_self h.file
  refine ⟨disk', ⟨hrun, ?_, ?_, ?_, ?_⟩⟩
  · exact (congrArg Archive.format hpak).trans h.format
  · exact (congrArg Archive.fp hpak).trans h.live
  · change PakState _ (pakka_call df env s.disk s.pak c).pak geom
    rw [hpak]
    exact h.state.mono hsame.1
  · change (pakka_call df env s.disk s.pak c).pak.dirty = false → _ →
      (pakka_call df env s.disk s.pak c).pak.entries.length ≤ _ →
      PakPublished disk' (pakka_call df env s.disk s.pak c).pak geom
    rw [hpak]
    intro hd hnt hmax
    have hd' : (s.step df env c).2.pak.dirty = false := by
      change (pakka_call df env s.disk s.pak c).pak.dirty = false
      rw [hpak]
      exact hd
    have hnt' : ¬ t ∧ ¬ Tears s.pak (pakka_call df env s.disk s.pak c).log := by
      constructor
      · exact fun hx => hnt ⟨hd, hd', Or.inl hx⟩
      · exact fun hx => hnt ⟨hd, hd', Or.inr hx⟩
    obtain ⟨disk2, hrun2, hsame2⟩ := (confined_of_not_tears hconf hnt'.2).run_self h.file
    obtain rfl := Option.some.inj (hrun.symm.trans hrun2)
    exact (h.published hd hnt'.1 hmax).congr
      (hsame.mono (Nat.le_refl _) h.state.payload_end_ge) hsame2

/-- What the effect of a call keeps. -/
theorem PakEffect.kept {pak pak' : Archive} {log : List (FileOp FileId)}
    (h : PakEffect env pak c log pak') :
    pak'.format = pak.format ∧ pak'.fp = pak.fp ∧ pak'.is_new = pak.is_new := by
  have hadd : ∀ {p n st len log pak'}, PakAdded env pak p n st len log pak' →
      pak'.format = pak.format ∧ pak'.fp = pak.fp ∧ pak'.is_new = pak.is_new := by
    intro p n st len log pak' ha
    cases ha <;> exact ⟨rfl, rfl, rfl⟩
  cases h with
  | add_file _ _ _ ha => exact hadd ha
  | add_memory _ ha => exact hadd ha
  | name hn =>
    cases hn with
    | copy =>
      unfold pak_link_copy_entry
      simp only
      split_ifs <;> exact ⟨rfl, rfl, rfl⟩
    | _ => exact ⟨rfl, rfl, rfl⟩

/-- No call changes how the handle commits. -/
theorem PakEffect.atomic {pak pak' : Archive} {log : List (FileOp FileId)}
    (h : PakEffect env pak c log pak') : pak'.atomic_commit = pak.atomic_commit := by
  have hadd : ∀ {p n st len log pak'}, PakAdded env pak p n st len log pak' →
      pak'.atomic_commit = pak.atomic_commit := by
    intro p n st len log pak' ha
    cases ha <;> rfl
  cases h with
  | add_file _ _ _ ha => exact hadd ha
  | add_memory _ ha => exact hadd ha
  | name hn =>
    cases hn with
    | copy =>
      rw [pak_link_copy_entry_eq]
      rfl
    | _ => rfl

/-- What the effect of a call makes dirty, or leaves published. -/
theorem PakEffect.dirty_or {pak pak' : Archive} {log : List (FileOp FileId)}
    (h : PakEffect env pak c log pak') :
    pak'.dirty = true ∨ log = [] ∧ pak'.dirty = pak.dirty ∧ pak'.entries = pak.entries ∧
      pak'.diroffset = pak.diroffset ∧ pak'.dirlength = pak.dirlength := by
  have hadd : ∀ {p n st len log pak'}, PakAdded env pak p n st len log pak' →
      pak'.dirty = true := by
    intro p n st len log pak' ha
    cases ha <;> rfl
  cases h with
  | add_file _ _ _ ha => exact Or.inl (hadd ha)
  | add_memory _ ha => exact Or.inl (hadd ha)
  | name hn =>
    cases hn with
    | delete => exact Or.inl rfl
    | same => exact Or.inr ⟨rfl, rfl, rfl, rfl, rfl⟩
    | rename => exact Or.inl rfl
    | copy =>
      left
      unfold pak_link_copy_entry
      simp only
      split_ifs <;> rfl
    | set_compression => exact Or.inr ⟨rfl, rfl, rfl, rfl, rfl⟩

/-- The effect of a call keeps the handle in order, and its file. -/
theorem PakState.effect {pak pak' : Archive} {log : List (FileOp FileId)} {fs : Files FileId}
    (h : PakState disk.length pak geom) (he : PakEffect env pak c log pak')
    (hfs : fs .live = some disk) :
    ∃ disk', FileOp.run fs log .live = some disk' ∧ PakState disk'.length pak' geom := by
  cases he with
  | add_file hname _ _ ha =>
    obtain ⟨disk', e, hrun, ho⟩ := h.added hname ha hfs
    exact ⟨disk', hrun, ho.state⟩
  | add_memory hname ha =>
    obtain ⟨disk', e, hrun, ho⟩ := h.added hname ha hfs
    exact ⟨disk', hrun, ho.state⟩
  | name hn => exact ⟨disk, hfs, h.name_effect hn⟩

/-- **A call but a commit that succeeds.** It leaves the handle dirty, or as published as it
was. -/
theorem PakLive.call_ok (h : PakLive format geom t s disk) (hc : c ≠ .commit)
    (hok : (pakka_call df env s.disk s.pak c).status = .ok) :
    ∃ disk', PakLive format geom (s.pak.dirty = false ∧ t) (s.step df env c).2 disk' := by
  have he := pak_call_ok (not_zip_of_geometry h.state.geometry) hc hok
  obtain ⟨hk1, hk2, -⟩ := he.kept
  obtain ⟨disk', hrun, hst⟩ := h.state.effect he h.file
  refine ⟨disk', ⟨hrun, hk1.trans h.format, hk2.trans h.live, hst, fun hd hnt hmax => ?_⟩⟩
  rcases he.dirty_or with hdirty | ⟨hlog, hd', hents, hdo, hdl⟩
  · exact absurd (hd.symm.trans hdirty) (by simp)
  · rw [hlog] at hrun
    obtain rfl := Option.some.inj (h.file.symm.trans hrun)
    have hclean : s.pak.dirty = false := hd' ▸ hd
    have hp := h.published hclean (fun hx => hnt ⟨hclean, hx⟩) (hents ▸ hmax)
    refine ⟨?_, ?_, ?_⟩
    · change PakDirectory _ (pakka_call df env s.disk s.pak c).pak.format _ _ _
      rw [hk1]
      change PakDirectory _ _ _ (pakka_call df env s.disk s.pak c).pak.diroffset
        (pakka_call df env s.disk s.pak c).pak.dirlength
      rw [hdo, hdl]
      exact hp.directory
    · change pak_row_entries _ (pakka_call df env s.disk s.pak c).pak.format _
        ((pakka_call df env s.disk s.pak c).pak.dirlength.toNat / _)
        (pakka_call df env s.disk s.pak c).pak.diroffset.toNat =
          (pakka_call df env s.disk s.pak c).pak.entries.map pak_row_entry
      rw [hk1, hdo, hdl, hents]
      exact hp.rows
    · change ∀ e ∈ (pakka_call df env s.disk s.pak c).pak.entries, _
      rw [hents]
      exact hp.on_disk

/-! ## Commits

A commit succeeds, fails and restores, or loses the file.
-/

theorem Step.of_ok {x : HandleOp Archive} {pak : Archive} (h : x.res = .ok pak) :
    Step.of x = ⟨.ok, pak, x.log⟩ := by
  unfold Step.of
  rw [h]

theorem Step.of_error {x : HandleOp Archive} {st : Status} {pak : Archive}
    (h : x.res = .error (st, pak)) : Step.of x = ⟨st, pak, x.log⟩ := by
  unfold Step.of
  rw [h]

/-- How a commit on a dirty PAK-class handle ends. -/
inductive CommitOutcome (env : Env) (disk : Bytes) (pak : Archive) (geom : Geometry)
    (x : HandleOp Archive) : Prop where
  | done {pak' : Archive} {disk' : Bytes} (hres : x.res = .ok pak')
      (hrun : ∀ fs, fs .live = some disk → FileOp.run fs x.log .live = some disk')
      (h : PakCommitted env disk pak disk' pak' geom) : CommitOutcome env disk pak geom x
  | kept {st : Status} {pak' : Archive} (hres : x.res = .error (st, pak')) (hst : IsError st)
      (hconf : Confined .live PAKFILE_HEADER_SIZE pak.payload_end x.log ∨ ScratchOnly x.log)
      (hpak : SameButDirectory pak pak') : CommitOutcome env disk pak geom x
  | lost {st : Status} {pak' : Archive} (hres : x.res = .error (st, pak')) (hst : IsError st)
      (hfp : pak'.fp = false) (hdirty : pak'.dirty = pak.dirty) : CommitOutcome env disk pak geom x

theorem SameButDirectory.refl (pak : Archive) : SameButDirectory pak pak := ⟨_, _, rfl⟩

/-- **The ways out of a commit** on a dirty PAK-class handle. -/
theorem pak_commit_outcome (env : Env) {pak : Archive} (h : PakState disk.length pak geom)
    (hfp : pak.fp = true) (hdirty : pak.dirty = true) :
    CommitOutcome env disk pak geom (pakka_commit env disk pak) := by
  have hsig : pak.signature.length = 4 := by
    rw [h.signature, geometry_signature_length h.geometry]
  cases hres : (pakka_commit env disk pak).res with
  | ok pak' =>
    obtain ⟨disk', hrun, hdone⟩ := pak_commit_ok h hdirty hres
    exact CommitOutcome.done hres hrun hdone
  | error err =>
    unfold pakka_commit at hres ⊢
    rw [if_neg (by simp [hdirty])] at hres ⊢
    by_cases hw : ¬ pak.writable ∨ ¬ pak.fp
    · rw [if_pos hw] at hres ⊢
      obtain rfl := Except.error.inj hres
      exact CommitOutcome.kept rfl invalid_argument_isError (Or.inl (Confined.nil _ _ _))
        (SameButDirectory.refl pak)
    rw [if_neg hw, not_zip_of_geometry h.geometry, if_neg (by simp)] at hres ⊢
    by_cases hp : ¬ pak.needs_rebuild ∧ ¬ pak.atomic_commit
    · rw [if_pos hp] at hres ⊢
      obtain ⟨hfail, hconf⟩ := pakka_commit_in_place_failed env hsig
      obtain ⟨hst, hpak⟩ := hfail err hres
      obtain ⟨st, pak'⟩ := err
      exact CommitOutcome.kept hres hst (Or.inl hconf) hpak
    · rw [if_neg hp] at hres ⊢
      cases pakka_commit_rebuild_outcome env h hfp with
      | kept hres' hst hlog hpak =>
        rcases hpak with rfl | rfl
        · exact CommitOutcome.kept hres' hst (Or.inr hlog) (SameButDirectory.refl _)
        · exact CommitOutcome.lost hres' hst rfl rfl
      | published _ _ _ _ hres' =>
        rcases hres' with hok | ⟨st, p, hp', hst, hlost⟩
        · rw [hres] at hok
          cases hok
        · exact CommitOutcome.lost hp' hst hlost.2.1 hlost.2.2

/-- A commit on a clean handle does nothing. -/
theorem pakka_commit_clean {pak : Archive} (h : pak.dirty = false) :
    pakka_commit env disk pak = pure pak := by
  unfold pakka_commit
  rw [if_pos (by simp [h])]

/-- **A commit keeps the invariant**, and when it succeeds on a dirty handle it published it. -/
theorem PakLive.commit (df : Deflate) (env : Env) (h : PakLive format geom t s disk) :
    PakRun format geom (torn_step df s t env .commit) (s.step df env .commit).2 ∧
      ((s.step df env .commit).1 = .ok → s.pak.dirty = true →
        ∃ disk', (s.step df env .commit).2.files .live = some disk' ∧
          PakCommitted env disk s.pak disk' (s.step df env .commit).2.pak geom) := by
  have hdisk := h.disk_eq
  cases hd : s.pak.dirty with
  | false =>
    have hstep : pakka_call df env s.disk s.pak .commit = ⟨.ok, s.pak, []⟩ := by
      rw [pakka_call, pakka_commit_clean hd]
      rfl
    refine ⟨Or.inr ⟨disk, h.unchanged ?_ ?_⟩, fun _ hx => by cases hx⟩ <;> rw [hstep]
  | true =>
    have hnt : ¬ torn_step df s t env .commit := by
      rintro ⟨hx, -⟩
      rw [hd] at hx
      cases hx
    cases pak_commit_outcome env h.state h.live hd with
    -- the file is a new one, with its directory
    | @done pak' disk' hres hrun hdone =>
      have hstep : pakka_call df env s.disk s.pak .commit =
          ⟨.ok, pak', (pakka_commit env disk s.pak).log⟩ := by
        rw [pakka_call, hdisk, Step.of_ok hres]
      have hs : s.step df env .commit =
          (.ok, ⟨FileOp.run s.files (pakka_commit env disk s.pak).log, pak'⟩) := by
        unfold Session.step
        rw [hstep]
      rw [hs]
      refine ⟨Or.inr ⟨disk', ⟨hrun _ h.file, hdone.format.trans h.format, hdone.live, hdone.state,
        fun _ _ hmax => hdone.published hmax⟩⟩, fun _ _ => ⟨disk', hrun _ h.file, hdone⟩⟩
    -- a failed commit may have written behind the payloads, and at most the directory is gone
    | @kept st pak' hres hst hconf hpak =>
      have hs : s.step df env .commit =
          (st, ⟨FileOp.run s.files (pakka_commit env disk s.pak).log, pak'⟩) := by
        unfold Session.step
        rw [pakka_call, hdisk, Step.of_error hres]
      have hfile : ∃ disk', FileOp.run s.files (pakka_commit env disk s.pak).log .live =
          some disk' ∧ disk.length ≤ disk'.length := by
        rcases hconf with hconf | hscr
        · obtain ⟨disk', hrun, hsame⟩ := hconf.run_self h.file
          exact ⟨disk', hrun, hsame.1⟩
        · refine ⟨disk, ?_, Nat.le_refl _⟩
          rw [FileOp.run_of_not_touches (hscr.not_touches (by simp)), h.file]
      obtain ⟨disk', hrun, hlen⟩ := hfile
      obtain ⟨d, l, rfl⟩ := hpak
      rw [hs]
      refine ⟨Or.inr ⟨disk', hrun, h.format, h.live, ?_, ?_⟩, fun hx => absurd hx hst⟩
      · have hst' := h.state.mono hlen
        exact ⟨hst'.geometry, hst'.signature, hst'.tail, hst'.count, hst'.payload_end_ge,
          hst'.end_in_file, hst'.nodup, fun e he => (hst'.entries e he).mono rfl (Nat.le_refl _),
          hst'.staged⟩
      · intro hx
        change s.pak.dirty = false at hx
        rw [hd] at hx
        cases hx
    -- renamed, and not opened again
    | @lost st pak' hres hst hfp hdirty =>
      have hs : s.step df env .commit =
          (st, ⟨FileOp.run s.files (pakka_commit env disk s.pak).log, pak'⟩) := by
        unfold Session.step
        rw [pakka_call, hdisk, Step.of_error hres]
      rw [hs]
      exact ⟨Or.inl ⟨hfp, hdirty.trans hd⟩, fun hx => absurd hx hst⟩

/-! ## Runs

By induction over the calls.
-/

/-- On a handle that lost its file no call but a commit does anything, except for setting the
method of later adds. -/
theorem lost_call (df : Deflate) (env : Env) (disk : Bytes) {pak : Archive} (hfp : pak.fp = false)
    (hc : c ≠ .commit) :
    (pakka_call df env disk pak c).log = [] ∧
      ∃ method, (pakka_call df env disk pak c).pak = { pak with pk3_compression := method } := by
  have hw : ¬ pak.writable ∨ ¬ pak.fp := Or.inr (by simp [hfp])
  have hfail : ∀ x : Op Archive, x = fail .invalid_argument → (Step.ofOp pak x).log = [] ∧
      ∃ method, (Step.ofOp pak x).pak = { pak with pk3_compression := method } := by
    rintro x rfl
    exact ⟨rfl, _, rfl⟩
  cases c with
  | commit => exact absurd rfl hc
  | set_compression method =>
    simp only [pakka_call, pakka_set_compression]
    split_ifs <;> exact ⟨rfl, _, rfl⟩
  | add_file p n => exact hfail _ (by unfold pakka_add_file; rw [if_pos hw])
  | add_memory n d => exact hfail _ (by unfold pakka_add_memory; rw [if_pos hw])
  | delete n => exact hfail _ (by unfold pakka_delete; rw [if_pos hw])
  | rename a b => exact hfail _ (by unfold pakka_rename; rw [if_pos hw])
  | copy a b => exact hfail _ (by unfold pakka_copy; rw [if_pos hw])

/-- A commit on a handle that lost its file leaves all as it is, and on a dirty one it fails. -/
theorem lost_commit (env : Env) (disk : Bytes) {pak : Archive} (hfp : pak.fp = false) :
    pakka_commit env disk pak = pure pak ∧ pak.dirty = false ∨
      pakka_commit env disk pak = fail (.invalid_argument, pak) ∧ pak.dirty = true := by
  cases hd : pak.dirty with
  | false => exact Or.inl ⟨pakka_commit_clean hd, rfl⟩
  | true =>
    right
    refine ⟨?_, rfl⟩
    unfold pakka_commit
    rw [if_neg (by simp [hd]), if_pos (Or.inr (by simp [hfp]))]

/-- What is changed on a handle that lost its file cannot be committed. -/
theorem lost_commit_fails (env : Env) (disk : Bytes) {pak : Archive} (hfp : pak.fp = false)
    (hd : pak.dirty = true) : pakka_commit env disk pak = fail (.invalid_argument, pak) := by
  rcases lost_commit env disk hfp with ⟨-, hclean⟩ | ⟨h, -⟩
  · rw [hclean] at hd
    cases hd
  · exact h

/-- **No call brings a lost file back.** -/
theorem lost_step (df : Deflate) (env : Env) (c : Call) (hfp : s.pak.fp = false) : ∃ method,
    (s.step df env c).2 = ⟨s.files, { s.pak with pk3_compression := method }⟩ := by
  by_cases hc : c = .commit
  · subst hc
    refine ⟨s.pak.pk3_compression, ?_⟩
    unfold Session.step
    rcases lost_commit env s.disk hfp with ⟨h, -⟩ | ⟨h, -⟩ <;>
    · rw [pakka_call, h]
      rfl
  · obtain ⟨hlog, method, hpak⟩ := lost_call df env s.disk hfp hc
    refine ⟨method, ?_⟩
    unfold Session.step
    simp only [hlog, hpak]
    rfl

theorem PakLost.step (h : PakLost s) : PakLost (s.step df env c).2 ∧
    ((s.step df env c).1 = .ok → c ≠ .commit) := by
  obtain ⟨hfp, hd⟩ := h
  constructor
  · obtain ⟨method, hs⟩ := lost_step df env c hfp
    rw [hs]
    exact ⟨hfp, hd⟩
  · rintro hok rfl
    unfold Session.step at hok
    rw [pakka_call, lost_commit_fails env s.disk hfp hd] at hok
    cases hok

/-- **One call**, whatever fails. -/
theorem PakRun.step (df : Deflate) (env : Env) (c : Call) (h : PakRun format geom t s) :
    PakRun format geom (torn_step df s t env c) (s.step df env c).2 := by
  rcases h with h | ⟨disk, h⟩
  · exact Or.inl h.step.1
  by_cases hc : c = .commit
  · subst hc
    exact (h.commit df env).1
  by_cases hok : (pakka_call df env s.disk s.pak c).status = .ok
  · obtain ⟨disk', h'⟩ := h.call_ok hc hok
    refine Or.inr ⟨disk', { h' with published := fun hd hnt hmax => ?_ }⟩
    exact h'.published hd (fun hx => hnt ⟨hx.1, hd, Or.inl hx.2⟩) hmax
  · obtain ⟨disk', h'⟩ := h.call_failed hc hok
    exact Or.inr ⟨disk', h'⟩

/-- **Any run**, whatever fails. -/
theorem PakRun.run (calls : List (Env × Call)) {t : Prop} {s : Session}
    (h : PakRun format geom t s) : PakRun format geom (torn df s t calls) (s.run df calls) := by
  induction calls generalizing t s with
  | nil => exact h
  | cons p calls ih => exact ih (h.step df _ _)

/-- A call that succeeds keeps the invariant without tearing. -/
theorem PakLive.step_ok (h : PakLive format geom False s disk)
    (hok : (s.step df env c).1 = .ok) :
    ∃ disk', PakLive format geom False (s.step df env c).2 disk' := by
  by_cases hc : c = .commit
  · subst hc
    obtain ⟨hrun, hdone⟩ := h.commit df env
    cases hd : s.pak.dirty with
    | false =>
      have hstep : pakka_call df env s.disk s.pak .commit = ⟨.ok, s.pak, []⟩ := by
        rw [pakka_call, pakka_commit_clean hd]
        rfl
      refine ⟨disk, ?_⟩
      have hu : PakLive format geom (torn_step df s False env .commit)
          (s.step df env .commit).2 disk := h.unchanged (by rw [hstep]) (by rw [hstep])
      refine hu.mono ?_
      rintro ⟨-, -, hx | hx⟩
      · exact hx
      · rw [hstep] at hx
        exact Tears.not_nil _ hx
    | true =>
      obtain ⟨disk', hfile, hcom⟩ := hdone hok hd
      exact ⟨disk', ⟨hfile, hcom.format.trans h.format, hcom.live, hcom.state,
        fun _ _ hmax => hcom.published hmax⟩⟩
  · obtain ⟨disk', h'⟩ := h.call_ok hc hok
    exact ⟨disk', h'.mono And.right⟩

/-- A run of calls that all succeed. -/
theorem PakLive.runOk (calls : List (Env × Call)) {s s' : Session} {disk : Bytes}
    (h : PakLive format geom False s disk) (hrun : s.runOk df calls = some s') :
    ∃ disk', PakLive format geom False s' disk' := by
  induction calls generalizing s disk with
  | nil =>
    obtain rfl := Option.some.inj hrun
    exact ⟨disk, h⟩
  | cons p calls ih =>
    obtain ⟨env, c⟩ := p
    rw [Session.runOk] at hrun
    split_ifs at hrun with hok
    obtain ⟨disk', h'⟩ := h.step_ok hok
    exact ih h' hrun

/-! ## Starting

A session starts from an archive that opened, or from an empty one.
-/

/-- A row of a format without compression words has neither flag nor size. -/
theorem read_pak_row_plain {format : Format} {geom : Geometry} {row : Bytes}
    (h : geom.has_compression = false) :
    (read_pak_row format geom row).dk_is_compressed = false ∧
      (read_pak_row format geom row).dk_compressed_size = 0 := by
  unfold read_pak_row
  simp only
  split
  · exact ⟨rfl, rfl⟩
  · simp [h]

theorem read_pak_row_pak_row_entry (format : Format) (geom : Geometry) (row : Bytes) :
    pak_row_entry (read_pak_row format geom row) = read_pak_row format geom row := by
  unfold read_pak_row
  simp only
  split <;> rfl

/-- The handle that an open delivers is live and published. -/
theorem PakLive.opened {path : CStr} {mode : OpenMode} {hint : Format} {pak : Archive}
    (h : pakka_open_ex path mode hint (some disk) = .ok pak) (hcls : IsPakClass pak.format) :
    ∃ geom, PakLive pak.format geom False (Session.opened disk pak) disk := by
  have hfresh := open_pak_fresh hcls h
  obtain ⟨geom, diroffset, dirlength, hg, hd, heq⟩ := open_pak_class (open_pak_class_hint hcls h) h
  have hents : pak.entries = pak_row_entries disk pak.format geom
      (dirlength.toNat / geom.dir_entry_size) diroffset.toNat := by
    have := congrArg Archive.entries heq
    exact this
  have hsig : pak.signature = geom.signature := by
    have := congrArg Archive.signature heq
    exact this
  have hdo : pak.diroffset = diroffset := by
    have := congrArg Archive.diroffset heq
    exact this
  have hdl : pak.dirlength = dirlength := by
    have := congrArg Archive.dirlength heq
    exact this
  have hinv := hfresh.invariant
  -- every entry is a row, so writing it again gives the row back
  have hrow : ∀ e ∈ pak.entries, ∃ row, read_pak_row pak.format geom row = e := by
    intro e he
    rw [hents] at he
    obtain ⟨row, -, hrow⟩ := List.mem_map.mp he
    exact ⟨row, hrow⟩
  have hmax : pak.payload_end = max_payload_end PAKFILE_HEADER_SIZE pak.entries := by
    rw [max_payload_end_eq]
    exact hinv.payload_end
  obtain ⟨hle12, hle⟩ := le_max_payload_end PAKFILE_HEADER_SIZE pak.entries
  rw [← hmax] at hle12 hle
  refine ⟨geom, rfl, rfl, hfresh.live, ⟨hg, hsig, hinv.tail, ?_, hle12, ?_, hinv.nodup, ?_, ?_⟩,
    ?_⟩
  · rw [← UInt32.toNat_inj]
    change pak.num_entries.toNat = (UInt32.ofNat pak.entries.length).toNat
    rw [UInt32.toNat_ofNat', hinv.count, Nat.mod_eq_of_lt (UInt32.toNat_lt _)]
  · change pak.payload_end ≤ _
    rw [hmax]
    exact max_payload_end_le hd.header.fits hinv.in_file
  · intro e he
    obtain ⟨row, hrow⟩ := hrow e he
    have hns := hfresh.on_disk e he
    have hnone : e.pending_source = none ∧ e.pending_data = none := by
      simpa [Entry.staged, Option.isSome_eq_false_iff] using hns
    refine ⟨hinv.name_fits geom hg e he, fun hc => ?_, Or.inl hnone.1, fun d hd => ?_,
      fun hx => ?_, fun _ => hinv.offset_ge e he, fun _ => hle e he⟩
    · rw [← hrow]
      exact read_pak_row_plain hc
    · rw [hnone.2] at hd
      cases hd
    · rw [hnone.1] at hx
      cases hx
  · intro e he hs
    rw [hfresh.on_disk e he] at hs
    cases hs
  · intro _ _ _
    refine ⟨?_, ?_, hfresh.on_disk⟩
    · change PakDirectory disk pak.format geom pak.diroffset pak.dirlength
      rw [hdo, hdl]
      exact hd
    · change pak_row_entries disk pak.format geom (pak.dirlength.toNat / _) pak.diroffset.toNat =
        pak.entries.map pak_row_entry
      rw [hdo, hdl, ← hents]
      refine (List.map_congr_left fun e he => ?_).symm.trans (List.map_id _) |>.symm
      obtain ⟨row, rfl⟩ := hrow e he
      exact (read_pak_row_pak_row_entry _ _ _).symm

/-- A created archive has the format that was asked for, and `auto` asks for Quake's. -/
theorem created_format {env : Env} {path : CStr} {format : Format} {pak : Archive}
    (hcreate : (pakka_create env path format false).res = .ok pak) :
    pak.format = pakka_create_format format := by
  unfold pakka_create at hcreate
  by_cases hp : path.strlen ≥ OS_PATH_MAX
  · rw [if_pos hp] at hcreate
    cases hcreate
  rw [if_neg hp, if_neg (by simp)] at hcreate
  simp only [bind_res_ok, call_res_ok, exists_const, emit_res, true_and] at hcreate
  obtain ⟨-, hcreate⟩ := hcreate
  split_ifs at hcreate with hz
  · simp only [pakka_pk3_create_impl, bind_res_ok, pure_res, Except.ok.injEq] at hcreate
    obtain ⟨_, -, _, -, rfl⟩ := hcreate
    rfl
  · simp only [bind_res_ok, pure_res, Except.ok.injEq] at hcreate
    obtain ⟨_, -, rfl⟩ := hcreate
    rfl

/-- The handle that a create delivers is live and published, with no entries. -/
theorem PakLive.created {path : CStr} {format : Format} {pak : Archive}
    (h : (pakka_create env path format false).res = .ok pak) (hcls : IsPakClass pak.format) :
    ∃ geom disk, PakLive pak.format geom False
      (Session.created (pakka_create env path format false) pak) disk ∧ pak.entries = [] := by
  unfold pakka_create at h
  by_cases hp : path.strlen ≥ OS_PATH_MAX
  · rw [if_pos hp] at h
    cases h
  rw [if_neg hp, if_neg (by simp)] at h
  simp only [bind_res_ok, call_res_ok, exists_const, emit_res, true_and] at h
  obtain ⟨hmk, h⟩ := h
  -- the scratch path is created first and then written to
  have hlog : (pakka_create env path format false).log = .create .live ::
      (if pakka_format_is_zip format then pakka_pk3_create_impl env (create_initial format)
      else do
        writeAt env.faults .header .live 0 (pak_header (init_pak_header (create_initial format))) .io
        pure (init_pak_header (create_initial format)) : Op Archive).log := by
    unfold pakka_create
    rw [if_neg hp, if_neg (by simp), bind_log_of_ok ((call_res_ok _ _ _ ()).mpr hmk),
      bind_log_of_ok (emit_res _), call_log, emit_log]
    rfl
  by_cases hz : pakka_format_is_zip format = true
  · -- a ZIP archive is not of a PAK-class format
    exfalso
    rw [if_pos hz] at h
    simp only [pakka_pk3_create_impl, bind_res_ok, pure_res, Except.ok.injEq] at h
    obtain ⟨_, -, _, -, rfl⟩ := h
    obtain ⟨geom, hg⟩ := Option.isSome_iff_exists.mp hcls
    have hz' := not_zip_of_geometry hg
    change pakka_format_is_zip (pakka_create_format format) = false at hz'
    cases format <;> simp [pakka_create_format, pakka_format_is_zip] at hz hz'
  · rw [if_neg hz] at h hlog
    simp only [bind_res_ok, writeAt_res_ok, exists_const, pure_res, Except.ok.injEq] at h
    obtain ⟨hwr, rfl⟩ := h
    obtain ⟨geom, hg⟩ := Option.isSome_iff_exists.mp hcls
    have hg' : pakka_pak_geometry (pakka_create_format format) = some geom := hg
    have hsig : (init_pak_header (create_initial format)).signature = geom.signature := by
      unfold init_pak_header create_initial
      simp only [hg']
    -- the header of an archive without entries is its whole directory
    have hwd : with_directory (init_pak_header (create_initial format)) geom =
        init_pak_header (create_initial format) := by
      simp [with_directory, init_pak_header, create_initial]
    have hfile : pak_file (init_pak_header (create_initial format)) geom [] =
        pak_header (init_pak_header (create_initial format)) := by
      have hnil : pak_directory (init_pak_header (create_initial format)).format geom
          (init_pak_header (create_initial format)).entries = [] := rfl
      rw [pak_file, hwd, hnil, overwrite_nil]
      exact overwrite_at_end [] _
    have hlen : (pak_header (init_pak_header (create_initial format))).length =
        PAKFILE_HEADER_SIZE := by
      refine length_pak_header ?_
      rw [hsig, geometry_signature_length hg]
    have hstate : PakState (pak_header (init_pak_header (create_initial format))).length
        (init_pak_header (create_initial format)) geom := by
      refine ⟨hg, hsig, rfl, rfl, Nat.le_refl _, ?_, fun _ => List.nodup_nil,
        fun e he => (by cases he), fun e he => (by cases he)⟩
      rw [hlen]
      exact Nat.le_refl _
    refine ⟨geom, pak_header (init_pak_header (create_initial format)), ⟨?_, rfl, rfl, hstate, ?_⟩,
      rfl⟩
    · change FileOp.run (fun _ => none) (pakka_create env path format false).log .live = _
      rw [hlog, bind_log_of_ok ((writeAt_res_ok _ _ _ _ _ _ ()).mpr hwr), writeAt_log_of_ok hwr,
        pure_log, List.append_nil, FileOp.run_cons, FileOp.run_write (c := []) (by
          simp [FileOp.apply])]
      exact congrArg some (overwrite_at_end [] _)
    · intro _ _ _
      have hp := pak_file_published hstate (fun e he => (by cases he)) (Nat.zero_le _)
        (fun hne => absurd rfl hne) []
      rw [hfile, hwd] at hp
      exact hp

/-- **Every session on a PAK-class archive starts live and published.** -/
theorem Session.Started.live (h : Session.Started s) (hcls : IsPakClass s.pak.format) :
    ∃ geom disk, PakLive s.pak.format geom False s disk := by
  cases h with
  | opened hopen =>
    obtain ⟨geom, hl⟩ := PakLive.opened hopen hcls
    exact ⟨geom, _, hl⟩
  | created hcreate =>
    obtain ⟨geom, disk, hl, -⟩ := PakLive.created hcreate hcls
    exact ⟨geom, disk, hl⟩

end Pakka
