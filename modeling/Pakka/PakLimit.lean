/-
The 4 GiB limit on a plain PAK-class handle.

An add checks that its payload ends below 4 GiB, and writes it over the directory that the file
has. A commit checks that the new directory ends there as well. So an add may go through, destroy
the directory, and leave the handle with one that no commit will write any more. `shown` follows a
run and says what the file is to show and whether something was written over it; a close leaves
the entries of the last commit unless the directory is gone and the new one does not fit.

The condition of the theorem is on the run and the last handle: nothing has been written over the
directory of the last commit, or there is a directory to write and it fits. It is stated for closes,
since a close commits what is dirty, and a session that ends without one has promised nothing.
-/
import Pakka.HintedReopen

set_option autoImplicit false

namespace Pakka

open ByteImage LittleEndian Logged

/-! ## The limit of the directory writer

Whether the directory fits is arithmetic on the payload end and the number of entries.
-/

/-- The check of `write_pak_directory`: the directory of the handle ends below 4 GiB. -/
def directory_fits (pak : Archive) : Bool :=
  pak.entries.length = 0 ||
    match pakka_pak_geometry pak.format with
    | some geom => pak.payload_end + pak.num_entries.toNat * geom.dir_entry_size ≤ UINT32_MAX
    | none => false

theorem directory_fits_iff {pak : Archive} {geom : Geometry}
    (hg : pakka_pak_geometry pak.format = some geom) :
    directory_fits pak = true ↔ pak.entries.length = 0 ∨
      pak.payload_end + pak.num_entries.toNat * geom.dir_entry_size ≤ UINT32_MAX := by
  rw [directory_fits, hg]
  simp only [Bool.or_eq_true, decide_eq_true_eq]

/-- **A commit on a plain handle refuses** a directory that does not fit, before it writes. -/
theorem pakka_commit_limit {env : Env} {disk : Bytes} {pak : Archive} {geom : Geometry}
    (hg : pakka_pak_geometry pak.format = some geom) (hdirty : pak.dirty = true)
    (hwritable : pak.writable = true) (hfp : pak.fp = true) (hreb : pak.needs_rebuild = false)
    (hatomic : pak.atomic_commit = false) (hfull : directory_fits pak = false) :
    pakka_commit env disk pak = fail (.limit, pak) := by
  have hno : ¬ (pak.entries.length = 0 ∨
      pak.payload_end + pak.num_entries.toNat * geom.dir_entry_size ≤ UINT32_MAX) := by
    rw [← directory_fits_iff hg, hfull]
    simp
  rw [not_or, not_le] at hno
  unfold pakka_commit
  rw [if_neg (by simp [hdirty]), if_neg (by simp [hwritable, hfp]), not_zip_of_geometry hg,
    if_neg (by simp), if_pos (by simp [hreb, hatomic])]
  have hdir : write_pak_directory env .live pak = fail (.limit, pak) := by
    unfold write_pak_directory
    rw [hg, bind_eq_of_ok (a := geom) rfl, if_neg hno.1, if_pos hno.2]
    rfl
  unfold pakka_commit_in_place
  rw [hdir]
  rfl

/-- **Without I/O failures a commit on a plain handle succeeds** when the directory fits. -/
theorem pakka_commit_fits {env : Env} (hcalm : ∀ p, env.faults.fails p = false) {disk : Bytes}
    {pak : Archive} {geom : Geometry} (hg : pakka_pak_geometry pak.format = some geom)
    (hdirty : pak.dirty = true) (hwritable : pak.writable = true) (hfp : pak.fp = true)
    (hreb : pak.needs_rebuild = false) (hatomic : pak.atomic_commit = false)
    (hfits : directory_fits pak = true) :
    ∃ pak', (pakka_commit env disk pak).res = .ok pak' := by
  rw [directory_fits_iff hg] at hfits
  unfold pakka_commit
  rw [if_neg (by simp [hdirty]), if_neg (by simp [hwritable, hfp]), not_zip_of_geometry hg,
    if_neg (by simp), if_pos (by simp [hreb, hatomic])]
  exact pakka_commit_in_place_calm hcalm hg hfits

/-! ## What the file is to show

The listing of the last commit, with the mark whether an add has written over it.
-/

/-- The listing of a session as far as it is on disk. -/
def Session.on_disk_listing (s : Session) : Catalogue CStr PakItem :=
  pak_listing (fun _ _ => []) s.disk s.pak.entries

/-- What the file is to show: the handle and the listing of the last commit that published, or of
the open, and whether a byte was written over the header or the directory of then. -/
structure Shown where
  pak : Archive
  listing : Catalogue CStr PakItem
  overwritten : Prop

/-- A log writes over the header of an archive or over its directory. -/
def Overwrites (pak : Archive) (log : List (FileOp FileId)) : Prop :=
  ∃ off bs, FileOp.write .live off bs ∈ log ∧ bs ≠ [] ∧
    (off < PAKFILE_HEADER_SIZE ∨
      off < pak.diroffset.toNat + pak.dirlength.toNat ∧ pak.diroffset.toNat < off + bs.length)

/-- What the file of a session shows that was just opened. -/
def Shown.opened (s : Session) : Shown := ⟨s.pak, s.on_disk_listing, False⟩

/-- After a call: a commit that had something to publish and succeeded is what is shown from then
on. Whatever else a call writes may go over what is shown. -/
def Shown.step (df : Deflate) (env : Env) (c : Call) (s : Session) (p : Shown) : Shown :=
  if c = .commit ∧ s.pak.dirty = true ∧ (s.step df env c).1 = .ok then
    ⟨(s.step df env c).2.pak, (s.step df env c).2.on_disk_listing, False⟩
  else
    { p with overwritten := p.overwritten ∨ Overwrites p.pak (pakka_call df env s.disk s.pak c).log }

/-- After a run. -/
def shown (df : Deflate) : Session → Shown → List (Env × Call) → Shown
  | _, p, [] => p
  | s, p, (env, c) :: cs => shown df (s.step df env c).2 (p.step df env c s) cs

variable {df : Deflate} {geom : Geometry} {p : Shown} {s : Session} {disk : Bytes} {env : Env}
  {c : Call}

/-! ## One call

What a call does to the file below the payload end, and to the mode of the handle.
-/

/-- A log that spares an archive leaves its header and its directory as they are. -/
theorem sameBetween_of_not_overwrites {pak : Archive} {log : List (FileOp FileId)} {lo hi : ℕ}
    (hlog : Confined .live lo hi log) (h : ¬ Overwrites pak log) {fs : Files FileId}
    (hfile : fs .live = some disk) {disk' : Bytes} (hrun : FileOp.run fs log .live = some disk') :
    SameBetween 0 PAKFILE_HEADER_SIZE disk disk' ∧
      SameBetween pak.diroffset.toNat (pak.diroffset.toNat + pak.dirlength.toNat) disk disk' := by
  have hspare : ∀ op ∈ log, ∃ off bs, op = FileOp.write FileId.live off bs ∧
      (bs = [] ∨ PAKFILE_HEADER_SIZE ≤ off ∧
        (off + bs.length ≤ pak.diroffset.toNat ∨
          pak.diroffset.toNat + pak.dirlength.toNat ≤ off)) := by
    intro op ho
    obtain ⟨off, bs, rfl, -⟩ := hlog op ho
    refine ⟨off, bs, rfl, ?_⟩
    by_contra hno
    rw [not_or] at hno
    refine h ⟨off, bs, ho, hno.1, ?_⟩
    by_contra hno'
    exact hno.2 (by omega)
  have hheader : ∀ op ∈ log, ∃ off bs, op = FileOp.write FileId.live off bs ∧
      (bs = [] ∨ off + bs.length ≤ 0 ∨ PAKFILE_HEADER_SIZE ≤ off) := by
    intro op ho
    obtain ⟨off, bs, hop, hoff⟩ := hspare op ho
    exact ⟨off, bs, hop, hoff.imp_right fun hx => Or.inr hx.1⟩
  have hdirectory : ∀ op ∈ log, ∃ off bs, op = FileOp.write FileId.live off bs ∧
      (bs = [] ∨ off + bs.length ≤ pak.diroffset.toNat ∨
        pak.diroffset.toNat + pak.dirlength.toNat ≤ off) := by
    intro op ho
    obtain ⟨off, bs, hop, hoff⟩ := hspare op ho
    exact ⟨off, bs, hop, hoff.imp_right And.right⟩
  obtain ⟨d₁, hd₁, hsame₁⟩ := sameBetween_run hheader hfile
  obtain ⟨d₂, hd₂, hsame₂⟩ := sameBetween_run hdirectory hfile
  obtain rfl := Option.some.inj (hrun.symm.trans hd₁)
  obtain rfl := Option.some.inj (hrun.symm.trans hd₂)
  exact ⟨hsame₁, hsame₂⟩

/-- What a call leaves of a plain handle besides its contents. -/
def SameMode (pak pak' : Archive) : Prop :=
  pak'.format = pak.format ∧ pak'.fp = pak.fp ∧ pak'.writable = pak.writable ∧
    pak'.is_new = pak.is_new

theorem PakEffect.same_mode {pak pak' : Archive} {log : List (FileOp FileId)}
    (h : PakEffect env pak c log pak') : SameMode pak pak' := by
  have hadd : ∀ {p n st len log pak'}, PakAdded env pak p n st len log pak' →
      SameMode pak pak' := by
    intro p n st len log pak' ha
    cases ha <;> exact ⟨rfl, rfl, rfl, rfl⟩
  cases h with
  | add_file _ _ _ ha => exact hadd ha
  | add_memory _ ha => exact hadd ha
  | name hn =>
    cases hn with
    | copy =>
      rw [pak_link_copy_entry_eq]
      exact ⟨rfl, rfl, rfl, rfl⟩
    | _ => exact ⟨rfl, rfl, rfl, rfl⟩

/-- A call that deletes nothing leaves the list at least as long. -/
theorem PakEffect.length_le {n : ℕ} {pak pak' : Archive} {log : List (FileOp FileId)}
    (h : PakState n pak geom) (he : PakEffect env pak c log pak') (hc : ∀ name, c ≠ .delete name) :
    pak.entries.length ≤ pak'.entries.length := by
  have hlink : ∀ e, pak.entries.length ≤ (link_entry pak e).entries.length := by
    intro e
    rw [h.linked.link_entries, List.length_append]
    exact Nat.le_add_right _ _
  have hadd : ∀ {p n st len log pak'}, PakAdded env pak p n st len log pak' →
      pak.entries.length ≤ pak'.entries.length := by
    intro p n st len log pak' ha
    cases ha <;> exact hlink _
  cases he with
  | add_file _ _ _ ha => exact hadd ha
  | add_memory _ ha => exact hadd ha
  | name hn =>
    cases hn with
    | delete => exact absurd rfl (hc _)
    | same => exact Nat.le_refl _
    | rename =>
      simp only [with_name, List.length_modify]
      exact Nat.le_refl _
    | copy =>
      rw [pak_link_copy_entry_eq]
      exact hlink _
    | set_compression => exact Nat.le_refl _

/-- **What a call does to a plain handle**, whatever fails: it stays plain and open, its list does
not shrink, and a handle that is clean afterwards was clean and has its list still. -/
theorem PlainLive.handle {lo : ℕ} (df : Deflate) (env : Env) (c : Call)
    (h : PlainLive geom lo s disk) (hc : ∀ name, c ≠ .delete name) :
    SameMode s.pak (s.step df env c).2.pak ∧
      s.pak.entries.length ≤ (s.step df env c).2.pak.entries.length ∧
      ((s.step df env c).2.pak.dirty = false → c ≠ .commit →
        s.pak.dirty = false ∧ (s.step df env c).2.pak.entries = s.pak.entries) := by
  by_cases hcommit : c = .commit
  · subst hcommit
    obtain ⟨_, _, _, _, heq⟩ : SameContents s.pak (s.step df env .commit).2.pak :=
      plain_commit_contents df env s.disk h.state.geometry h.rebuild h.atomic
    rw [heq]
    exact ⟨⟨rfl, rfl, rfl, rfl⟩, Nat.le_refl _, fun _ hx => absurd rfl hx⟩
  by_cases hok : (pakka_call df env s.disk s.pak c).status = .ok
  · have he := pak_call_ok (not_zip_of_geometry h.state.geometry) hcommit hok
    refine ⟨he.same_mode, he.length_le h.state hc, fun hd _ => ?_⟩
    rcases he.dirty_or with hdirty | ⟨-, hd', hents, -⟩
    · exact absurd (hd.symm.trans hdirty) (by simp)
    · exact ⟨hd' ▸ hd, hents⟩
  · have hpak : (s.step df env c).2.pak = s.pak := pakka_call_failed hcommit hok
    rw [hpak]
    exact ⟨⟨rfl, rfl, rfl, rfl⟩, Nat.le_refl _, fun hd _ => ⟨hd, rfl⟩⟩

/-! ## Runs

`ShownLive` is the session invariant together with what the file shows.
-/

/-- A plain session and what its file is to show. The payloads of what is shown lie in front of
the `payload_end` of the handle, where no call writes; so as long as nothing went over the
directory, the file shows it. -/
structure ShownLive (geom : Geometry) (p : Shown) (s : Session) (disk : Bytes) : Prop where
  live : PlainLive geom p.pak.payload_end s disk
  mode : SameMode p.pak s.pak
  fp : s.pak.fp = true
  writable : s.pak.writable = true
  not_new : s.pak.is_new = false
  old : PakState disk.length p.pak geom
  on_disk : ∀ e ∈ p.pak.entries, e.staged = false
  listing : pak_listing (fun _ _ => []) disk p.pak.entries = p.listing
  published : ¬ p.overwritten → p.pak.entries.length ≤ PAKFILE_MAX_ENTRIES →
    PakPublished disk p.pak geom
  clean : s.pak.dirty = false → s.pak.entries = p.pak.entries
  grows : p.pak.entries.length ≤ s.pak.entries.length

/-- Nothing is asked of a directory that may be torn. -/
theorem PlainLive.pak_live {lo : ℕ} (h : PlainLive geom lo s disk) (hfp : s.pak.fp = true) :
    PakLive s.pak.format geom True s disk :=
  ⟨h.file, rfl, hfp, h.state, fun _ hn => absurd trivial hn⟩

/-- Listings do not notice writes behind the payloads. -/
theorem PakState.listing_congr {disk' : Bytes} {pak : Archive} (h : PakState disk.length pak geom)
    (hsame : SameBetween PAKFILE_HEADER_SIZE pak.payload_end disk disk')
    (sources : ℕ → CStr → Bytes) :
    pak_listing sources disk' pak.entries = pak_listing sources disk pak.entries := by
  unfold pak_listing
  refine List.ext_getElem? fun k => ?_
  simp only [List.getElem?_mapIdx]
  cases he : pak.entries[k]? with
  | none => rfl
  | some e => simp only [Option.map_some, h.item_congr hsame (List.mem_of_getElem? he)]

/-- **A commit that publishes** is what the file shows. -/
theorem ShownLive.published_commit (h : ShownLive geom p s disk) (hd : s.pak.dirty = true)
    (hok : (s.step df env .commit).1 = .ok) :
    ∃ disk', ShownLive geom (p.step df env .commit s) (s.step df env .commit).2 disk' := by
  have hstep : p.step df env .commit s =
      ⟨(s.step df env .commit).2.pak, (s.step df env .commit).2.on_disk_listing, False⟩ := by
    rw [Shown.step, if_pos ⟨rfl, hd, hok⟩]
  obtain ⟨disk', hlive, -, -⟩ := h.live.step df env .commit (by simp)
  obtain ⟨hmode, -, -⟩ := h.live.handle df env .commit (by simp)
  obtain ⟨disk'', hfile, hcom⟩ := ((h.live.pak_live h.fp).commit df env).2 hok hd
  obtain rfl := Option.some.inj (hfile.symm.trans hlive.file)
  rw [hstep]
  refine ⟨disk'', ⟨hlive.file, hlive.state, hlive.rebuild, hlive.atomic, Nat.le_refl _⟩,
    ⟨rfl, rfl, rfl, rfl⟩, hmode.2.1.trans h.fp, hmode.2.2.1.trans h.writable,
    hmode.2.2.2.trans h.not_new, hcom.state, hcom.on_disk, ?_, fun _ hmax => hcom.published hmax,
    fun _ => rfl, Nat.le_refl _⟩
  rw [Session.on_disk_listing, hlive.disk_eq]

/-- **Any other call** leaves what the file shows, or goes over it. -/
theorem ShownLive.other_step (h : ShownLive geom p s disk) (hc : ∀ name, c ≠ .delete name)
    (hother : ¬ (c = .commit ∧ s.pak.dirty = true ∧ (s.step df env c).1 = .ok)) :
    ∃ disk', ShownLive geom (p.step df env c s) (s.step df env c).2 disk' := by
  have hstep : p.step df env c s = { p with
      overwritten := p.overwritten ∨
        Overwrites p.pak (pakka_call df env s.disk s.pak c).log } := by
    rw [Shown.step, if_neg hother]
  obtain ⟨disk', hlive, hsame, -⟩ := h.live.step df env c hc
  obtain ⟨hmode, hgrow, hclean⟩ := h.live.handle df env c hc
  rw [hstep]
  refine ⟨disk', hlive, ⟨hmode.1.trans h.mode.1, hmode.2.1.trans h.mode.2.1,
    hmode.2.2.1.trans h.mode.2.2.1, hmode.2.2.2.trans h.mode.2.2.2⟩, hmode.2.1.trans h.fp,
    hmode.2.2.1.trans h.writable, hmode.2.2.2.trans h.not_new, h.old.mono hsame.1, h.on_disk, ?_,
    ?_, ?_, h.grows.trans hgrow⟩
  · rw [h.old.listing_congr hsame]
    exact h.listing
  · intro hspared hmax
    rw [not_or] at hspared
    have hlog := (h.live.writes df env c).confined
    obtain ⟨hheader, hdir⟩ :=
      sameBetween_of_not_overwrites hlog hspared.2 h.live.file hlive.file
    exact (h.published hspared.1 hmax).congr hheader hdir
  · intro hd
    by_cases hcommit : c = .commit
    · subst hcommit
      -- a commit that fails leaves a dirty handle dirty
      cases hd₀ : s.pak.dirty with
      | false =>
        have hnothing : (s.step df env .commit).2.pak = s.pak := by
          unfold Session.step
          rw [pakka_call, pakka_commit_clean hd₀]
          rfl
        rw [hnothing]
        exact h.clean hd₀
      | true =>
        exfalso
        cases pak_commit_outcome env h.live.state h.fp hd₀ with
        | @done pak' _ hres =>
          refine hother ⟨rfl, hd₀, ?_⟩
          unfold Session.step
          rw [pakka_call, h.live.disk_eq, Step.of_ok hres]
        | @kept st pak' hres _ _ hpak =>
          obtain ⟨_, _, rfl⟩ := hpak
          unfold Session.step at hd
          rw [pakka_call, h.live.disk_eq, Step.of_error hres] at hd
          exact absurd (hd.symm.trans hd₀) (by simp)
        | @lost st pak' hres _ _ hdirty =>
          unfold Session.step at hd
          rw [pakka_call, h.live.disk_eq, Step.of_error hres] at hd
          exact absurd (hd.symm.trans (hdirty.trans hd₀)) (by simp)
    · obtain ⟨hd₀, hents⟩ := hclean hd hcommit
      rw [hents]
      exact h.clean hd₀

/-- **One call**, whatever fails. -/
theorem ShownLive.step (df : Deflate) (env : Env) (c : Call) (h : ShownLive geom p s disk)
    (hc : ∀ name, c ≠ .delete name) :
    ∃ disk', ShownLive geom (p.step df env c s) (s.step df env c).2 disk' := by
  by_cases hpub : c = .commit ∧ s.pak.dirty = true ∧ (s.step df env c).1 = .ok
  · obtain ⟨rfl, hd, hok⟩ := hpub
    exact h.published_commit hd hok
  · exact h.other_step hc hpub

/-- **A run**, whatever fails. -/
theorem ShownLive.run (df : Deflate) (calls : List (Env × Call)) {p : Shown} {s : Session}
    {disk : Bytes} (h : ShownLive geom p s disk) (hc : ∀ x ∈ calls, ∀ name, x.2 ≠ .delete name) :
    ∃ disk', ShownLive geom (shown df s p calls) (s.run df calls) disk' := by
  induction calls generalizing p s disk with
  | nil => exact ⟨disk, h⟩
  | cons x calls ih =>
    rw [List.forall_mem_cons] at hc
    obtain ⟨disk', h'⟩ := h.step df x.1 x.2 hc.1
    exact ih h' hc.2

/-- A plain open shows the file it opened. -/
theorem ShownLive.opened {path : CStr} {hint : Format} {pak : Archive}
    (hopen : pakka_open_ex path .read_write hint (some disk) = .ok pak)
    (hcls : IsPakClass pak.format) :
    ∃ geom, ShownLive geom (Shown.opened (Session.opened disk pak)) (Session.opened disk pak)
      disk := by
  obtain ⟨geom, hl⟩ := PlainLive.opened hopen hcls
  obtain ⟨geom', hpl⟩ := PakLive.opened hopen hcls
  obtain rfl : geom' = geom := by
    have h1 : pakka_pak_geometry pak.format = some geom := hl.state.geometry
    rw [hpl.geometry] at h1
    exact Option.some.inj h1
  obtain ⟨_, _, _, -, -, heq⟩ := open_pak_class (open_pak_class_hint hcls hopen) hopen
  have hfresh := open_pak_fresh hcls hopen
  have hwritable : pak.writable = true := by
    have := congrArg Archive.writable heq
    exact this
  have hnew : pak.is_new = false := by
    have := congrArg Archive.is_new heq
    exact this
  have hdirty : pak.dirty = false := by
    have := congrArg Archive.dirty heq
    exact this
  refine ⟨geom', hl, ⟨rfl, rfl, rfl, rfl⟩, hfresh.live, hwritable, hnew, hl.state, hfresh.on_disk,
    ?_, fun _ hmax => hpl.published hdirty (fun hx => hx) hmax, fun _ => rfl, Nat.le_refl _⟩
  rw [Shown.opened, Session.on_disk_listing, hl.disk_eq]

/-! ## Closing

The close at the end of the run, in its three cases.
-/

/-- Closing an archive that was opened is committing it. -/
theorem Session.close_files (df : Deflate) (hnew : (s.step df env .commit).2.pak.is_new = false) :
    (s.close env).2 = (s.step df env .commit).2.files := by
  have hcommit : (if s.pak.dirty then pakka_commit env s.disk s.pak else pure s.pak) =
      pakka_commit env s.disk s.pak := by
    split_ifs with hd
    · rfl
    · rw [pakka_commit_clean (by simpa using hd)]
  unfold Session.close pakka_close
  rw [hcommit]
  unfold Session.step at hnew ⊢
  rw [pakka_call] at hnew ⊢
  cases hres : (pakka_commit env s.disk s.pak).res with
  | error err =>
    obtain ⟨st, pak'⟩ := err
    have herr : ((pakka_commit env s.disk s.pak).mapError Prod.fst).res = .error st := by
      rw [mapError, hres]
      rfl
    rw [Step.of_error hres]
    simp only [bind_eq_of_error herr, mapError_log]
  | ok pak' =>
    rw [Step.of_ok hres] at hnew ⊢
    simp only at hnew
    have hok := (mapError_res_ok (g := Prod.fst)).mpr hres
    simp only [bind_log_of_ok hok, mapError_log, close_publish, hnew]
    simp

/-- **A close without I/O failures.** The file opens with the entries of the last commit, that of
the close included, if the directory was spared since, or if there is one to write and it fits. -/
theorem ShownLive.close (df : Deflate) (h : ShownLive geom p s disk)
    (hcalm : ∀ x, env.faults.fails x = false)
    (hspared : p.overwritten → s.pak.dirty = true ∧ directory_fits s.pak = true)
    (hmax : s.pak.entries.length ≤ PAKFILE_MAX_ENTRIES) :
    OpensWith ((s.close env).2 .live) s.pak.format (p.step df env .commit s).listing := by
  have hg := h.live.state.geometry
  obtain ⟨disk', h'⟩ := h.step df env .commit (by simp)
  rw [Session.close_files df h'.not_new, h'.live.file]
  -- a commit at the close either restores the directory or finds it in place
  have hhere : ¬ (p.step df env .commit s).overwritten := by
    by_cases hd : s.pak.dirty = true
    · by_cases hfits : directory_fits s.pak = true
      · -- this commit goes through
        have hcommit : ∃ pak', (pakka_commit env s.disk s.pak).res = .ok pak' :=
          pakka_commit_fits hcalm hg hd h.writable h.fp h.live.rebuild h.live.atomic hfits
        obtain ⟨pak', hres⟩ := hcommit
        have hok : (s.step df env .commit).1 = .ok := by
          unfold Session.step
          rw [pakka_call, Step.of_ok hres]
        rw [Shown.step, if_pos ⟨rfl, hd, hok⟩]
        exact fun hx => hx
      · -- this one is refused before it writes
        have hfail : pakka_commit env s.disk s.pak = fail (.limit, s.pak) :=
          pakka_commit_limit hg hd h.writable h.fp h.live.rebuild h.live.atomic
            (by simpa using hfits)
        have hcall : pakka_call df env s.disk s.pak .commit = ⟨.limit, s.pak, []⟩ := by
          rw [pakka_call, hfail]
          rfl
        have hst : (s.step df env .commit).1 ≠ .ok := by
          unfold Session.step
          rw [hcall]
          simp
        rw [Shown.step, if_neg fun hx => hst hx.2.2, hcall]
        rintro (hx | ⟨off, bs, hmem, -⟩)
        · exact hfits (hspared hx).2
        · cases hmem
    -- nothing to commit
    · have hclean : s.pak.dirty = false := by simpa using hd
      have hcall : pakka_call df env s.disk s.pak .commit = ⟨.ok, s.pak, []⟩ := by
        rw [pakka_call, pakka_commit_clean hclean]
        rfl
      rw [Shown.step, if_neg fun hx => hd hx.2.1, hcall]
      rintro (hx | ⟨off, bs, hmem, -⟩)
      · exact hd (hspared hx).1
      · cases hmem
  obtain ⟨_, _, _, _, heq⟩ : SameContents s.pak (s.step df env .commit).2.pak :=
    plain_commit_contents df env s.disk hg h.live.rebuild h.live.atomic
  have hlen : (s.step df env .commit).2.pak.entries.length = s.pak.entries.length := by rw [heq]
  have hformat : (p.step df env .commit s).pak.format = s.pak.format := by
    rw [← h'.mode.1, heq]
  have hpub := h'.published hhere (h'.grows.trans (hlen.trans_le hmax))
  have hopens := hpub.opens_with h'.old.geometry fun _ _ => []
  rwa [hformat, h'.listing] at hopens

/-! ## The limit without damage

The exact condition under which the last directory survives a commit that is refused for size.
-/

/-- **When the 4 GiB limit rejects without damage.** Take any archive that opens as a plain handle
and any adds, renames, copies and commits on it, whatever fails. If nothing was written over the
header or the directory of the last commit since, or if the handle has a directory to write that
ends below 4 GiB, a close leaves a file that opens under the same hint with the entries of the last
commit that succeeded, the one of the close included, or of the open if there was none. -/
theorem limit_spares_archive (df : Deflate) (path : CStr) (hint : Format) (disk : Bytes)
    (pak : Archive) (calls : List (Env × Call)) (env : Env)
    (hopen : pakka_open_ex path .read_write hint (some disk) = .ok pak)
    (hcls : IsPakClass pak.format) (hkeep : ∀ x ∈ calls, ∀ name, x.2 ≠ .delete name)
    (hcalm : ∀ x, env.faults.fails x = false) :
    let s₀ := Session.opened disk pak
    let s := s₀.run df calls
    let p := shown df s₀ (Shown.opened s₀) calls
    let listing := (p.step df env .commit s).listing
    (p.overwritten → s.pak.dirty = true ∧ directory_fits s.pak = true) →
    s.pak.entries.length ≤ PAKFILE_MAX_ENTRIES →
    (hint = .auto → Unmistakable ((s.close env).2 .live) pak.format listing) →
    OpensWith ((s.close env).2 .live) hint listing := by
  intro s₀ s p listing hspared hmax hauto
  obtain ⟨geom, h₀⟩ := ShownLive.opened hopen hcls
  obtain ⟨disk', h⟩ := h₀.run df calls hkeep
  have hopens : OpensWith ((s.close env).2 .live) s.pak.format listing :=
    h.close df hcalm hspared hmax
  have hformat : s.pak.format = pak.format := by
    obtain ⟨_, hlive₀⟩ := PakLive.opened hopen hcls
    have hrun₀ : PakRun pak.format _ False s₀ := Or.inr ⟨_, hlive₀⟩
    rcases hrun₀.run calls with hlost | ⟨_, hlive⟩
    · exact absurd (hlost.1.symm.trans h.fp) (by simp)
    · exact hlive.format
  rw [hformat] at hopens
  rcases open_pak_class_hint hcls hopen with hhint | ⟨hhint, -⟩
  · obtain ⟨geom', hg'⟩ := Option.isSome_iff_exists.mp hhint
    obtain ⟨-, _, _, -, heq⟩ := (open_pak_iff hg').mp hopen
    have hsame : pak.format = hint := by rw [heq, opened_pak]
    rwa [hsame] at hopens
  · have hg : pakka_pak_geometry pak.format = some geom := hformat ▸ h.live.state.geometry
    have hopens' := hopens.auto hg (hauto hhint)
    rwa [hhint]

/-- The handle of `one_entry_file`. -/
def one_entry_pak : Archive :=
  opened_pak .read_write .pak ⟨ascii "PACK", 56, 64, false⟩ one_entry_file 13 64

theorem one_entry_pak_opened :
    pakka_open_ex CStr.empty .read_write .pak (some one_entry_file) = .ok one_entry_pak := rfl

/-- An add over the directory of a file with one entry, and an add under a name that is taken. -/
theorem limit_spares_archive_added :
    let s₀ := Session.opened one_entry_file one_entry_pak
    let calls : List (Env × Call) :=
      [(calm_env, .add_memory lump_name [1, 2]), (calm_env, .add_memory lump_name [3])]
    OpensWith (((s₀.run .storing calls).close calm_env).2 .live) .pak
      ((shown .storing s₀ (Shown.opened s₀) calls).step .storing calm_env .commit
        (s₀.run .storing calls)).listing :=
  limit_spares_archive .storing CStr.empty .pak one_entry_file one_entry_pak
    [(calm_env, .add_memory lump_name [1, 2]), (calm_env, .add_memory lump_name [3])] calm_env
    one_entry_pak_opened (by decide) (by simp) (fun _ => rfl)
    (fun _ => ⟨by decide +kernel, by decide +kernel⟩) (by decide +kernel) (fun h => by cases h)

/-! ## The limit with damage

The run in which it does not: one entry, an add that fills the space up to the limit, a commit that
is refused.
-/

/-- Without I/O failures an add that fits goes through on a plain handle that does not compress. -/
theorem pak_add_memory_calm {env : Env} (hcalm : ∀ x, env.faults.fails x = false) {pak : Archive}
    (hdk : pak.format ≠ .daikatana) (hatomic : pak.atomic_commit = false) (entry_name : CStr)
    {data : Bytes} (hdata : 0 < data.length) (hfit : pak.payload_end + data.length ≤ UINT32_MAX) :
    pak_add_memory env pak entry_name data =
      ⟨[.write .live pak.payload_end data], .ok (pak_link_appended_entry pak
        (pak_new_entry entry_name pak.payload_end data.length none) pak.payload_end
        (UInt32.ofNat data.length))⟩ := by
  have hmax : UINT32_MAX = 4294967295 := rfl
  have htry : dk_try_compress pak.format entry_name data.length = false := by
    simp [dk_try_compress, hdk]
  have hsize : (UInt32.ofNat data.length).toNat = data.length := by
    rw [UInt32.toNat_ofNat', Nat.mod_eq_of_lt (by omega)]
  have hroom : ¬ pak.payload_end > UINT32_MAX - (UInt32.ofNat data.length).toNat := by
    rw [hsize]
    omega
  have hcall : ∀ site st, (call env.faults site st : Op Unit) = pure () := by
    intro site st
    unfold call
    rw [if_neg (by simp [hcalm])]
  have hwrite : pak_write_memory_payload env data pak.payload_end .none =
      emit (.write .live pak.payload_end data) := by
    unfold pak_write_memory_payload writeAt
    simp only [if_pos hdata, hcalm, Bool.false_eq_true, if_false]
  unfold pak_add_memory
  rw [if_neg (by omega)]
  simp only [htry, hatomic, Bool.false_eq_true, if_false]
  unfold pak_append_memory
  simp only [add_physical_size, Captured.enc_buf, if_neg hroom, hcall, hwrite]
  rfl

/-- The session after an add of `data` to it. -/
def filled (data : Bytes) : Session :=
  { files := Function.update (fun _ => none) .live (some (overwrite one_entry_file 13 data))
    pak := pak_link_appended_entry one_entry_pak
      (pak_new_entry lump_name 13 data.length none) 13 (UInt32.ofNat data.length) }

/-- The add goes through as long as the payload ends below 4 GiB. -/
theorem filled_step (df : Deflate) {data : Bytes} (hdata : 0 < data.length)
    (hlen : 13 + data.length ≤ UINT32_MAX) :
    (Session.opened one_entry_file one_entry_pak).step df calm_env (.add_memory lump_name data) =
      (.ok, filled data) := by
  have hcalm : ∀ x, calm_env.faults.fails x = false := fun _ => rfl
  have hpre : pak_add_preflight one_entry_pak lump_name = .ok () := by decide +kernel
  have hadd : pakka_add_memory df calm_env one_entry_pak lump_name data =
      pak_add_memory calm_env one_entry_pak lump_name data := by
    unfold pakka_add_memory
    rw [if_neg (by decide), hpre]
    rfl
  have hlink : pak_add_memory calm_env one_entry_pak lump_name data =
      ⟨[.write .live 13 data], .ok (filled data).pak⟩ :=
    pak_add_memory_calm hcalm (by decide) rfl lump_name hdata hlen
  have hcall : ∀ disk, pakka_call df calm_env disk one_entry_pak (.add_memory lump_name data) =
      ⟨.ok, (filled data).pak, [.write .live 13 data]⟩ := by
    intro disk
    rw [pakka_call, hadd, hlink]
    rfl
  have hfiles : FileOp.run (Session.opened one_entry_file one_entry_pak).files
      [.write .live 13 data] = (filled data).files := by
    simp [FileOp.run, FileOp.apply, Session.opened, filled]
  have hpak : (Session.opened one_entry_file one_entry_pak).pak = one_entry_pak := rfl
  simp only [Session.step, hpak, hcall, hfiles]

/-- The directory of the two entries does not fit any more when the payload ends close to 4 GiB. -/
theorem filled_commit {data : Bytes} (hlen : 13 + data.length ≤ UINT32_MAX)
    (hfull : UINT32_MAX < 13 + data.length + 128) (disk : Bytes) :
    pakka_commit calm_env disk (filled data).pak = fail (.limit, (filled data).pak) := by
  have hg : pakka_pak_geometry (filled data).pak.format =
      some ⟨ascii "PACK", 56, 64, false⟩ := rfl
  have hsize : (UInt32.ofNat data.length).toNat = data.length := by
    rw [UInt32.toNat_ofNat', Nat.mod_eq_of_lt (by simp only [UINT32_MAX] at hlen; omega)]
  have hfits : directory_fits (filled data).pak = false := by
    rw [← Bool.not_eq_true, directory_fits_iff hg]
    change ¬ (2 = 0 ∨ 13 + (UInt32.ofNat data.length).toNat + 2 * 64 ≤ UINT32_MAX)
    rw [hsize]
    omega
  exact pakka_commit_limit hg rfl rfl rfl rfl rfl hfits

/-- Zeros over the directory: the file does not open. -/
theorem filled_zeros_not_opened {data : Bytes} (hzero : data.take 64 = List.replicate 64 0)
    (path : CStr) (mode : OpenMode) (pak : Archive) :
    pakka_open_ex path mode .pak ((filled data).files .live) ≠ .ok pak := by
  intro hopen
  change pakka_open_ex path mode .pak (some (overwrite one_entry_file 13 data)) = _ at hopen
  have hg : pakka_pak_geometry .pak = some ⟨ascii "PACK", 56, 64, false⟩ := rfl
  obtain ⟨-, diroffset, dirlength, hd, -⟩ :=
    (open_pak_iff hg).mp hopen
  -- the header is as before, so the directory is one row, behind the payload
  have hbefore : ∀ off n, off + n ≤ 13 →
      slice (overwrite one_entry_file 13 data) off n = slice one_entry_file off n :=
    fun off n h => slice_overwrite_before h (Nat.le_trans h (by decide))
  have hwords : read_pak_header (overwrite one_entry_file 13 data) .pak = .ok (13, 64) := by
    have hsame : read_pak_header (overwrite one_entry_file 13 data) .pak =
        read_pak_header one_entry_file .pak := by
      unfold read_pak_header
      rw [readExact_congr (hbefore 4 4 (by omega)), readExact_congr (hbefore 8 4 (by omega))]
    rw [hsame]
    rfl
  obtain ⟨rfl, rfl⟩ := Prod.mk.inj (Except.ok.inj (hd.header.words.symm.trans hwords))
  -- and that row is all zeros
  have hrow : slice (overwrite one_entry_file 13 data) 13 64 = List.replicate 64 0 := by
    have h64 : 64 ≤ data.length := by
      have := congrArg List.length hzero
      rw [List.length_take, List.length_replicate] at this
      omega
    have hself := congrArg (List.take 64) (slice_overwrite_self one_entry_file data 13)
    rwa [take_slice, Nat.min_eq_left h64, hzero] at hself
  have hmem : read_pak_row .pak ⟨ascii "PACK", 56, 64, false⟩ (List.replicate 64 0) ∈
      pak_row_entries (overwrite one_entry_file 13 data) .pak ⟨ascii "PACK", 56, 64, false⟩
        ((64 : UInt32).toNat / 64) (13 : UInt32).toNat := by
    change _ ∈ [read_pak_row _ _ (slice (overwrite one_entry_file 13 data) 13 64)]
    rw [hrow]
    exact List.mem_singleton_self _
  have hrange := pak_row_in_range_iff.mp (hd.in_range _ hmem)
  rcases hrange.1 with h | h
  · exact absurd h (by decide +kernel)
  · exact absurd h.1 (by decide)

/-- A commit and a close of such a handle fail and leave the file as the add left it. -/
theorem filled_refused (df : Deflate) {data : Bytes} (hlen : 13 + data.length ≤ UINT32_MAX)
    (hfull : UINT32_MAX < 13 + data.length + 128) :
    (filled data).step df calm_env .commit = (.limit, filled data) ∧
      (filled data).close calm_env = (.error .limit, (filled data).files) := by
  have hcommit := filled_commit hlen hfull (filled data).disk
  constructor
  · unfold Session.step
    rw [pakka_call, hcommit]
    rfl
  · have hdirty : (filled data).pak.dirty = true := rfl
    unfold Session.close pakka_close
    rw [if_pos hdirty, hcommit]
    rfl

/-- **The limit with damage.** An archive of one entry, and an add of zeros that ends with the last
byte below 4 GiB. The add succeeds. Then the commit is refused by the limit, and so is the close,
and what they leave at the path does not open. -/
theorem limit_destroys_directory :
    let add : Call := .add_memory lump_name (List.replicate (4294967295 - 13) 0)
    let s₀ := Session.opened one_entry_file one_entry_pak
    let s := s₀.run .storing [(calm_env, add), (calm_env, .commit)]
    pakka_open_ex CStr.empty .read_write .pak (some one_entry_file) = .ok one_entry_pak ∧
      (s₀.step .storing calm_env add).1 = .ok ∧
      ((s₀.step .storing calm_env add).2.step .storing calm_env .commit).1 = .limit ∧
      (s.close calm_env).1 = .error .limit ∧
      (∀ (path : CStr) (mode : OpenMode) (pak : Archive),
        pakka_open_ex path mode .pak ((s.close calm_env).2 .live) ≠ .ok pak) ∧
      ¬ OpensWith ((s.close calm_env).2 .live) .pak s₀.on_disk_listing := by
  intro add s₀ s
  obtain ⟨zeros, hzeros⟩ : ∃ zeros : Bytes, zeros = List.replicate (4294967295 - 13) 0 := ⟨_, rfl⟩
  have hlen : zeros.length = 4294967295 - 13 := by rw [hzeros, List.length_replicate]
  have hzero : zeros.take 64 = List.replicate 64 0 := by
    rw [hzeros, List.take_replicate, Nat.min_eq_left (by omega)]
  have hmax : UINT32_MAX = 4294967295 := rfl
  have hadd : s₀.step .storing calm_env add = (.ok, filled zeros) := by
    change s₀.step _ _ (.add_memory lump_name (List.replicate (4294967295 - 13) 0)) = _
    rw [← hzeros]
    exact filled_step .storing (by omega) (by omega)
  have hrefused : (filled zeros).step .storing calm_env .commit = (.limit, filled zeros) ∧
      (filled zeros).close calm_env = (.error .limit, (filled zeros).files) :=
    filled_refused .storing (by omega) (by omega)
  have hs : s = filled zeros := by
    change ((s₀.step .storing calm_env add).2.step .storing calm_env .commit).2 = _
    rw [hadd, hrefused.1]
  have hclosed : ∀ (path : CStr) (mode : OpenMode) (pak : Archive),
      pakka_open_ex path mode .pak ((filled zeros).files .live) ≠ .ok pak :=
    filled_zeros_not_opened hzero
  rw [hs, hadd, hrefused.1, hrefused.2]
  refine ⟨one_entry_pak_opened, rfl, rfl, rfl, hclosed, ?_⟩
  rintro ⟨disk, hfile, hopens⟩
  obtain ⟨pak, hopen, -⟩ := hopens CStr.empty .read (by decide)
  refine hclosed CStr.empty .read pak ?_
  rw [← hopen]
  exact congrArg _ hfile

end Pakka
