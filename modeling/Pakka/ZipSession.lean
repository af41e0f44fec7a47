/-
Sessions on ZIP archives: what holds after any sequence of calls, failing ones included.

A ZIP handle touches its file in a commit only, and every commit is a rebuild. So the file is at
all times what was opened or what the last commit wrote, and a clean handle lists just that
(`ZipPublished`). The one way out of the invariant is a commit that renamed its file into place
and could not open it again.

Since nothing is written between commits, there is no torn directory here and no parameter for one:
a failed call leaves the file as it was.
-/
import Pakka.ZipFaults
import Pakka.PakSession

set_option autoImplicit false

namespace Pakka

open ByteImage Logged

/-! ## The invariant

Of a handle with its file. A handle that lost it takes no part in a run any more.
-/

/-- What a clean handle lists: what was read from the file, or what the file was written from. -/
inductive ZipPublished (disk : Bytes) (pak : Archive) : Prop where
  | read {h : Eocd} {cdr : Bytes} {l : List Listed} (hd : ZipDirectory disk h cdr l pak.entries) :
      ZipPublished disk pak
  | written {xs : List (Entry × Bytes)} (himage : ZipImage xs) (hfile : disk = zip_file xs)
      (hents : pak.entries = drop_pending (xs.map Prod.fst)) : ZipPublished disk pak

/-- A session on a ZIP archive whose file is `disk`. -/
structure ZipLive (format : Format) (s : Session) (disk : Bytes) : Prop where
  file : s.files .live = some disk
  format : s.pak.format = format
  state : ZipState disk.length s.pak
  named : ∀ e ∈ s.pak.entries, ZipNamed e
  published : s.pak.dirty = false → ZipPublished disk s.pak

/-- A call that fails although the new file is in place: the reopen after the rename went
wrong. -/
def reopen_failed (df : Deflate) (s : Session) (env : Env) (c : Call) : Prop :=
  (s.step df env c).1 ≠ .ok ∧
    FileOp.rename .scratch .live ∈ (pakka_call df env s.disk s.pak c).log

variable {df : Deflate} {format : Format} {s : Session} {disk : Bytes} {env : Env} {c : Call}

theorem ZipLive.disk_eq (h : ZipLive format s disk) : s.disk = disk := by
  rw [Session.disk, h.file]
  rfl

theorem ZipLive.disk_state (h : ZipLive format s disk) : ZipState s.disk.length s.pak := by
  rw [h.disk_eq]
  exact h.state

/-! ## Names

What the preflight guarantees of them.
-/

/-- A name the API takes makes a well named entry. -/
theorem zip_named_of_preflight {pak : Archive} {name : CStr} {e : Entry}
    (hz : pakka_format_is_zip pak.format = true) (h : pak_add_preflight pak name = .ok ())
    (he : e.filename = name) : ZipNamed e := by
  have hfits := zip_name_fits hz h
  obtain ⟨-, hsafe, -⟩ := pak_add_preflight_ok.mp h
  obtain ⟨hbytes, c, hlast, hsep⟩ := safe_name_bytes hsafe
  refine ⟨by rw [he]; exact hfits, ?_, ?_, ?_⟩
  · rw [he]
    intro hnil
    rw [hnil] at hlast
    cases hlast
  · rw [he]
    intro b hb
    obtain ⟨h1, h2⟩ := hbytes b hb
    simp [is_control_byte, h1, h2]
  · rw [he, hlast]
    rintro ⟨hc, -⟩
    rw [Option.some.inj hc] at hsep
    exact absurd hsep (by decide)

/-- **Every call but a commit keeps entries well named.** -/
theorem zip_named_effect {pak pak' : Archive} {n : ℕ} (h : ZipState n pak)
    (hnamed : ∀ e ∈ pak.entries, ZipNamed e) (he : ZipEffect df env pak c pak') :
    ∀ e ∈ pak'.entries, ZipNamed e := by
  have hadd : ∀ {name source src e}, pak_add_preflight pak name = .ok () →
      ZipAdded df env pak.pk3_compression name source src e →
      ∀ x ∈ (pk3_link_pending_entry pak e).entries, ZipNamed x := by
    intro name source src e hname ha x hx
    change x ∈ (link_entry pak e).entries at hx
    rw [h.linked.link_entries, List.mem_append, List.mem_singleton] at hx
    rcases hx with hx | rfl
    · exact hnamed x hx
    · exact zip_named_of_preflight h.zip hname (ha.entry_ok n (zip_name_fits h.zip hname)).2.1
  cases he with
  | add_file hname ha => exact hadd hname ha
  | add_memory hname ha => exact hadd hname ha
  | name hn =>
    refine hn.forall_entries h.linked hnamed ?_ ?_
    · intro e _ m _ hm
      exact zip_named_of_preflight h.zip hm rfl
    · intro e _ m _ hm
      refine zip_named_of_preflight h.zip hm ?_
      unfold copied_entry
      split_ifs <;> rfl

/-! ## Calls

Each call keeps it.
-/

/-- What the effect of a call keeps, and what it makes dirty or leaves published. -/
theorem ZipEffect.kept {pak pak' : Archive} {n : ℕ} (h : ZipState n pak)
    (he : ZipEffect df env pak c pak') :
    pak'.format = pak.format ∧ pak'.fp = pak.fp ∧ pak'.is_new = pak.is_new ∧
      (pak'.dirty = true ∨ pak'.dirty = pak.dirty ∧ pak'.entries = pak.entries) := by
  cases he with
  | add_file => exact ⟨rfl, rfl, rfl, Or.inl rfl⟩
  | add_memory => exact ⟨rfl, rfl, rfl, Or.inl rfl⟩
  | name hn =>
    obtain ⟨h1, h2, h3, h4⟩ := hn.zip_flags h.zip
    refine ⟨h1, h2, h3, ?_⟩
    rcases h4 with ⟨hd, -⟩ | ⟨hd, -, hents, -⟩
    · exact Or.inl hd
    · exact Or.inr ⟨hd, hents⟩

theorem ZipPublished.congr {pak pak' : Archive} (h : ZipPublished disk pak)
    (hents : pak'.entries = pak.entries) : ZipPublished disk pak' := by
  cases h with
  | read hd => exact ZipPublished.read (hents ▸ hd)
  | written himage hfile hwritten => exact ZipPublished.written himage hfile (hents.trans hwritten)

/-- **A call but a commit.** The file stays as it is. -/
theorem ZipLive.call (h : ZipLive format s disk) (hc : c ≠ .commit) :
    ZipLive format (s.step df env c).2 disk := by
  have hz := h.state.zip
  have hlog := zip_call_log df env s.disk s.pak c hz hc
  have hfile : (s.step df env c).2.files .live = some disk := by
    change FileOp.run s.files (pakka_call df env s.disk s.pak c).log .live = _
    rw [hlog, FileOp.run_nil]
    exact h.file
  by_cases hok : (pakka_call df env s.disk s.pak c).status = .ok
  · have he := zip_call_ok _ _ _ hz hc hok
    obtain ⟨h1, -, -, h4⟩ := he.kept h.state
    refine ⟨hfile, h1.trans h.format, h.state.effect he, zip_named_effect h.state h.named he, ?_⟩
    intro hd
    rcases h4 with hdirty | ⟨hd', hents⟩
    · exact absurd (hd.symm.trans hdirty) (by simp)
    · exact (h.published (hd' ▸ hd)).congr hents
  · have hpak : (s.step df env c).2.pak = s.pak := pakka_call_failed hc hok
    refine ⟨hfile, ?_, ?_, ?_, ?_⟩ <;> rw [hpak]
    · exact h.format
    · exact h.state
    · exact h.named
    · exact h.published

/-- **The ways out of a commit** on a dirty ZIP handle. -/
theorem zip_commit_outcome (env : Env) {pak : Archive} (h : ZipState disk.length pak)
    (hnamed : ∀ e ∈ pak.entries, ZipNamed e) (hdirty : pak.dirty = true) :
    RebuildOutcome pak (fun new pak' => ZipCommitted env disk pak new pak')
      (fun p => env.faults.fails .reopen = true ∧ p.fp = false ∧
        ∀ e ∈ p.entries, e.staged = false) (pakka_commit env disk pak) := by
  unfold pakka_commit
  rw [if_neg (by simp [hdirty])]
  by_cases hw : ¬ pak.writable ∨ ¬ pak.fp
  · rw [if_pos hw]
    exact RebuildOutcome.kept rfl invalid_argument_isError ScratchOnly.nil (Or.inl rfl)
  rw [if_neg hw, if_pos h.zip]
  have hfp : pak.fp = true := by
    by_contra hx
    exact hw (Or.inr hx)
  unfold pakka_pk3_commit_impl
  rw [if_neg (by simp [hdirty])]
  by_cases hnum : pak.num_entries.toNat > 0xFFFF
  · rw [if_pos hnum]
    exact RebuildOutcome.kept rfl limit_isError ScratchOnly.nil (Or.inl rfl)
  rw [if_neg hnum, if_pos (h.rebuild hdirty)]
  exact pk3_commit_rebuild_outcome env h hnamed hfp (Nat.not_lt.mp hnum)

/-- What a rename of the finished scratch file makes of the live one. -/
theorem run_rename_scratch {work : List (FileOp FileId)} {scratch : Bytes} {fs : Files FileId}
    (hscratch : ∀ fs, FileOp.run fs work .scratch = some scratch) :
    FileOp.run fs (work ++ [.rename .scratch .live]) .live = some scratch := by
  rw [FileOp.run_append]
  simp [FileOp.run_cons, FileOp.apply, hscratch fs]

/-- **A commit on a ZIP handle**: nothing to do, or not done, or done, or done and lost. -/
theorem ZipLive.commit (df : Deflate) (env : Env) (h : ZipLive format s disk) :
    (s.pak.dirty = false ∧ s.step df env .commit = (.ok, s)) ∨
      s.pak.dirty = true ∧
        ((IsError (s.step df env .commit).1 ∧ ZipLive format (s.step df env .commit).2 disk) ∨
          (∃ disk', (s.step df env .commit).2.files .live = some disk' ∧
            (s.step df env .commit).1 = .ok ∧
            ZipCommitted env disk s.pak disk' (s.step df env .commit).2.pak) ∨
          (reopen_failed df s env .commit ∧ (s.step df env .commit).2.pak.fp = false)) := by
  have hdisk := h.disk_eq
  cases hd : s.pak.dirty with
  | false =>
    left
    refine ⟨rfl, ?_⟩
    unfold Session.step
    rw [pakka_call, pakka_commit_clean hd]
    rfl
  | true =>
    right
    refine ⟨rfl, ?_⟩
    have hcall : ∀ {r : Step}, pakka_call df env s.disk s.pak .commit = r →
        s.step df env .commit = (r.status, ⟨FileOp.run s.files r.log, r.pak⟩) := by
      rintro r rfl
      rfl
    cases zip_commit_outcome env h.state h.named hd with
    -- a failure before the rename leaves file and list
    | @kept st pak' hres hst hlog hpak =>
      left
      have hs := hcall (by rw [pakka_call, hdisk, Step.of_error hres])
      rw [hs]
      refine ⟨hst, ⟨?_, ?_, ?_, ?_, ?_⟩⟩
      · rw [← h.file]
        exact FileOp.run_of_not_touches (hlog.not_touches (by simp))
      · rcases hpak with rfl | rfl <;> exact h.format
      · rcases hpak with rfl | rfl
        · exact h.state
        · exact ⟨h.state.zip, h.state.linked.congr rfl rfl rfl rfl, h.state.entries,
            h.state.staged, h.state.rebuild⟩
      · rcases hpak with rfl | rfl <;> exact h.named
      · have hdirty : pak'.dirty = true := by rcases hpak with rfl | rfl <;> exact hd
        intro hclean
        exact absurd (hdirty.symm.trans hclean) (by simp)
    -- behind the rename the file is the new one, and only the reopen can fail
    | @published work scratch pak' hlog hwork hscratch hnew hres =>
      rcases hres with hok | ⟨st, p, hp, hst, hlost⟩
      · right
        left
        have hs := hcall (by rw [pakka_call, hdisk, Step.of_ok hok])
        rw [hs]
        refine ⟨scratch, ?_, rfl, hnew⟩
        change FileOp.run s.files (pakka_commit env disk s.pak).log .live = _
        rw [hlog]
        exact run_rename_scratch hscratch
      · right
        right
        have hc := Step.of_error hp
        have hs := hcall (by rw [pakka_call, hdisk, hc])
        refine ⟨⟨?_, ?_⟩, ?_⟩
        · rw [hs]
          rintro rfl
          exact absurd hst (by simp [IsError])
        · rw [pakka_call, hdisk, hc]
          change _ ∈ (pakka_commit env disk s.pak).log
          rw [hlog]
          simp
        · rw [hs]
          exact hlost.2.1

/-- A commit that succeeds found nothing to do, or published the handle. -/
theorem ZipLive.commit_cases {s' : Session} (h : ZipLive format s disk)
    (hc : s.step df env .commit = (.ok, s')) :
    (s.pak.dirty = false ∧ s' = s) ∨
      ∃ disk', s'.files .live = some disk' ∧ ZipCommitted env disk s.pak disk' s'.pak := by
  rcases h.commit df env with
    ⟨hd, hs⟩ | ⟨-, ⟨herr, -⟩ | ⟨disk', hfile, -, hcom⟩ | ⟨⟨hne, -⟩, -⟩⟩
  · rw [hs] at hc
    exact Or.inl ⟨hd, (Prod.mk.inj hc).2.symm⟩
  · rw [hc] at herr
    exact absurd herr (by simp [IsError])
  · rw [hc] at hfile hcom
    exact Or.inr ⟨disk', hfile, hcom⟩
  · exact absurd (by rw [hc]) hne

/-- What a commit leaves is live and published. -/
theorem ZipCommitted.zip_live {pak : Archive} {disk' : Bytes} {s' : Session}
    (h : ZipCommitted env disk pak disk' s'.pak) (hformat : pak.format = format)
    (hfile : s'.files .live = some disk') : ZipLive format s' disk' :=
  ⟨hfile, h.format.trans hformat, h.state, h.named,
    fun _ => ZipPublished.written h.image h.file h.entries⟩

/-! ## Runs

By induction over the calls.
-/

/-- **One call**, whatever fails: the invariant holds on, or the reopen failed. -/
theorem ZipLive.step (df : Deflate) (env : Env) (c : Call) (h : ZipLive format s disk) :
    (∃ disk', ZipLive format (s.step df env c).2 disk') ∨
      reopen_failed df s env c ∧ (s.step df env c).2.pak.fp = false := by
  by_cases hc : c = .commit
  · subst hc
    rcases h.commit df env with ⟨-, hs⟩ | ⟨-, ⟨-, hl⟩ | ⟨disk', hfile, -, hcom⟩ | hlost⟩
    · rw [hs]
      exact Or.inl ⟨disk, h⟩
    · exact Or.inl ⟨disk, hl⟩
    · exact Or.inl ⟨disk', hcom.zip_live h.format hfile⟩
    · exact Or.inr hlost
  · exact Or.inl ⟨disk, h.call hc⟩

/-- A call that succeeds keeps the invariant. -/
theorem ZipLive.step_ok (h : ZipLive format s disk) (hok : (s.step df env c).1 = .ok) :
    ∃ disk', ZipLive format (s.step df env c).2 disk' := by
  rcases h.step df env c with hl | ⟨⟨hne, -⟩, -⟩
  · exact hl
  · exact absurd hok hne

/-- A run of calls that all succeed. -/
theorem ZipLive.runOk (calls : List (Env × Call)) {s s' : Session} {disk : Bytes}
    (h : ZipLive format s disk) (hrun : s.runOk df calls = some s') :
    ∃ disk', ZipLive format s' disk' := by
  induction calls generalizing s disk with
  | nil =>
    obtain rfl := Option.some.inj hrun
    exact ⟨disk, h⟩
  | cons p calls ih =>
    obtain ⟨env, c⟩ := p
    rw [Session.runOk] at hrun
    split_ifs at hrun with hok
    obtain ⟨disk', h'⟩ := h.step_ok hok
    exact ih h' hrun

/-! ## Starting

An archive that opened, or an empty one.
-/

/-- The handle that an open delivers is live and published. -/
theorem ZipLive.opened {path : CStr} {mode : OpenMode} {hint : Format} {pak : Archive}
    (hopen : pakka_open_ex path mode hint (some disk) = .ok pak)
    (hzip : pakka_format_is_zip pak.format = true) :
    ZipLive pak.format (Session.opened disk pak) disk := by
  obtain ⟨h, cdr, l, es, hd, rfl⟩ := open_zip_directory hopen hzip
  have hloaded := hd.opened_entry
  have hnone : ∀ e ∈ es, e.pending_source = none ∧ e.pending_data = none := by
    intro e he
    simpa [Entry.staged, Option.isSome_eq_false_iff] using (hloaded e he).not_staged
  refine ⟨rfl, rfl, ⟨hzip, ⟨rfl, rfl, fun _ => hd.nodup⟩, ?_, ?_, ?_⟩, ?_,
    fun _ => ZipPublished.read hd⟩
  · intro e he
    have ho := hloaded e he
    obtain ⟨h1, h2⟩ := hnone e he
    refine ⟨ho.method, ho.stored, Or.inl h1, ?_, ?_, fun _ => (hd.loaded e he).in_file,
      ho.name.fits⟩
    · intro d hx
      rw [h2] at hx
      cases hx
    · intro hx
      rw [h1] at hx
      cases hx
  · intro e he hs
    rw [(hloaded e he).not_staged] at hs
    cases hs
  · intro hx
    cases hx
  · intro e he
    have ho := hloaded e he
    exact ⟨ho.name.fits, ho.name.nonempty, ho.name.no_control, ho.no_marker⟩

/-- The file of no entries. -/
theorem zip_image_nil : ZipImage [] :=
  ⟨ZipPlaced.nil 0, by simp, by simp, by simp, by decide, by decide⟩

/-- The handle that a create delivers is live and published, with no entries. -/
theorem ZipLive.created {path : CStr} {pak : Archive}
    (h : (pakka_create env path format false).res = .ok pak)
    (hzip : pakka_format_is_zip pak.format = true) :
    (∃ disk, ZipLive pak.format (Session.created (pakka_create env path format false) pak) disk) ∧
      pak.entries = [] := by
  unfold pakka_create at h
  by_cases hp : path.strlen ≥ OS_PATH_MAX
  · rw [if_pos hp] at h
    cases h
  rw [if_neg hp, if_neg (by simp)] at h
  simp only [bind_res_ok, call_res_ok, exists_const, emit_res, true_and] at h
  obtain ⟨hmk, h⟩ := h
  by_cases hz : pakka_format_is_zip format = true
  · rw [if_pos hz] at h
    simp only [pakka_pk3_create_impl, bind_res_ok, writeAt_res_ok, call_res_ok, exists_const,
      pure_res, Except.ok.injEq] at h
    obtain ⟨hwr, hflush, rfl⟩ := h
    have hlog : (pakka_create env path format false).log =
        [.create .live, .write .live 0 (pk3_build_eocd 0 0 0)] := by
      unfold pakka_create
      rw [if_neg hp, if_neg (by simp), bind_log_of_ok ((call_res_ok _ _ _ ()).mpr hmk),
        bind_log_of_ok (emit_res _), call_log, emit_log, if_pos hz]
      unfold pakka_pk3_create_impl
      rw [bind_log_of_ok ((writeAt_res_ok _ _ _ _ _ _ ()).mpr hwr), writeAt_log_of_ok hwr,
        bind_log_of_ok ((call_res_ok _ _ _ ()).mpr hflush), call_log, pure_log]
      rfl
    have hfile : FileOp.run (fun _ => none) (pakka_create env path format false).log .live =
        some (zip_file []) := by
      rw [hlog, FileOp.run_cons, FileOp.run_write (by simp [FileOp.apply] : _ = some [])]
      exact congrArg some (overwrite_at_end [] _)
    refine ⟨⟨zip_file [], ⟨hfile, rfl, ⟨hzip, ⟨rfl, rfl, fun _ => List.nodup_nil⟩, ?_, ?_, ?_⟩, ?_,
      fun _ => ZipPublished.written zip_image_nil rfl rfl⟩⟩, rfl⟩
    · intro e he
      cases he
    · intro e he
      cases he
    · intro hx
      cases hx
    · intro e he
      cases he
  · -- a PAK-class archive is no ZIP archive
    exfalso
    rw [if_neg hz] at h
    simp only [bind_res_ok, writeAt_res_ok, exists_const, pure_res, Except.ok.injEq] at h
    obtain ⟨-, rfl⟩ := h
    change pakka_format_is_zip (pakka_create_format format) = true at hzip
    cases format <;> simp [pakka_create_format, pakka_format_is_zip] at hz hzip

/-- **Every session on a ZIP archive starts live and published.** -/
theorem Session.Started.zip_live (h : Session.Started s)
    (hzip : pakka_format_is_zip s.pak.format = true) :
    ∃ disk, ZipLive s.pak.format s disk := by
  cases h with
  | opened hopen => exact ⟨_, ZipLive.opened hopen hzip⟩
  | created hcreate => exact (ZipLive.created hcreate hzip).1

end Pakka
