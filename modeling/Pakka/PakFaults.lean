/-
What a commit that fails leaves of a PAK-class archive.

A rebuild works on the scratch file only until its last step, the rename, and every failure
before puts the handle back as it was (`pak_rebuild_work_failed`). So there are three ways out
of a rebuild, `RebuildOutcome`: nothing happened, everything happened, or everything happened
but the reopen. An in-place commit that fails has lost the directory of the live file at most.

The lemmas go along the computation in its order. Of each part it is shown that it reports its
failures, that it touches nothing but the scratch file, and what it leaves of the handle; the
combinators of `Faults` put these together.
-/
import Pakka.PakRebuild

set_option autoImplicit false

namespace Pakka

open ByteImage Logged

/-! ## Failures are reported

The same for the parts of a rebuild, by composition.
-/

theorem reports_copy_pending_source (env : Env) (i pos : ℕ) (path : CStr) (size crc : UInt32) :
    Reports (copy_pending_source env i pos path size crc) := by
  have hformat : IsError .format := by simp [IsError]
  refine (failsWith_ofExcept fun _ => check_source_error).bind fun _ => ?_
  refine FailsWith.ite (failsWith_fail.mpr hformat) ?_
  refine (failsWith_ofOption io_isError).bind fun _ => ?_
  refine (failsWith_copyChunks io_isError _).bind fun _ => ?_
  exact FailsWith.ite (failsWith_fail.mpr hformat) (failsWith_pure _)

theorem reports_copy_pending_data (env : Env) (i pos : ℕ) (data : Bytes) :
    Reports (copy_pending_data env i pos data) :=
  FailsWith.ite ((failsWith_writeAt io_isError).bind fun _ => failsWith_pure _) (failsWith_pure _)

theorem reports_copy_between_paks (env : Env) (disk : Bytes) (i pos : ℕ) (e : Entry) :
    Reports (copy_between_paks env disk i pos e) := by
  refine (failsWith_call io_isError).bind fun _ => ?_
  refine FailsWith.ite (failsWith_fail.mpr limit_isError) ?_
  split
  · exact reports_copy_pending_source _ _ _ _ _ _
  · exact reports_copy_pending_data _ _ _ _
  · refine (failsWith_call io_isError).bind fun _ => FailsWith.ite (failsWith_pure _) ?_
    exact (failsWith_call nomem_isError).bind fun _ => failsWith_copyChunks io_isError _

theorem reports_pak_rebuild_copy {env : Env} {disk : Bytes} {owner : Option (List ℕ)}
    (es : List Entry) {i pos : ℕ} {offsets : List UInt32} :
    Reports (pak_rebuild_copy env disk owner i pos offsets es) := by
  induction es generalizing i pos offsets with
  | nil => exact failsWith_pure _
  | cons e es ih =>
    rw [pak_rebuild_copy]
    split
    · exact ih
    · exact (reports_copy_between_paks env disk i pos e).bind fun _ => ih

theorem reports_alloc_for_entries (env : Env) (site : Site) (es : List Entry) :
    Reports (alloc_for_entries env site es) :=
  FailsWith.ite (failsWith_call nomem_isError) (failsWith_pure _)

theorem reports_pak_rebuild_scratch (env : Env) (disk : Bytes) (pak : Archive) :
    Reports (pak_rebuild_scratch env disk pak) := by
  refine (reports_alloc_for_entries _ _ _).bind fun _ => (failsWith_call io_isError).bind fun _ => ?_
  refine (failsWith_emit _).bind fun _ => failsWith_onError ?_
  refine (failsWith_call io_isError).bind fun _ => (reports_pak_rebuild_copy _).bind fun _ => ?_
  refine (failsWith_call io_isError).bind fun _ => ?_
  exact (reports_alloc_for_entries _ _ _).bind fun _ => failsWith_pure _

/-! ## Rollback

What the rollback restores is all that the rebuild has changed, on a list of the same length.
-/

/-- The copy loop records one offset for each entry. -/
theorem length_pak_rebuild_copy {env : Env} {disk : Bytes} {owner : Option (List ℕ)}
    (es : List Entry) {i pos pos' : ℕ} {offsets offsets' : List UInt32}
    (h : (pak_rebuild_copy env disk owner i pos offsets es).res = .ok (offsets', pos')) :
    offsets'.length = offsets.length + es.length := by
  induction es generalizing i pos offsets with
  | nil =>
    simp only [pak_rebuild_copy, pure_res, Except.ok.injEq, Prod.mk.injEq] at h
    rw [← h.1]
    rfl
  | cons e es ih =>
    rw [pak_rebuild_copy] at h
    split at h
    · rw [ih h]
      simp only [List.length_append, List.length_cons, List.length_nil]
      omega
    · rw [bind_res_ok] at h
      obtain ⟨bs, -, h⟩ := h
      rw [ih h]
      simp only [List.length_append, List.length_cons, List.length_nil]
      omega

theorem length_pak_rebuild_scratch {env : Env} {disk : Bytes} {pak : Archive}
    {offsets : List UInt32} {pos : ℕ}
    (h : (pak_rebuild_scratch env disk pak).res = .ok (offsets, pos)) :
    offsets.length = pak.entries.length := by
  simp only [pak_rebuild_scratch, bind_res_ok, call_res_ok, exists_const, emit_res, true_and,
    onError_res, pak_rebuild_payloads, pure_res, Except.ok.injEq] at h
  obtain ⟨u, hb, hmk, hseek, r, hcopy, htell, u2, hroll, rfl⟩ := h
  simpa using length_pak_rebuild_copy _ hcopy

/-- **The restoring assignments restore**, whatever became of the directory words. -/
theorem pak_rebuild_rollback_eq {pak pak' : Archive} {offsets : List UInt32} {pos : ℕ}
    (hlen : offsets.length = pak.entries.length)
    (h : SameButDirectory (pak_rebuild_install pak offsets pos) pak') :
    pak_rebuild_rollback pak pak' = pak := by
  obtain ⟨diroffset, dirlength, rfl⟩ := h
  have hents : List.zipWith (fun e o => { e with offset := o.offset })
      (List.zipWith (fun e o => { e with offset := o }) pak.entries offsets) pak.entries =
        pak.entries := by
    refine List.ext_getElem? fun k => ?_
    simp only [List.getElem?_zipWith]
    by_cases hk : k < pak.entries.length
    · rw [List.getElem?_eq_getElem hk, List.getElem?_eq_getElem (by omega)]
    · rw [List.getElem?_eq_none (Nat.not_lt.mp hk)]
  simp only [pak_rebuild_rollback, pak_rebuild_install, hents]

/-! ## The scratch work

Everything before the rename touches the scratch file and nothing else, whatever fails.
-/

theorem ScratchOnly.of_confined {lo hi : ℕ} {log : List (FileOp FileId)}
    (h : Confined .scratch lo hi log) : ScratchOnly log := by
  intro op ho
  obtain ⟨off, bs, rfl, -⟩ := h op ho
  exact Or.inl ⟨off, bs, rfl⟩

theorem ScratchOnly.nil : ScratchOnly [] := by
  intro op ho
  cases ho

theorem ScratchOnly.bind {ε α β : Type} {x : Logged FileId ε α} {k : α → Logged FileId ε β}
    (hx : ScratchOnly x.log) (hk : ∀ a, x.res = .ok a → ScratchOnly (k a).log) :
    ScratchOnly (x >>= k).log :=
  forall_mem_bind hx hk

theorem ScratchOnly.onError {ε α : Type} {x : Logged FileId ε α} (hx : ScratchOnly x.log) :
    ScratchOnly (x.onError [.remove .scratch]).log := by
  refine forall_mem_onError hx fun op ho => ?_
  rw [List.mem_singleton.mp ho]
  exact Or.inr (Or.inr rfl)

theorem scratchOnly_call {ε : Type} (σ : Schedule Site) (p : Site) (e : ε) :
    ScratchOnly (call σ p e : Logged FileId ε Unit).log := by
  rw [call_log]
  exact ScratchOnly.nil

theorem confined_copy_pending_source (env : Env) (i pos : ℕ) (path : CStr) (size crc : UInt32) :
    Confined .scratch 0 pos (copy_pending_source env i pos path size crc).log := by
  refine Confined.bind (by rw [ofExcept_log]; exact Confined.nil _ _ _) fun _ _ => ?_
  split_ifs
  · exact Confined.nil _ _ _
  refine Confined.bind (confined_ofOption _ _ _ _ _) fun _ _ => ?_
  refine Confined.bind (confined_copyChunks _ (Nat.le_refl _)) fun _ _ => ?_
  split_ifs <;> exact Confined.nil _ _ _

theorem confined_copy_pending_data (env : Env) (i pos : ℕ) (data : Bytes) :
    Confined .scratch 0 pos (copy_pending_data env i pos data).log := by
  unfold copy_pending_data
  split_ifs
  · exact Confined.bind (confined_writeAt (Or.inr (Nat.le_refl _))) fun _ _ => Confined.nil _ _ _
  · exact Confined.nil _ _ _

theorem confined_copy_between_paks (env : Env) (disk : Bytes) (i pos : ℕ) (e : Entry) :
    Confined .scratch 0 pos (copy_between_paks env disk i pos e).log := by
  refine Confined.bind (confined_call _ _ _ _ _ _) fun _ _ => ?_
  split_ifs
  · exact Confined.nil _ _ _
  split
  · exact confined_copy_pending_source _ _ _ _ _ _
  · exact confined_copy_pending_data _ _ _ _
  · refine Confined.bind (confined_call _ _ _ _ _ _) fun _ _ => ?_
    split_ifs
    · exact Confined.nil _ _ _
    refine Confined.bind (confined_call _ _ _ _ _ _) fun _ _ => ?_
    exact confined_copyChunks _ (Nat.le_refl _)

theorem scratchOnly_pak_rebuild_copy {env : Env} {disk : Bytes} {owner : Option (List ℕ)}
    (es : List Entry) {i pos : ℕ} {offsets : List UInt32} :
    ScratchOnly (pak_rebuild_copy env disk owner i pos offsets es).log := by
  induction es generalizing i pos offsets with
  | nil => exact ScratchOnly.nil
  | cons e es ih =>
    rw [pak_rebuild_copy]
    split
    · exact ih
    · exact ScratchOnly.bind (.of_confined (confined_copy_between_paks _ _ _ _ _)) fun _ _ => ih

theorem scratchOnly_pak_rebuild_scratch (env : Env) (disk : Bytes) (pak : Archive) :
    ScratchOnly (pak_rebuild_scratch env disk pak).log := by
  have halloc : ∀ site, ScratchOnly (alloc_for_entries env site pak.entries).log := by
    intro site
    rw [alloc_for_entries_log]
    exact ScratchOnly.nil
  refine ScratchOnly.bind (halloc _) fun _ _ =>
    ScratchOnly.bind (scratchOnly_call _ _ _) fun _ _ => ?_
  refine ScratchOnly.bind ?_ fun _ _ => ScratchOnly.onError ?_
  · intro op ho
    rw [List.mem_singleton.mp ho]
    exact Or.inr (Or.inl rfl)
  refine ScratchOnly.bind (scratchOnly_call _ _ _) fun _ _ => ?_
  refine ScratchOnly.bind (scratchOnly_pak_rebuild_copy _) fun _ _ => ?_
  refine ScratchOnly.bind (scratchOnly_call _ _ _) fun _ _ => ?_
  exact ScratchOnly.bind (halloc _) fun _ _ => ScratchOnly.nil

/-- **Up to the rename a rebuild works on the scratch file only.** -/
theorem scratchOnly_pak_rebuild_work {env : Env} {disk : Bytes} {pak : Archive}
    (hsig : pak.signature.length = 4) : ScratchOnly (pak_rebuild_work env disk pak).log := by
  refine ScratchOnly.bind ?_ fun r _ => ScratchOnly.bind (ScratchOnly.onError ?_) fun _ _ => ?_
  · rw [mapError_log]
    exact scratchOnly_pak_rebuild_scratch env disk pak
  · rw [mapError_log]
    exact ScratchOnly.of_confined (confined_write_pak_directory env .scratch (by exact hsig))
  · exact ScratchOnly.bind (ScratchOnly.onError (scratchOnly_call _ _ _)) fun _ _ => ScratchOnly.nil

/-- **Every failure before the rename puts the handle back.** -/
theorem pak_rebuild_work_failed {env : Env} {disk : Bytes} {pak : Archive} :
    FailsWith (fun err => IsError err.1 ∧ err.2 = pak) (pak_rebuild_work env disk pak) := by
  refine failsWith_bind_of ?_ fun r hr => ?_
  · refine failsWith_mapError fun s hs => ⟨reports_pak_rebuild_scratch env disk pak s hs, rfl⟩
  have hlen : r.1.length = pak.entries.length := length_pak_rebuild_scratch (mapError_res_ok.mp hr)
  refine failsWith_bind_of ?_ fun done hdone => ?_
  · refine failsWith_onError (failsWith_mapError fun err herr => ?_)
    obtain ⟨h1, h2⟩ := failsWith_write_pak_directory env .scratch _ err herr
    exact ⟨h1, pak_rebuild_rollback_eq hlen h2⟩
  · rw [onError_res, mapError_res_ok] at hdone
    have hsame := write_pak_directory_same hdone
    refine FailsWith.bind (failsWith_onError (failsWith_call ?_)) fun _ => failsWith_pure _
    exact ⟨io_isError, pak_rebuild_rollback_eq hlen hsame⟩

/-! ## The ways out

The three outcomes, with the log up to the rename and behind it.
-/

/-- The handle with its file handle gone. -/
def lost_fp (pak : Archive) : Archive := { pak with fp := false }

/-- How a computation that publishes by rename ends: with the old file and handle, up to the
file handle; or with the new file, and the new handle or one whose reopen failed. -/
inductive RebuildOutcome (pak : Archive) (New : Bytes → Archive → Prop) (Lost : Archive → Prop)
    (x : HandleOp Archive) : Prop where
  | kept {s : Status} {pak' : Archive} (hres : x.res = .error (s, pak')) (hs : IsError s)
      (hlog : ScratchOnly x.log) (hpak : pak' = pak ∨ pak' = lost_fp pak) :
      RebuildOutcome pak New Lost x
  | published {work : List (FileOp FileId)} {scratch : Bytes} {pak' : Archive}
      (hlog : x.log = work ++ [.rename .scratch .live]) (hwork : ScratchOnly work)
      (hscratch : ∀ fs, FileOp.run fs work .scratch = some scratch) (hnew : New scratch pak')
      (hres : x.res = .ok pak' ∨ ∃ s p, x.res = .error (s, p) ∧ IsError s ∧ Lost p) :
      RebuildOutcome pak New Lost x

theorem publish_scratch_failed {env : Env} {pak : Archive} (hfp : pak.fp = true)
    {err : Status × Archive} (h : (publish_scratch env pak).res = .error err) :
    IsError err.1 ∧ (err.2 = pak ∨ err.2 = lost_fp pak) ∧
      (publish_scratch env pak).log = [.remove .scratch] := by
  unfold publish_scratch at h ⊢
  split_ifs at h ⊢ with hr
  · obtain rfl := Except.error.inj h
    refine ⟨io_isError, ?_, rfl⟩
    cases env.faults.fails .reopen with
    | true => exact Or.inr rfl
    | false =>
      left
      simp only [Bool.not_false, ← hfp]
  · cases h

/-- **Publish by rename.** Work on the scratch file that puts the handle back when it fails,
then the rename, then the reopen. -/
theorem rebuild_outcome {α : Type} {env : Env} {pak : Archive} {New : Bytes → Archive → Prop}
    {Lost : Archive → Prop} {work : HandleOp α} {restored next lost : α → Archive}
    (hfp : pak.fp = true) (hwork : ScratchOnly work.log)
    (hfail : FailsWith (fun err => IsError err.1 ∧ (err.2 = pak ∨ err.2 = lost_fp pak)) work)
    (hok : ∀ r, work.res = .ok r → restored r = pak ∧
      (env.faults.fails .reopen = true → Lost (lost r)) ∧
      ∃ scratch, (∀ fs, FileOp.run fs work.log .scratch = some scratch) ∧ New scratch (next r)) :
    RebuildOutcome pak New Lost (do
      let r ← (do
        let r ← work
        publish_scratch env (restored r)
        pure r)
      call env.faults .reopen (.io, lost r)
      pure (next r)) := by
  cases hw : work.res with
  | error err =>
    obtain ⟨h1, h2⟩ := hfail err hw
    rw [bind_eq_of_error hw]
    exact RebuildOutcome.kept rfl h1 hwork h2
  | ok r =>
    obtain ⟨hback, hlost, scratch, hs, hnew⟩ := hok r hw
    rw [bind_eq_of_ok hw, hback]
    cases hp : (publish_scratch env pak).res with
    | error err =>
      obtain ⟨h1, h2, h3⟩ := publish_scratch_failed hfp hp
      rw [bind_eq_of_error hp, h3]
      refine RebuildOutcome.kept rfl h1 ?_ h2
      intro op ho
      rcases List.mem_append.mp ho with ho | ho
      · exact hwork op ho
      · exact Or.inr (Or.inr (List.mem_singleton.mp ho))
    | ok u =>
      rw [bind_eq_of_ok hp, publish_scratch_ok hp]
      have hlog : ∀ tail : List (FileOp FileId), tail = [] →
          work.log ++ ([FileOp.rename .scratch .live] ++ (pure r : HandleOp α).log) ++ tail =
            work.log ++ [.rename .scratch .live] := by
        rintro tail rfl
        simp
      cases hre : env.faults.fails .reopen with
      | true =>
        have hcall : (call env.faults .reopen (Status.io, lost r) : HandleOp Unit).res =
            .error (.io, lost r) := by
          rw [call, hre]
          rfl
        refine RebuildOutcome.published ?_ hwork hs hnew (Or.inr ?_)
        · refine (congrArg Logged.log (bind_eq_of_ok (a := r) rfl)).trans (hlog _ ?_)
          rw [bind_eq_of_error hcall, call_log]
        · refine ⟨.io, lost r, ?_, io_isError, hlost hre⟩
          rw [bind_eq_of_ok (a := r) rfl, bind_eq_of_error hcall]
      | false =>
        have hcall : (call env.faults .reopen (Status.io, lost r) : HandleOp Unit).res = .ok () :=
          (call_res_ok _ _ _ ()).mpr hre
        refine RebuildOutcome.published ?_ hwork hs hnew (Or.inl ?_)
        · refine (congrArg Logged.log (bind_eq_of_ok (a := r) rfl)).trans (hlog _ ?_)
          rw [bind_eq_of_ok hcall, call_log, pure_log]
          rfl
        · rw [bind_eq_of_ok (a := r) rfl, bind_eq_of_ok hcall]
          rfl

/-- **The ways out of a rebuild** of a PAK-class archive. -/
theorem pakka_commit_rebuild_outcome (env : Env) {disk : Bytes} {pak : Archive} {geom : Geometry}
    (h : PakState disk.length pak geom) (hfp : pak.fp = true) :
    RebuildOutcome pak (fun new pak' => PakCommitted env disk pak new pak' geom)
      (fun p => env.faults.fails .reopen = true ∧ p.fp = false ∧ p.dirty = pak.dirty)
      (pakka_commit_rebuild env disk pak) := by
  have hsig : pak.signature.length = 4 := by
    rw [h.signature, geometry_signature_length h.geometry]
  change RebuildOutcome _ _ _ (do
    let done ← pak_rebuild_publish env disk pak
    call env.faults .reopen (.io, lost_fp done)
    pure (finished done))
  refine rebuild_outcome hfp (scratchOnly_pak_rebuild_work hsig) (fun err herr => ?_)
    fun done hdone => ?_
  · obtain ⟨h1, h2⟩ := pak_rebuild_work_failed err herr
    exact ⟨h1, Or.inl h2⟩
  · obtain ⟨scratch, hs⟩ := pak_rebuild_work_ok h hdone
    refine ⟨?_, fun hre => ⟨hre, rfl, hs.dirty⟩, scratch, hs.log, hs.committed⟩
    simp only [pak_rebuild_work, bind_res_ok, mapError_res_ok, onError_res, call_res_ok,
      exists_const, pure_res, Except.ok.injEq] at hdone
    obtain ⟨⟨offsets, pos⟩, hscr, done', hdir, -, rfl⟩ := hdone
    exact pak_rebuild_rollback_eq (length_pak_rebuild_scratch hscr) (write_pak_directory_same hdir)

/-! ## The commit in place

Writes at `payload_end` and into the header only.
-/

/-- **An in-place commit that fails** keeps the handle but for its directory words, and the
payloads of the file. -/
theorem pakka_commit_in_place_failed (env : Env) {pak : Archive}
    (hsig : pak.signature.length = 4) :
    FailsWith (DirectoryError pak) (pakka_commit_in_place env pak) ∧
      Confined .live PAKFILE_HEADER_SIZE pak.payload_end (pakka_commit_in_place env pak).log := by
  constructor
  · refine failsWith_bind_of (failsWith_write_pak_directory env .live pak) fun pak1 h1 => ?_
    refine (failsWith_call ?_).bind fun _ => failsWith_pure _
    exact ⟨io_isError, write_pak_directory_same h1⟩
  · refine Confined.bind (confined_write_pak_directory env .live hsig) fun _ _ => ?_
    exact Confined.bind (confined_call _ _ _ _ _ _) fun _ _ => Confined.nil _ _ _

end Pakka
