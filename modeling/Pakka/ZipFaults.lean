/-
What a ZIP commit that fails leaves.

The rebuild writes the new offsets into the entries while it streams. `SameButOffsets` is how
far a list of entries may have got; wherever a failure strikes, the restoring assignments undo
it (`pk3_rebuild_rollback_offsets_eq`). The ways out are then the ones of every rebuild that
publishes by rename, `RebuildOutcome`.

Apart from the offsets the proof is that of the other family, with the same combinators: what fails
is reported, what is touched is the scratch file, and the rollback gives the list back.
-/
import Pakka.ZipRebuild

set_option autoImplicit false

namespace Pakka

open ByteImage Logged

/-! ## Rollback

Offsets are the only thing the rebuild changes in an entry, so putting them back is putting back the
list.
-/

/-- An entry with other offsets. -/
def OtherOffsets (e e' : Entry) : Prop :=
  ∃ lfh payload offset, e' = { e with
    pk3_lfh_offset := lfh
    pk3_payload_offset := payload
    offset := offset }

theorem OtherOffsets.refl (e : Entry) : OtherOffsets e e := ⟨_, _, _, rfl⟩

/-- A handle on its way through a rebuild: offsets may differ, and where the directory is to
go. -/
def SameButOffsets (pak pak' : Archive) : Prop :=
  ∃ es cdr_offset, pak' = { pak with entries := es, pk3_cdr_offset := cdr_offset } ∧
    List.Forall₂ OtherOffsets pak.entries es

/-- **The restoring assignments restore.** -/
theorem pk3_rebuild_rollback_offsets_eq {pak pak' : Archive} (h : SameButOffsets pak pak') :
    pk3_rebuild_rollback_offsets pak pak' = pak := by
  obtain ⟨es, cdr_offset, rfl, hes⟩ := h
  have hents : List.zipWith (fun (e o : Entry) =>
      { e with
        pk3_lfh_offset := o.pk3_lfh_offset
        pk3_payload_offset := o.pk3_payload_offset
        offset := o.offset }) es pak.entries = pak.entries := by
    generalize pak.entries = old at hes
    induction hes with
    | nil => rfl
    | cons he _ ih =>
      obtain ⟨lfh, payload, offset, rfl⟩ := he
      rw [List.zipWith_cons_cons, ih]
  simp only [pk3_rebuild_rollback_offsets, hents]

/-! ## Failures are reported

By composition of the parts.
-/

theorem reports_pk3_copy_payload (env : Env) (disk : Bytes) (i pos : ℕ) (e : Entry) :
    Reports (pk3_copy_payload env disk i pos e) := by
  unfold pk3_copy_payload
  split
  · exact reports_copy_pending_source _ _ _ _ _ _
  · exact reports_copy_pending_data _ _ _ _
  · exact (failsWith_call io_isError).bind fun _ => failsWith_copyChunks io_isError _

theorem otherOffsets_refl (es : List Entry) : List.Forall₂ OtherOffsets es es :=
  List.forall₂_same.mpr fun e _ => OtherOffsets.refl e

/-- The loop fails with a list that differs in offsets only: `old` are the entries that `done`
was placed from. -/
theorem failsWith_pk3_rebuild_loop {env : Env} {disk : Bytes} (es : List Entry) {i pos : ℕ}
    {cur_offset : UInt32} {old done : List Entry} (h : List.Forall₂ OtherOffsets old done) :
    FailsWith (fun err => IsError err.1 ∧ List.Forall₂ OtherOffsets (old ++ es) err.2)
      (pk3_rebuild_loop env disk i pos cur_offset done es) := by
  induction es generalizing i pos cur_offset old done with
  | nil => exact failsWith_pure _
  | cons e es ih =>
    have hnow : List.Forall₂ OtherOffsets (old ++ e :: es) (done ++ e :: es) :=
      List.rel_append h (otherOffsets_refl _)
    rw [pk3_rebuild_loop]
    refine FailsWith.ite (failsWith_fail.mpr ⟨limit_isError, hnow⟩) ?_
    refine FailsWith.bind (failsWith_writeAt ⟨io_isError, hnow⟩) fun _ => ?_
    refine FailsWith.bind (failsWith_mapError fun s hs => ?_) fun bs => ?_
    · exact ⟨reports_pk3_copy_payload env disk i _ e s hs, hnow⟩
    · have hplaced : List.Forall₂ OtherOffsets (old ++ [e])
          (done ++ [pk3_place_entry e cur_offset]) :=
        List.rel_append h (List.Forall₂.cons ⟨_, _, _, rfl⟩ List.Forall₂.nil)
      have hrest := @ih (i + 1) (pos + (pk3_lfh_bytes e).length + bs.length) ((pk3_place_entry e
        cur_offset).pk3_payload_offset + (pk3_place_entry e cur_offset).pk3_compressed_size) _ _
        hplaced
      rw [List.append_assoc] at hrest
      exact hrest

/-- Directory and end record leave the handle alone when they fail. -/
theorem failsWith_pk3_write_directory (env : Env) (f : FileId) (pak : Archive) (pos : ℕ) :
    FailsWith (fun err => IsError err.1 ∧ err.2 = pak) (pk3_write_directory env f pak pos) := by
  have hcdr : ∀ (es : List Entry) (i pos : ℕ) (cdr_size entry_count : UInt32),
      FailsWith (fun err => IsError err.1 ∧ err.2 = pak)
        (pk3_write_cdr env f pak i pos cdr_size entry_count es) := by
    intro es
    induction es with
    | nil => exact fun _ _ _ _ => failsWith_pure _
    | cons e es ih =>
      intro i pos cdr_size entry_count
      exact FailsWith.bind (failsWith_writeAt ⟨io_isError, rfl⟩) fun _ => ih _ _ _ _
  refine FailsWith.ite (failsWith_fail.mpr ⟨limit_isError, rfl⟩) ?_
  refine FailsWith.bind (hcdr _ _ _ _ _) fun _ => ?_
  refine FailsWith.bind (failsWith_writeAt ⟨io_isError, rfl⟩) fun _ => ?_
  exact FailsWith.bind (failsWith_call ⟨io_isError, rfl⟩) fun _ => failsWith_pure _

/-- What was placed differs from the handle in offsets only. -/
theorem zip_placed_same (env : Env) (disk : Bytes) (pak : Archive) :
    SameButOffsets pak { pak with
      entries := (zip_placed env disk pak).map Prod.fst
      pk3_cdr_offset := (zip_eocd (zip_placed env disk pak)).cdr_offset } := by
  refine ⟨_, _, rfl, ?_⟩
  rw [List.forall₂_map_right_iff]
  refine (zip_place_forall₂ _ _ _ _ _).imp ?_
  rintro e x ⟨cur, hx⟩
  exact ⟨_, _, _, hx⟩

/-- **The work on the scratch file fails** with a handle that differs in offsets only. -/
theorem failsWith_pk3_rebuild_scratch {env : Env} {disk : Bytes} {pak : Archive} {n : ℕ}
    (hes : ∀ e ∈ pak.entries, ZipEntryOk n e) :
    FailsWith (fun err => IsError err.1 ∧ SameButOffsets pak err.2)
      (pk3_rebuild_scratch env disk pak) := by
  refine failsWith_bind_of ?_ fun r hr => ?_
  · refine failsWith_mapError fun err herr => ?_
    obtain ⟨h1, h2⟩ := failsWith_pk3_rebuild_loop pak.entries List.Forall₂.nil err herr
    exact ⟨h1, err.2, pak.pk3_cdr_offset, rfl, h2⟩
  have hzero : (0 : UInt32).toNat = 0 := rfl
  obtain ⟨h1, -, -, -, -⟩ := pk3_rebuild_loop_ok pak.entries hes hzero (mapError_res_ok.mp hr)
  rw [List.nil_append] at h1
  have hsame : SameButOffsets pak { pak with entries := r.1, pk3_cdr_offset := r.2.1 } := by
    obtain ⟨es, cdr_offset, heq, hoffs⟩ := zip_placed_same env disk pak
    refine ⟨r.1, r.2.1, rfl, ?_⟩
    have hents : (zip_placed env disk pak).map Prod.fst = es := congrArg Archive.entries heq
    rw [h1]
    exact hents ▸ hoffs
  refine FailsWith.bind ?_ fun _ => ?_
  · intro err herr
    obtain ⟨h2, h3⟩ := failsWith_pk3_write_directory env .scratch _ _ err herr
    exact ⟨h2, h3 ▸ hsame⟩
  · exact FailsWith.bind (failsWith_call ⟨io_isError, hsame⟩) fun _ => failsWith_pure _

/-! ## The scratch work

Nothing but the scratch file is touched before the rename.
-/

theorem scratchOnly_writeAt {ε : Type} (σ : Schedule Site) (p : Site) (off : ℕ) (bs : Bytes)
    (e : ε) : ScratchOnly (writeAt σ p .scratch off bs e : Logged FileId ε Unit).log :=
  @ScratchOnly.of_confined 0 0 _ (confined_writeAt (Or.inr (Nat.zero_le off)))

theorem scratchOnly_pk3_copy_payload (env : Env) (disk : Bytes) (i pos : ℕ) (e : Entry) :
    ScratchOnly (pk3_copy_payload env disk i pos e).log := by
  unfold pk3_copy_payload
  split
  · exact .of_confined (confined_copy_pending_source _ _ _ _ _ _)
  · exact .of_confined (confined_copy_pending_data _ _ _ _)
  · refine ScratchOnly.bind (scratchOnly_call _ _ _) fun _ _ => ?_
    exact .of_confined (confined_copyChunks _ (Nat.le_refl _) : Confined FileId.scratch 0 _ _)

theorem scratchOnly_pk3_rebuild_loop {env : Env} {disk : Bytes} (es : List Entry) {i pos : ℕ}
    {cur_offset : UInt32} {done : List Entry} :
    ScratchOnly (pk3_rebuild_loop env disk i pos cur_offset done es).log := by
  induction es generalizing i pos cur_offset done with
  | nil => exact ScratchOnly.nil
  | cons e es ih =>
    rw [pk3_rebuild_loop]
    split_ifs
    · exact ScratchOnly.nil
    refine ScratchOnly.bind (scratchOnly_writeAt _ _ _ _ _) fun _ _ => ?_
    refine ScratchOnly.bind ?_ fun _ _ => ih
    rw [mapError_log]
    exact scratchOnly_pk3_copy_payload _ _ _ _ _

theorem scratchOnly_pk3_write_directory (env : Env) (pak : Archive) (pos : ℕ) :
    ScratchOnly (pk3_write_directory env .scratch pak pos).log := by
  have hcdr : ∀ (es : List Entry) (i pos : ℕ) (cdr_size entry_count : UInt32),
      ScratchOnly (pk3_write_cdr env .scratch pak i pos cdr_size entry_count es).log := by
    intro es
    induction es with
    | nil => exact fun _ _ _ _ => ScratchOnly.nil
    | cons e es ih =>
      intro i pos cdr_size entry_count
      exact ScratchOnly.bind (scratchOnly_writeAt _ _ _ _ _) fun _ _ => ih _ _ _ _
  refine forall_mem_ite ScratchOnly.nil ?_
  refine ScratchOnly.bind (hcdr _ _ _ _ _) fun _ _ => ?_
  refine ScratchOnly.bind (scratchOnly_writeAt _ _ _ _ _) fun _ _ => ?_
  exact ScratchOnly.bind (scratchOnly_call _ _ _) fun _ _ => ScratchOnly.nil

/-- **Up to the rename a rebuild works on the scratch file only.** -/
theorem scratchOnly_pk3_rebuild_work (env : Env) (disk : Bytes) (pak : Archive) :
    ScratchOnly (pk3_rebuild_work env disk pak).log := by
  refine ScratchOnly.bind ?_ fun _ _ => ScratchOnly.bind (scratchOnly_call _ _ _) fun _ _ => ?_
  · rw [mapError_log, alloc_for_entries_log]
    exact ScratchOnly.nil
  refine ScratchOnly.bind ?_ fun _ _ => ScratchOnly.bind (ScratchOnly.onError ?_) fun _ _ => ?_
  · intro op ho
    rw [List.mem_singleton.mp ho]
    exact Or.inr (Or.inl rfl)
  · rw [mapError_log]
    refine ScratchOnly.bind ?_ fun _ _ => ?_
    · rw [mapError_log]
      exact scratchOnly_pk3_rebuild_loop _
    refine ScratchOnly.bind (scratchOnly_pk3_write_directory _ _ _) fun _ _ => ?_
    exact ScratchOnly.bind (scratchOnly_call _ _ _) fun _ _ => ScratchOnly.nil
  · refine ScratchOnly.bind ?_ fun _ _ => ScratchOnly.nil
    unfold close_live_checked
    split_ifs
    · intro op ho
      rw [List.mem_singleton.mp ho]
      exact Or.inr (Or.inr rfl)
    · exact ScratchOnly.nil

/-- **Every failure before the rename puts the handle back**, up to its file handle. -/
theorem pk3_rebuild_work_failed {env : Env} {disk : Bytes} {pak : Archive} {n : ℕ}
    (hes : ∀ e ∈ pak.entries, ZipEntryOk n e) (hfp : pak.fp = true) :
    FailsWith (fun err => IsError err.1 ∧ (err.2 = pak ∨ err.2 = lost_fp pak))
      (pk3_rebuild_work env disk pak) := by
  refine FailsWith.bind ?_ fun _ => ?_
  · exact failsWith_mapError fun s hs => ⟨reports_alloc_for_entries _ _ _ s hs, Or.inl rfl⟩
  refine FailsWith.bind (failsWith_call ⟨io_isError, Or.inl rfl⟩) fun _ => ?_
  refine FailsWith.bind (failsWith_emit _) fun _ => ?_
  refine failsWith_bind_of ?_ fun r hr => ?_
  · refine failsWith_onError (failsWith_mapError fun err herr => ?_)
    obtain ⟨h1, h2⟩ := failsWith_pk3_rebuild_scratch hes err herr
    exact ⟨h1, Or.inl (pk3_rebuild_rollback_offsets_eq h2)⟩
  · rw [onError_res, mapError_res_ok] at hr
    obtain ⟨h1, -⟩ := pk3_rebuild_scratch_ok hes hr
    have hback : pk3_rebuild_rollback_offsets pak r.1 = pak := by
      rw [h1]
      exact pk3_rebuild_rollback_offsets_eq (zip_placed_same env disk pak)
    rw [hback]
    refine FailsWith.bind ?_ fun _ => failsWith_pure _
    intro err herr
    unfold close_live_checked at herr
    split_ifs at herr
    obtain rfl := Except.error.inj herr
    refine ⟨io_isError, ?_⟩
    cases env.faults.fails .reopen with
    | true => exact Or.inr rfl
    | false =>
      left
      simp only [Bool.not_false, ← hfp]

/-! ## The ways out

The outcomes, as for the other family.
-/

/-- The scratch file of a rebuild that got to the rename. -/
theorem pk3_rebuild_work_ok {env : Env} {disk : Bytes} {pak : Archive} {n : ℕ}
    {r : Archive × UInt32} (hes : ∀ e ∈ pak.entries, ZipEntryOk n e)
    (h : (pk3_rebuild_work env disk pak).res = .ok r) :
    (pk3_rebuild_scratch env disk pak).res = .ok r ∧
      ∀ fs, FileOp.run fs (pk3_rebuild_work env disk pak).log .scratch =
        some (zip_file (zip_placed env disk pak)) := by
  simp only [pk3_rebuild_work, bind_res_ok, mapError_res_ok, call_res_ok, exists_const, emit_res,
    true_and, onError_res, pure_res, Except.ok.injEq] at h
  obtain ⟨u, hb, hmk, r', hscr, u2, hclose, rfl⟩ := h
  obtain ⟨-, -, -, -, hlog⟩ := pk3_rebuild_scratch_ok hes hscr
  refine ⟨hscr, fun fs => ?_⟩
  have hcl : (close_live_checked env (pk3_rebuild_rollback_offsets pak r'.1)).log = [] := by
    unfold close_live_checked at hclose ⊢
    split_ifs at hclose ⊢
    exact pure_log _
  unfold pk3_rebuild_work
  rw [bind_log_of_ok (mapError_res_ok.mpr hb), mapError_log, alloc_for_entries_log,
    bind_log_of_ok ((call_res_ok _ _ _ ()).mpr hmk), call_log, bind_log_of_ok (emit_res _),
    emit_log, bind_log_of_ok (by rw [onError_res, mapError_res_ok]; exact hscr),
    onError_log_of_ok (mapError_res_ok.mpr hscr), mapError_log, bind_log_of_ok hclose, hcl,
    pure_log, List.append_nil, List.append_nil, List.nil_append, List.nil_append,
    List.singleton_append, FileOp.run_cons, hlog _ [] (by simp [FileOp.apply])]
  exact congrArg some (overwrite_at_end [] _)

/-- **The ways out of a rebuild** of a ZIP archive. -/
theorem pk3_commit_rebuild_outcome (env : Env) {disk : Bytes} {pak : Archive}
    (h : ZipState disk.length pak) (hnamed : ∀ e ∈ pak.entries, ZipNamed e) (hfp : pak.fp = true)
    (hnum : pak.num_entries.toNat ≤ 0xFFFF) :
    RebuildOutcome pak (fun new pak' => ZipCommitted env disk pak new pak')
      (fun p => env.faults.fails .reopen = true ∧ p.fp = false ∧
        ∀ e ∈ p.entries, e.staged = false)
      (pk3_commit_rebuild env disk pak) := by
  unfold pk3_commit_rebuild pk3_rebuild_publish
  refine rebuild_outcome hfp (scratchOnly_pk3_rebuild_work env disk pak)
    (pk3_rebuild_work_failed h.entries hfp) fun r hr => ?_
  obtain ⟨hscr, hlog⟩ := pk3_rebuild_work_ok h.entries hr
  obtain ⟨h1, h2, hplaced, hsize, -⟩ := pk3_rebuild_scratch_ok h.entries hscr
  refine ⟨?_, fun hre => ⟨hre, rfl, ?_⟩, _, hlog, ?_⟩
  · rw [h1]
    exact pk3_rebuild_rollback_offsets_eq (zip_placed_same env disk pak)
  · intro e he
    obtain ⟨x, -, rfl⟩ := List.mem_map.mp he
    rfl
  -- the count in the handle is the number of entries, since the directory fits
  have hcount : pak.entries.length ≤ 0xFFFF := by
    obtain ⟨hge, -⟩ := @length_zip_cdr_bounds ((zip_placed env disk pak).map Prod.fst) (by
      intro e he
      obtain ⟨x, hx, rfl⟩ := List.mem_map.mp he
      exact zip_place_forall (fun e he => (h.entries e he).name_fits) (fun _ _ hp => hp) x hx)
    have hmax : UINT32_MAX = 4294967295 := rfl
    rw [List.length_map, zip_placed, length_zip_place] at hge
    rw [h.linked.count, UInt32.toNat_ofNat'] at hnum
    change _ + (zip_cdr ((zip_place env.sources disk 0 0 pak.entries).map Prod.fst)).length ≤ _
      at hsize
    omega
  have himage := zip_placed_image h.entries hnamed hplaced hsize hcount
  rw [h1, h2]
  exact zip_published_committed h himage

end Pakka
