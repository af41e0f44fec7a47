/-
What the mutators do on a PAK-class archive, one lemma for each.

Whatever fails, all an add does to the files is write to the archive at or behind
`payload_end`, and nothing at all in atomic mode; the other mutators touch no file.

The statements are about logs. A log says what reached the files however the call ended, so the same
lemma serves a call that succeeded and one that failed half-way.
-/
import Pakka.Session

set_option autoImplicit false

namespace Pakka

open ByteImage Logged

/-! ## What an add may write

The log of each kind of add, by composition of the steps.
-/

theorem confined_pak_write_file_payload {env : Env} {stream : Bytes} {src_size lo : ℕ}
    {cap : Captured} :
    Confined .live 0 lo (pak_write_file_payload env stream src_size lo cap).log := by
  unfold pak_write_file_payload
  split
  · exact confined_writeAt (Or.inr (Nat.le_refl _))
  · exact confined_writeAt (Or.inr (Nat.le_refl _))
  · split_ifs
    · exact Confined.nil _ _ _
    · refine Confined.bind (confined_call _ _ _ _ _ _) fun _ _ => ?_
      refine Confined.bind (confined_copyChunks _ (Nat.le_refl _)) fun _ _ => ?_
      exact Confined.nil _ _ _

theorem confined_pak_write_memory_payload {env : Env} {data : Bytes} {lo : ℕ} {cap : Captured} :
    Confined .live 0 lo (pak_write_memory_payload env data lo cap).log := by
  unfold pak_write_memory_payload
  split
  · exact confined_writeAt (Or.inr (Nat.le_refl _))
  · split_ifs
    · exact confined_writeAt (Or.inr (Nat.le_refl _))
    · exact Confined.nil _ _ _

theorem pak_stage_file_log (env : Env) (pak : Archive) (source_path entry_name : CStr)
    (stream : Bytes) (src_size : ℕ) (cap : Captured) :
    (pak_stage_file env pak source_path entry_name stream src_size cap).log = [] := by
  have h : ∀ op ∈ (pak_stage_file env pak source_path entry_name stream src_size cap).log,
      False := by
    unfold pak_stage_file
    refine forall_mem_bind (by simp) fun _ _ => ?_
    cases cap with
    | encoded enc => simp
    | raw src => simp
    | none =>
      simp only
      split_ifs
      · simp
      · exact forall_mem_bind (by simp) fun _ _ => by simp
  exact List.eq_nil_iff_forall_not_mem.mpr h

theorem pak_stage_memory_log (env : Env) (pak : Archive) (entry_name : CStr) (data : Bytes)
    (cap : Captured) : (pak_stage_memory env pak entry_name data cap).log = [] := by
  have h : ∀ op ∈ (pak_stage_memory env pak entry_name data cap).log, False := by
    unfold pak_stage_memory
    refine forall_mem_bind (by simp) fun _ _ => ?_
    cases cap with
    | encoded enc => simp
    | raw src => exact forall_mem_bind (by simp) fun _ _ => by simp
    | none => exact forall_mem_bind (by simp) fun _ _ => by simp
  exact List.eq_nil_iff_forall_not_mem.mpr h

/-- What an add does to the files, in either mode. -/
def AddLog (pak : Archive) (log : List (FileOp FileId)) : Prop :=
  Confined .live 0 pak.payload_end log ∧ (pak.atomic_commit = true → log = [])

theorem AddLog.nil (pak : Archive) : AddLog pak [] := ⟨Confined.nil _ _ _, fun _ => rfl⟩

theorem AddLog.bind {pak : Archive} {α β : Type} {x : Op α} {k : α → Op β} (hx : x.log = [])
    (hk : ∀ a, x.res = .ok a → AddLog pak (k a).log) : AddLog pak (x >>= k).log := by
  cases hr : x.res with
  | error e =>
    change AddLog pak (Logged.bind x k).log
    unfold Logged.bind
    rw [hr]
    simp only [hx]
    exact AddLog.nil pak
  | ok a =>
    rw [bind_log_of_ok hr, hx, List.nil_append]
    exact hk a hr

/-- A check in front: either side of it obeys. -/
theorem AddLog.ite {pak : Archive} {α : Type} {c : Prop} [Decidable c] {x y : Op α}
    (hx : c → AddLog pak x.log) (hy : ¬ c → AddLog pak y.log) :
    AddLog pak (if c then x else y).log := by
  split_ifs with h
  · exact hx h
  · exact hy h

theorem AddLog.of_confined {pak : Archive} {log : List (FileOp FileId)}
    (h : Confined .live 0 pak.payload_end log) (ha : ¬ pak.atomic_commit = true) : AddLog pak log :=
  ⟨h, fun hc => absurd hc ha⟩

theorem confined_pak_append_file (env : Env) (pak : Archive) (entry_name : CStr)
    (stream : Bytes) (src_size : ℕ) (cap : Captured) :
    Confined .live 0 pak.payload_end
      (pak_append_file env pak entry_name stream src_size cap).log := by
  unfold pak_append_file
  simp only
  split_ifs
  · exact Confined.nil _ _ _
  refine Confined.bind (confined_call _ _ _ _ _ _) fun _ _ => ?_
  refine Confined.bind (confined_call _ _ _ _ _ _) fun _ _ => ?_
  exact Confined.bind confined_pak_write_file_payload fun _ _ => Confined.nil _ _ _

theorem confined_pak_append_memory (env : Env) (pak : Archive) (entry_name : CStr)
    (data : Bytes) (cap : Captured) :
    Confined .live 0 pak.payload_end (pak_append_memory env pak entry_name data cap).log := by
  unfold pak_append_memory
  simp only
  split_ifs
  · exact Confined.nil _ _ _
  refine Confined.bind (confined_call _ _ _ _ _ _) fun _ _ => ?_
  refine Confined.bind (confined_call _ _ _ _ _ _) fun _ _ => ?_
  exact Confined.bind confined_pak_write_memory_payload fun _ _ => Confined.nil _ _ _

theorem pak_add_file_log (env : Env) (pak : Archive) (source_path entry_name : CStr) :
    AddLog pak (pak_add_file env pak source_path entry_name).log := by
  unfold pak_add_file
  refine AddLog.bind (by simp) fun stream _ => AddLog.bind (by simp) fun src_size _ => ?_
  refine AddLog.ite (fun _ => AddLog.nil pak) fun _ => ?_
  refine AddLog.bind (by simp) fun cap _ => AddLog.ite (fun _ => ?_) fun ha => ?_
  · rw [pak_stage_file_log]
    exact AddLog.nil pak
  · exact AddLog.of_confined (confined_pak_append_file env pak entry_name stream src_size cap) ha

theorem pak_add_memory_log (env : Env) (pak : Archive) (entry_name : CStr) (data : Bytes) :
    AddLog pak (pak_add_memory env pak entry_name data).log := by
  unfold pak_add_memory
  refine AddLog.ite (fun _ => AddLog.nil pak) fun _ => AddLog.ite (fun _ => ?_) fun ha => ?_
  · rw [pak_stage_memory_log]
    exact AddLog.nil pak
  · exact AddLog.of_confined (confined_pak_append_memory env pak entry_name data _) ha

/-! ## Calls that touch no file

Their logs are empty, and a call that fails leaves the handle.
-/

theorem pakka_delete_log (pak : Archive) (entry_name : CStr) :
    (pakka_delete pak entry_name).log = [] := by
  unfold pakka_delete
  split_ifs
  · rfl
  cases find_entry_index pak.entries entry_name <;> rfl

theorem pakka_rename_log (pak : Archive) (old_name new_name : CStr) :
    (pakka_rename pak old_name new_name).log = [] := by
  unfold pakka_rename
  split_ifs
  · rfl
  · cases find_entry pak.entries old_name <;> rfl
  · cases find_entry_index pak.entries old_name with
    | none => rfl
    | some i =>
      change (Logged.bind (ofExcept (pak_add_preflight pak new_name)) _).log = []
      cases pak_add_preflight pak new_name <;> rfl

theorem pakka_copy_log (env : Env) (pak : Archive) (src_name dst_name : CStr) :
    (pakka_copy env pak src_name dst_name).log = [] := by
  have h : ∀ op ∈ (pakka_copy env pak src_name dst_name).log, False := by
    unfold pakka_copy
    split_ifs
    · simp
    refine forall_mem_bind (by simp) fun src _ => ?_
    refine forall_mem_bind (by simp) fun _ _ => ?_
    refine forall_mem_bind (by simp) fun _ _ => ?_
    simp only
    split
    · exact forall_mem_bind (by simp) fun _ _ => by simp
    · exact forall_mem_bind (by simp) fun _ _ => by simp
    · simp
  exact List.eq_nil_iff_forall_not_mem.mpr h

theorem pakka_set_compression_log (pak : Archive) (method : UInt16) :
    (pakka_set_compression pak method).log = [] := by
  unfold pakka_set_compression
  split_ifs <;> rfl

/-- **What any call but a commit does to the files** of a PAK-class archive. -/
theorem pak_call_log (df : Deflate) (env : Env) (disk : Bytes) (pak : Archive) (c : Call)
    (hz : pakka_format_is_zip pak.format = false) (hc : c ≠ .commit) :
    AddLog pak (pakka_call df env disk pak c).log := by
  have hof : ∀ x : Op Archive, (Step.ofOp pak x).log = x.log := by
    intro x
    unfold Step.ofOp Step.of
    split <;> rfl
  cases c with
  | commit => exact absurd rfl hc
  | add_file source_path entry_name =>
    rw [pakka_call, hof]
    unfold pakka_add_file
    refine AddLog.ite (fun _ => AddLog.nil pak) fun _ => ?_
    refine AddLog.bind (by simp) fun _ _ => AddLog.bind (by simp) fun _ _ => ?_
    rw [hz, if_neg (by simp)]
    exact pak_add_file_log env pak source_path entry_name
  | add_memory entry_name data =>
    rw [pakka_call, hof]
    unfold pakka_add_memory
    refine AddLog.ite (fun _ => AddLog.nil pak) fun _ => AddLog.bind (by simp) fun _ _ => ?_
    rw [hz, if_neg (by simp)]
    exact pak_add_memory_log env pak entry_name data
  | delete entry_name =>
    rw [pakka_call, hof, pakka_delete_log]
    exact AddLog.nil pak
  | rename old_name new_name =>
    rw [pakka_call, hof, pakka_rename_log]
    exact AddLog.nil pak
  | copy src_name dst_name =>
    rw [pakka_call, hof, pakka_copy_log]
    exact AddLog.nil pak
  | set_compression method =>
    rw [pakka_call, hof, pakka_set_compression_log]
    exact AddLog.nil pak

/-- A call but a commit that fails leaves the handle as it was. -/
theorem pakka_call_failed {df : Deflate} {env : Env} {disk : Bytes} {pak : Archive} {c : Call}
    (hc : c ≠ .commit) (h : (pakka_call df env disk pak c).status ≠ .ok) :
    (pakka_call df env disk pak c).pak = pak := by
  have hof : ∀ x : Op Archive, (Step.ofOp pak x).status ≠ .ok → (Step.ofOp pak x).pak = pak := by
    intro x hx
    unfold Step.ofOp Step.of Logged.mapError at hx ⊢
    cases hr : x.res with
    | ok a =>
      rw [hr] at hx
      exact absurd rfl hx
    | error s => rfl
  cases c with
  | commit => exact absurd rfl hc
  | _ => exact hof _ h

end Pakka
