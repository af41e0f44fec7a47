/-
What the calls on a ZIP archive do, commits apart: no file is touched, and what an add leaves
in the handle is a node with its payload staged, as a source path or as a buffer.

As for PAK-class archives, the outcomes are listed once (`ZipEffect`), and every invariant of ZIP
sessions is a case analysis on the list.
-/
import Pakka.PakEffect

set_option autoImplicit false

namespace Pakka

open ByteImage Logged

/-! ## Adding

Stored or deflated, from a file or from memory, and what is recorded in each case.
-/

/-- The node of an add of `len` bytes with checksum `crc`. -/
def pk3_new_entry (entry_name : CStr) (crc : UInt32) (len : ℕ) : Entry :=
  { filename := entry_name
    pk3_method := PK3_METHOD_STORED
    crc32 := crc
    pk3_compressed_size := UInt32.ofNat len
    length := UInt32.ofNat len }

/-- What the encoder makes of the bytes of an add. -/
def pk3_encode (df : Deflate) (method : UInt16) (src : Bytes) : Except Status (Option Bytes) :=
  if method = PK3_METHOD_DEFLATE ∧ src.length > 0 then df.compress src else .ok none

/-- How an add of the bytes `src` comes out when it succeeds under the handle's compression
`method`: with its source path staged, or with the bytes in memory, encoded or not. -/
inductive ZipAdded (df : Deflate) (env : Env) (method : UInt16) (entry_name : CStr) :
    Option CStr → Bytes → Entry → Prop where
  | source {path : CStr} {src : Bytes} (hview : (env.view 0 path).stream = some src)
      (hlen : src.length ≤ UINT32_MAX)
      (hplain : ¬ (method = PK3_METHOD_DEFLATE ∧ src.length > 0)) :
      ZipAdded df env method entry_name (some path) src
        { pk3_new_entry entry_name (crc32_of src) src.length with pending_source := some path }
  | captured {source_path : Option CStr} {src : Bytes} {enc : Option Bytes}
      (hlen : src.length ≤ UINT32_MAX)
      (hsource : ∀ path, source_path = some path → ∃ first second,
        (env.view 0 path).stream = some first ∧ (env.view 1 path).stream = some second ∧
          readExact second 0 first.length = some src)
      (henc : pk3_encode df method src = .ok enc) :
      ZipAdded df env method entry_name source_path src
        (pk3_stash (pk3_new_entry entry_name (crc32_of src) src.length) src enc)

theorem reports_pk3_alloc_pending_entry (env : Env) (entry_name : CStr) (crc : UInt32) (len : ℕ) :
    Reports (pk3_alloc_pending_entry env entry_name crc len) := by
  apply FailsWith.ite (failsWith_fail.mpr limit_isError)
  exact (failsWith_call nomem_isError).bind fun _ => failsWith_pure _

theorem pk3_alloc_pending_entry_ok {env : Env} {entry_name : CStr} {crc : UInt32} {len : ℕ}
    {e : Entry} (h : (pk3_alloc_pending_entry env entry_name crc len).res = .ok e) :
    len ≤ UINT32_MAX ∧ e = pk3_new_entry entry_name crc len := by
  unfold pk3_alloc_pending_entry at h
  split_ifs at h with hlen
  · cases h
  · simp only [bind_res_ok, call_res_ok, exists_const, pure_res, Except.ok.injEq] at h
    exact ⟨Nat.not_lt.mp hlen, h.2.symm⟩

theorem pk3_alloc_pending_entry_log (env : Env) (entry_name : CStr) (crc : UInt32) (len : ℕ) :
    (pk3_alloc_pending_entry env entry_name crc len).log = [] := by
  have h : ∀ op ∈ (pk3_alloc_pending_entry env entry_name crc len).log, False := by
    unfold pk3_alloc_pending_entry
    split_ifs
    · simp
    · exact forall_mem_bind (by simp) fun _ _ => by simp
  exact List.eq_nil_iff_forall_not_mem.mpr h

/-- **Adding from a file.** -/
theorem pk3_add_file_ok {df : Deflate} {env : Env} {pak pak' : Archive}
    {source_path entry_name : CStr}
    (h : (pakka_pk3_add_file_impl df env pak source_path entry_name).res = .ok pak') :
    ∃ src e, ZipAdded df env pak.pk3_compression entry_name (some source_path) src e ∧
      pak' = pk3_link_pending_entry pak e := by
  unfold pakka_pk3_add_file_impl at h
  by_cases hname : entry_name.strlen ≥ PAKKA_ENTRY_NAME_SIZE
  · rw [if_pos hname] at h
    cases h
  rw [if_neg hname] at h
  simp only [bind_res_ok, ofOption_res_ok] at h
  obtain ⟨stream, hview, h⟩ := h
  by_cases hlen : stream.length > 0xFFFFFFFF
  · rw [if_pos hlen] at h
    cases h
  rw [if_neg hlen] at h
  by_cases hre : (env.view 0 source_path).read_error = true
  · rw [if_pos hre] at h
    cases h
  rw [if_neg hre] at h
  simp only [bind_res_ok] at h
  obtain ⟨e, halloc, h⟩ := h
  obtain ⟨hfit, rfl⟩ := pk3_alloc_pending_entry_ok halloc
  by_cases hdef : pak.pk3_compression = PK3_METHOD_DEFLATE ∧ stream.length > 0
  · rw [if_pos hdef] at h
    simp only [bind_res_ok, pk3_capture_source, call_res_ok, exists_const, ofOption_res_ok,
      ofExcept_res, pure_res, Except.ok.injEq] at h
    obtain ⟨_, ⟨hcap, second, hsecond, src, hsrc, enc, henc, rfl⟩, rfl⟩ := h
    obtain ⟨-, hsl⟩ := readExact_eq_some.mp hsrc
    have hnew : { pk3_new_entry entry_name (crc32_of stream) stream.length with
        crc32 := crc32_of src } = pk3_new_entry entry_name (crc32_of src) src.length := by
      rw [hsl]
      rfl
    rw [hnew]
    refine ⟨src, _, ZipAdded.captured (by rw [hsl]; exact hfit) ?_ ?_, rfl⟩
    · intro path hp
      obtain rfl := Option.some.inj hp
      exact ⟨stream, second, hview, hsecond, hsrc⟩
    · rw [pk3_encode, hsl, if_pos hdef]
      exact henc
  · rw [if_neg hdef] at h
    simp only [bind_res_ok, call_res_ok, exists_const, pure_res, Except.ok.injEq] at h
    obtain ⟨-, rfl⟩ := h
    exact ⟨stream, _, ZipAdded.source hview hfit hdef, rfl⟩

/-- **Adding from memory.** -/
theorem pk3_add_memory_ok {df : Deflate} {env : Env} {pak pak' : Archive} {entry_name : CStr}
    {data : Bytes} (h : (pakka_pk3_add_memory_impl df env pak entry_name data).res = .ok pak') :
    ∃ e, ZipAdded df env pak.pk3_compression entry_name none data e ∧
      pak' = pk3_link_pending_entry pak e := by
  unfold pakka_pk3_add_memory_impl at h
  by_cases hname : entry_name.strlen ≥ PAKKA_ENTRY_NAME_SIZE
  · rw [if_pos hname] at h
    cases h
  rw [if_neg hname] at h
  simp only [bind_res_ok, pk3_capture_memory, ofExcept_res, pure_res, Except.ok.injEq] at h
  obtain ⟨e, halloc, e', ⟨enc, henc, he⟩, rfl⟩ := h
  obtain ⟨hfit, rfl⟩ := pk3_alloc_pending_entry_ok halloc
  have hcap : e' = pk3_stash (pk3_new_entry entry_name (crc32_of data) data.length) data enc := by
    cases enc with
    | none =>
      simp only [bind_res_ok, call_res_ok, exists_const, pure_res, Except.ok.injEq] at he
      exact he.2.symm
    | some b => exact (Except.ok.inj he).symm
  rw [hcap]
  exact ⟨_, ZipAdded.captured hfit (fun path hp => by cases hp) henc, rfl⟩

theorem reports_pk3_add_file (df : Deflate) (env : Env) (pak : Archive)
    (source_path entry_name : CStr) :
    Reports (pakka_pk3_add_file_impl df env pak source_path entry_name) := by
  apply FailsWith.ite (failsWith_fail.mpr limit_isError)
  apply (failsWith_ofOption io_isError).bind
  intro stream
  apply FailsWith.ite (failsWith_fail.mpr limit_isError)
  apply FailsWith.ite (failsWith_fail.mpr io_isError)
  apply (reports_pk3_alloc_pending_entry env entry_name _ _).bind
  intro e
  apply FailsWith.ite
  · refine FailsWith.bind ?_ fun _ => failsWith_pure _
    apply (failsWith_call nomem_isError).bind
    intro _
    refine (failsWith_ofOption io_isError).bind fun _ =>
      (failsWith_ofOption io_isError).bind fun _ => ?_
    exact (failsWith_ofExcept fun _ hs => df.compress_error hs).bind fun _ => failsWith_pure _
  · exact (failsWith_call nomem_isError).bind fun _ => failsWith_pure _

theorem reports_pk3_add_memory (df : Deflate) (env : Env) (pak : Archive) (entry_name : CStr)
    (data : Bytes) : Reports (pakka_pk3_add_memory_impl df env pak entry_name data) := by
  apply FailsWith.ite (failsWith_fail.mpr limit_isError)
  apply (reports_pk3_alloc_pending_entry env entry_name _ _).bind
  intro e
  refine FailsWith.bind ?_ fun _ => failsWith_pure _
  refine FailsWith.bind (failsWith_ofExcept ?_) fun enc => ?_
  · intro s hs
    split_ifs at hs
    exact df.compress_error hs
  · cases enc with
    | none => exact (failsWith_call nomem_isError).bind fun _ => failsWith_pure _
    | some b => exact failsWith_pure _

theorem pk3_add_file_log (df : Deflate) (env : Env) (pak : Archive)
    (source_path entry_name : CStr) :
    (pakka_pk3_add_file_impl df env pak source_path entry_name).log = [] := by
  have h : ∀ op ∈ (pakka_pk3_add_file_impl df env pak source_path entry_name).log, False := by
    refine forall_mem_ite (by simp) (forall_mem_bind (by simp) fun stream _ => ?_)
    refine forall_mem_ite (by simp) (forall_mem_ite (by simp) ?_)
    refine forall_mem_bind (by simp [pk3_alloc_pending_entry_log]) fun e _ => ?_
    refine forall_mem_ite (forall_mem_bind ?_ fun _ _ => by simp) ?_
    · refine forall_mem_bind (by simp) fun _ _ => forall_mem_bind (by simp) fun _ _ => ?_
      exact forall_mem_bind (by simp) fun _ _ => forall_mem_bind (by simp) fun _ _ => by simp
    · exact forall_mem_bind (by simp) fun _ _ => by simp
  exact List.eq_nil_iff_forall_not_mem.mpr h

theorem pk3_add_memory_log (df : Deflate) (env : Env) (pak : Archive) (entry_name : CStr)
    (data : Bytes) : (pakka_pk3_add_memory_impl df env pak entry_name data).log = [] := by
  have h : ∀ op ∈ (pakka_pk3_add_memory_impl df env pak entry_name data).log, False := by
    refine forall_mem_ite (by simp) ?_
    refine forall_mem_bind (by simp [pk3_alloc_pending_entry_log]) fun e _ => ?_
    refine forall_mem_bind ?_ fun _ _ => by simp
    unfold pk3_capture_memory
    refine forall_mem_bind (by simp) fun enc _ => ?_
    cases enc with
    | none => exact forall_mem_bind (by simp) fun _ _ => by simp
    | some b => simp
  exact List.eq_nil_iff_forall_not_mem.mpr h

/-! ## Calls

All the calls.
-/

/-- What a call but a commit that succeeds does on a ZIP archive. -/
inductive ZipEffect (df : Deflate) (env : Env) (pak : Archive) : Call → Archive → Prop where
  | add_file {source_path entry_name : CStr} {src : Bytes} {e : Entry}
      (hname : pak_add_preflight pak entry_name = .ok ())
      (h : ZipAdded df env pak.pk3_compression entry_name (some source_path) src e) :
      ZipEffect df env pak (.add_file source_path entry_name) (pk3_link_pending_entry pak e)
  | add_memory {entry_name : CStr} {data : Bytes} {e : Entry}
      (hname : pak_add_preflight pak entry_name = .ok ())
      (h : ZipAdded df env pak.pk3_compression entry_name none data e) :
      ZipEffect df env pak (.add_memory entry_name data) (pk3_link_pending_entry pak e)
  | name {c : Call} {pak' : Archive} (h : NameEffect pak c pak') : ZipEffect df env pak c pak'

/-- **No call but a commit touches the files** of a ZIP archive. -/
theorem zip_call_log (df : Deflate) (env : Env) (disk : Bytes) (pak : Archive) (c : Call)
    (hz : pakka_format_is_zip pak.format = true) (hc : c ≠ .commit) :
    (pakka_call df env disk pak c).log = [] := by
  have hof : ∀ x : Op Archive, (Step.ofOp pak x).log = x.log := by
    intro x
    unfold Step.ofOp Step.of
    split <;> rfl
  cases c with
  | commit => exact absurd rfl hc
  | add_file source_path entry_name =>
    have h : ∀ op ∈ (pakka_add_file df env pak source_path entry_name).log, False := by
      refine forall_mem_ite (by simp) ?_
      refine forall_mem_bind (by simp) fun _ _ => forall_mem_bind (by simp) fun _ _ => ?_
      rw [hz, if_pos rfl, pk3_add_file_log]
      simp
    rw [pakka_call, hof]
    exact List.eq_nil_iff_forall_not_mem.mpr h
  | add_memory entry_name data =>
    have h : ∀ op ∈ (pakka_add_memory df env pak entry_name data).log, False := by
      refine forall_mem_ite (by simp) (forall_mem_bind (by simp) fun _ _ => ?_)
      rw [hz, if_pos rfl, pk3_add_memory_log]
      simp
    rw [pakka_call, hof]
    exact List.eq_nil_iff_forall_not_mem.mpr h
  | delete entry_name => rw [pakka_call, hof, pakka_delete_log]
  | rename old_name new_name => rw [pakka_call, hof, pakka_rename_log]
  | copy src_name dst_name => rw [pakka_call, hof, pakka_copy_log]
  | set_compression method => rw [pakka_call, hof, pakka_set_compression_log]

/-- **What a call but a commit that succeeds does** on a ZIP archive. -/
theorem zip_call_ok (df : Deflate) (env : Env) (disk : Bytes) {pak : Archive} {c : Call}
    (hz : pakka_format_is_zip pak.format = true) (hc : c ≠ .commit)
    (h : (pakka_call df env disk pak c).status = .ok) :
    ZipEffect df env pak c (pakka_call df env disk pak c).pak := by
  have hpre : ∀ name, Reports (ofExcept (pak_add_preflight pak name) : Op Unit) := fun _ =>
    failsWith_ofExcept fun _ => pak_add_preflight_error
  cases c with
  | commit => exact absurd rfl hc
  -- an error path reports an error, so `ok` means that the whole add went through
  | add_file source_path entry_name =>
    have hrep : Reports (pakka_add_file df env pak source_path entry_name) := by
      apply FailsWith.ite (failsWith_fail.mpr invalid_argument_isError)
      refine (hpre _).bind fun _ => (failsWith_ofExcept fun _ => check_source_error).bind fun _ => ?_
      rw [hz, if_pos rfl]
      exact reports_pk3_add_file df env pak source_path entry_name
    obtain ⟨hres, -⟩ := ofOp_ok hrep h
    rw [pakka_call]
    generalize (Step.ofOp pak (pakka_add_file df env pak source_path entry_name)).pak = pak'
      at hres ⊢
    unfold pakka_add_file at hres
    by_cases hw : ¬ pak.writable ∨ ¬ pak.fp
    · rw [if_pos hw] at hres
      cases hres
    rw [if_neg hw] at hres
    simp only [bind_res_ok, ofExcept_res, hz, if_true] at hres
    obtain ⟨u, hname, n, hsrc, hres⟩ := hres
    obtain ⟨src, e, hadd, rfl⟩ := pk3_add_file_ok hres
    exact ZipEffect.add_file hname hadd
  | add_memory entry_name data =>
    have hrep : Reports (pakka_add_memory df env pak entry_name data) := by
      apply FailsWith.ite (failsWith_fail.mpr invalid_argument_isError)
      refine (hpre _).bind fun _ => ?_
      rw [hz, if_pos rfl]
      exact reports_pk3_add_memory df env pak entry_name data
    obtain ⟨hres, -⟩ := ofOp_ok hrep h
    rw [pakka_call]
    generalize (Step.ofOp pak (pakka_add_memory df env pak entry_name data)).pak = pak' at hres ⊢
    unfold pakka_add_memory at hres
    by_cases hw : ¬ pak.writable ∨ ¬ pak.fp
    · rw [if_pos hw] at hres
      cases hres
    rw [if_neg hw] at hres
    simp only [bind_res_ok, ofExcept_res, hz, if_true] at hres
    obtain ⟨u, hname, hres⟩ := hres
    obtain ⟨e, hadd, rfl⟩ := pk3_add_memory_ok hres
    exact ZipEffect.add_memory hname hadd
  | delete name =>
    obtain ⟨hres, -⟩ := ofOp_ok (reports_names env pak name name 0).1 h
    exact ZipEffect.name (pakka_delete_ok hres)
  | rename old_name new_name =>
    obtain ⟨hres, -⟩ := ofOp_ok (reports_names env pak old_name new_name 0).2.1 h
    exact ZipEffect.name (pakka_rename_ok hres)
  | copy src_name dst_name =>
    obtain ⟨hres, -⟩ := ofOp_ok (reports_names env pak src_name dst_name 0).2.2.1 h
    exact ZipEffect.name (pakka_copy_ok hres)
  | set_compression method =>
    obtain ⟨hres, -⟩ := ofOp_ok (reports_names env pak CStr.empty CStr.empty method).2.2.2 h
    exact ZipEffect.name (pakka_set_compression_ok hres)

end Pakka
