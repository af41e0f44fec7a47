/-
Plain sessions: adding, renaming, copying and committing in place, without a delete.

Such a session never rebuilds. Its writes are of two kinds: a block that starts at the
`payload_end` of the moment, the payload of an add or the rows of a directory, and the header.
`payload_end` only grows, so what lay between the header and the `payload_end` of the open is
never written to.

This is weaker than atomicity: a crash may cost the directory, but not a byte of a payload that was
committed before the session.
-/
import Pakka.PakSession
import Pakka.Lib.WriteBlock

set_option autoImplicit false

namespace Pakka

open ByteImage LittleEndian Logged

/-! ## What is written

The writes of each call, in blocks.
-/

/-- What a commit in place may write: a block of directory rows at `payload_end`, no longer than
the directory, and the header. -/
def DirectoryWrites (pak : Archive) (geom : Geometry) (log : List (FileOp FileId)) : Prop :=
  ∃ rows header, log = rows ++ header ∧ Block .live pak.payload_end rows ∧
    written rows ≤ pak.entries.length * geom.dir_entry_size ∧
    (header = [] ∨ ∃ bs, header = [.write .live 0 bs] ∧ bs.length ≤ PAKFILE_HEADER_SIZE)

theorem DirectoryWrites.nil (pak : Archive) (geom : Geometry) : DirectoryWrites pak geom [] :=
  ⟨[], [], rfl, Block.nil _ _, Nat.zero_le _, Or.inl rfl⟩

/-- What a call may write: an add a block at `payload_end`, a commit a directory, the others
nothing. -/
def CallWrites (pak : Archive) (geom : Geometry) (log : List (FileOp FileId)) : Call → Prop
  | .add_file _ _ => Block .live pak.payload_end log
  | .add_memory _ _ => Block .live pak.payload_end log
  | .commit => DirectoryWrites pak geom log
  | _ => log = []

theorem block_pak_append_file (env : Env) (pak : Archive) (entry_name : CStr) (stream : Bytes)
    (src_size : ℕ) (cap : Captured) :
    Block .live pak.payload_end (pak_append_file env pak entry_name stream src_size cap).log := by
  have hpayload : Block .live pak.payload_end
      (pak_write_file_payload env stream src_size pak.payload_end cap).log := by
    unfold pak_write_file_payload
    split
    · exact (block_writeAt _ _ _ _ _ _).1
    · exact (block_writeAt _ _ _ _ _ _).1
    · split_ifs
      · exact Block.nil _ _
      · refine log_bind_of_nil (Block.nil _ _) (call_log _ _ _) fun _ _ => ?_
        rw [log_bind_nil fun _ _ => pure_log _]
        exact block_copyChunks src_size
  unfold pak_append_file
  simp only
  split_ifs
  · exact Block.nil _ _
  refine log_bind_of_nil (Block.nil _ _) (call_log _ _ _) fun _ _ => ?_
  refine log_bind_of_nil (Block.nil _ _) (call_log _ _ _) fun _ _ => ?_
  rw [log_bind_nil fun _ _ => pure_log _]
  exact hpayload

theorem block_pak_append_memory (env : Env) (pak : Archive) (entry_name : CStr) (data : Bytes)
    (cap : Captured) :
    Block .live pak.payload_end (pak_append_memory env pak entry_name data cap).log := by
  have hpayload : Block .live pak.payload_end
      (pak_write_memory_payload env data pak.payload_end cap).log := by
    unfold pak_write_memory_payload
    split
    · exact (block_writeAt _ _ _ _ _ _).1
    · split_ifs
      · exact (block_writeAt _ _ _ _ _ _).1
      · exact Block.nil _ _
  unfold pak_append_memory
  simp only
  split_ifs
  · exact Block.nil _ _
  refine log_bind_of_nil (Block.nil _ _) (call_log _ _ _) fun _ _ => ?_
  refine log_bind_of_nil (Block.nil _ _) (call_log _ _ _) fun _ _ => ?_
  rw [log_bind_nil fun _ _ => pure_log _]
  exact hpayload

theorem block_pak_add_file (env : Env) (pak : Archive) (source_path entry_name : CStr) :
    Block .live pak.payload_end (pak_add_file env pak source_path entry_name).log := by
  unfold pak_add_file
  refine log_bind_of_nil (Block.nil _ _) (ofOption_log _ _) fun stream _ => ?_
  refine log_bind_of_nil (Block.nil _ _) (ofOption_log _ _) fun src_size _ => ?_
  by_cases hbig : src_size > UINT32_MAX
  · rw [if_pos hbig]
    exact Block.nil _ _
  rw [if_neg hbig]
  refine log_bind_of_nil (Block.nil _ _) (ofExcept_log _) fun cap _ => ?_
  by_cases ha : pak.atomic_commit = true
  · rw [if_pos ha, pak_stage_file_log]
    exact Block.nil _ _
  · rw [if_neg ha]
    exact block_pak_append_file env pak entry_name stream src_size cap

theorem block_pak_add_memory (env : Env) (pak : Archive) (entry_name : CStr) (data : Bytes) :
    Block .live pak.payload_end (pak_add_memory env pak entry_name data).log := by
  unfold pak_add_memory
  by_cases hbig : data.length > UINT32_MAX
  · rw [if_pos hbig]
    exact Block.nil _ _
  rw [if_neg hbig]
  by_cases ha : pak.atomic_commit = true
  · simp only [if_pos ha, pak_stage_memory_log]
    exact Block.nil _ _
  · simp only [if_neg ha]
    exact block_pak_append_memory env pak entry_name data _

/-- The rows are a block, whatever fails. A row that went out whole has the row size. -/
theorem block_write_pak_rows (env : Env) (f : FileId) {geom : Geometry} (es : List Entry)
    (pak : Archive) (i pos : ℕ) (hg : pakka_pak_geometry pak.format = some geom)
    (hnames : ∀ e ∈ es, e.filename.strlen ≤ geom.name_field_len) :
    Block f pos (write_pak_rows env f geom pak i pos es).log ∧
      written (write_pak_rows env f geom pak i pos es).log ≤ es.length * geom.dir_entry_size := by
  induction es generalizing pak i pos with
  | nil => exact ⟨Block.nil f pos, Nat.zero_le _⟩
  | cons e es ih =>
    rw [List.forall_mem_cons] at hnames
    have hrow := length_pak_entry_row hg hnames.1
    obtain ⟨hblock, hlen⟩ := block_writeAt env.faults (.row i) f pos
      (pak_entry_row pak.format geom e) (Status.io, pak)
    rw [List.length_cons, Nat.succ_mul, write_pak_rows]
    cases hw : (writeAt env.faults (.row i) f pos (pak_entry_row pak.format geom e)
      (Status.io, pak)).res with
    | error err =>
      rw [bind_eq_of_error hw]
      refine ⟨hblock, hlen.trans ?_⟩
      omega
    | ok u =>
      obtain ⟨hrest, hsize⟩ := ih
        { pak with dirlength := pak.dirlength + UInt32.ofNat geom.dir_entry_size } (i + 1)
        (pos + geom.dir_entry_size) hg hnames.2
      rw [bind_log_of_ok hw, writeAt_log_of_ok ((writeAt_res_ok _ _ _ _ _ _ _).mp hw)]
      refine ⟨(Block.single f pos _).append ?_, ?_⟩
      · rw [written_write, written_nil, Nat.add_zero, hrow]
        exact hrest
      · rw [written_append, written_write, written_nil, hrow, Nat.add_zero, Nat.add_comm]
        exact Nat.add_le_add_right hsize _

/-- **What the directory writer writes**, whatever fails. -/
theorem write_pak_directory_writes (env : Env) {pak : Archive} {geom : Geometry} {n : ℕ}
    (h : PakState n pak geom) :
    DirectoryWrites pak geom (write_pak_directory env .live pak).log := by
  have hsig : pak.signature.length = 4 := by
    rw [h.signature, geometry_signature_length h.geometry]
  -- the header is one write, cut short or not
  have hheader : ∀ pak' : Archive, pak'.signature = pak.signature →
      ∃ bs, (write_pak_header env .live pak').log = [.write .live 0 bs] ∧
        bs.length ≤ PAKFILE_HEADER_SIZE := by
    intro pak' hs
    have hlen := length_pak_header (hs ▸ hsig)
    unfold write_pak_header writeAt
    split_ifs
    · refine ⟨_, rfl, ?_⟩
      rw [List.length_take]
      omega
    · exact ⟨_, rfl, Nat.le_of_eq hlen⟩
  have hlast : ∀ pak' : Archive, pak'.signature = pak.signature →
      ∀ header, header = [] ∨ header = (write_pak_header env .live pak').log →
      header = [] ∨ ∃ bs, header = [.write .live 0 bs] ∧ bs.length ≤ PAKFILE_HEADER_SIZE := by
    rintro pak' hs header (rfl | rfl)
    · exact Or.inl rfl
    · exact Or.inr (hheader pak' hs)
  unfold write_pak_directory
  refine log_bind_of_nil (DirectoryWrites.nil pak geom) (ofOption_log _ _) fun geom' hg => ?_
  rw [ofOption_res_ok, h.geometry] at hg
  obtain rfl := Option.some.inj hg
  by_cases h0 : pak.entries.length = 0
  · rw [if_pos h0]
    refine log_bind_of_nil (DirectoryWrites.nil pak geom) (call_log _ _ _) fun _ _ => ?_
    rw [log_bind_nil fun _ _ => pure_log _]
    exact ⟨[], _, rfl, Block.nil _ _, Nat.zero_le _, hlast _ (by rfl) _ (Or.inr rfl)⟩
  rw [if_neg h0]
  by_cases hbig : pak.payload_end + pak.num_entries.toNat * geom.dir_entry_size > UINT32_MAX
  · rw [if_pos hbig]
    exact DirectoryWrites.nil pak geom
  rw [if_neg hbig]
  have hoff : (UInt32.ofNat pak.payload_end).toNat = pak.payload_end := by
    rw [UInt32.toNat_ofNat', Nat.mod_eq_of_lt (by simp only [UINT32_MAX] at hbig; omega)]
  refine log_bind_of_nil (DirectoryWrites.nil pak geom) (call_log _ _ _) fun _ _ => ?_
  obtain ⟨hblock, hlen⟩ := block_write_pak_rows env .live pak.entries
    { pak with diroffset := UInt32.ofNat pak.payload_end, dirlength := 0 } 0
    (UInt32.ofNat pak.payload_end).toNat h.geometry fun e he => (h.entries e he).name_fits
  rw [hoff] at hblock hlen
  cases hrows : (write_pak_rows env .live geom
      { pak with diroffset := UInt32.ofNat pak.payload_end, dirlength := 0 } 0 pak.payload_end
      pak.entries).res with
  | error err =>
    simp only [hoff]
    rw [bind_eq_of_error hrows]
    exact ⟨_, [], (List.append_nil _).symm, hblock, hlen, Or.inl rfl⟩
  | ok pak1 =>
    obtain ⟨d, l, hsame⟩ : SameButDirectory pak pak1 :=
      write_pak_rows_same _ ⟨_, _, rfl⟩ hrows
    simp only [hoff]
    rw [bind_log_of_ok hrows]
    refine ⟨_, _, rfl, hblock, hlen, hlast pak1 (by rw [hsame]) _ ?_⟩
    refine log_bind_of_nil
      (p := fun header => header = [] ∨ header = (write_pak_header env .live pak1).log)
      (Or.inl rfl) (call_log _ _ _) fun _ _ => ?_
    rw [log_bind_nil fun _ _ => pure_log _]
    exact Or.inr rfl

/-- **What a call on a plain handle writes**, whatever fails. -/
theorem plain_call_writes (df : Deflate) (env : Env) (disk : Bytes) {pak : Archive}
    {geom : Geometry} (h : PakState disk.length pak geom) (hreb : pak.needs_rebuild = false)
    (hatomic : pak.atomic_commit = false) (c : Call) :
    CallWrites pak geom (pakka_call df env disk pak c).log c := by
  have hz := not_zip_of_geometry h.geometry
  have hof : ∀ x : Op Archive, (Step.ofOp pak x).log = x.log := by
    intro x
    unfold Step.ofOp Step.of
    split <;> rfl
  cases c with
  | add_file source_path entry_name =>
    change Block _ _ (Step.ofOp pak (pakka_add_file df env pak source_path entry_name)).log
    rw [hof]
    unfold pakka_add_file
    by_cases hw : ¬ pak.writable ∨ ¬ pak.fp
    · rw [if_pos hw]
      exact Block.nil _ _
    rw [if_neg hw]
    refine log_bind_of_nil (Block.nil _ _) (ofExcept_log _) fun _ _ => ?_
    refine log_bind_of_nil (Block.nil _ _) (ofExcept_log _) fun _ _ => ?_
    rw [hz, if_neg (by simp)]
    exact block_pak_add_file env pak source_path entry_name
  | add_memory entry_name data =>
    change Block _ _ (Step.ofOp pak (pakka_add_memory df env pak entry_name data)).log
    rw [hof]
    unfold pakka_add_memory
    by_cases hw : ¬ pak.writable ∨ ¬ pak.fp
    · rw [if_pos hw]
      exact Block.nil _ _
    rw [if_neg hw]
    refine log_bind_of_nil (Block.nil _ _) (ofExcept_log _) fun _ _ => ?_
    rw [hz, if_neg (by simp)]
    exact block_pak_add_memory env pak entry_name data
  | delete entry_name => exact (hof _).trans (pakka_delete_log pak entry_name)
  | rename old_name new_name => exact (hof _).trans (pakka_rename_log pak old_name new_name)
  | copy src_name dst_name => exact (hof _).trans (pakka_copy_log env pak src_name dst_name)
  | set_compression method => exact (hof _).trans (pakka_set_compression_log pak method)
  | commit =>
    have hlog : ∀ x : HandleOp Archive, (Step.of x).log = x.log := by
      intro x
      unfold Step.of
      split <;> rfl
    change DirectoryWrites pak geom (Step.of (pakka_commit env disk pak)).log
    rw [hlog]
    unfold pakka_commit
    by_cases hd : ¬ pak.dirty
    · rw [if_pos hd]
      exact DirectoryWrites.nil pak geom
    rw [if_neg hd]
    by_cases hw : ¬ pak.writable ∨ ¬ pak.fp
    · rw [if_pos hw]
      exact DirectoryWrites.nil pak geom
    have hplain : ¬ pak.needs_rebuild = true ∧ ¬ pak.atomic_commit = true := by
      simp [hreb, hatomic]
    rw [if_neg hw, hz, if_neg (by simp), if_pos hplain]
    unfold pakka_commit_in_place
    rw [log_bind_nil fun _ _ => ?_]
    · exact write_pak_directory_writes env h
    · rw [log_bind_nil fun _ _ => pure_log _, call_log]

/-! ## What changes in the handle

A call of such a session changes the list or the marks, and the payload end grows.
-/

/-- All that changed in a handle is where its directory is and whether it is dirty. -/
def SameContents (pak pak' : Archive) : Prop :=
  ∃ diroffset dirlength file_size dirty, pak' = { pak with
    diroffset := diroffset, dirlength := dirlength, file_size := file_size, dirty := dirty }

theorem SameButDirectory.contents {pak pak' : Archive} (h : SameButDirectory pak pak') :
    SameContents pak pak' := by
  obtain ⟨d, l, rfl⟩ := h
  exact ⟨d, l, pak.file_size, pak.dirty, rfl⟩

theorem PakState.same_contents {n : ℕ} {pak pak' : Archive} {geom : Geometry}
    (h : PakState n pak geom) (hs : SameContents pak pak') : PakState n pak' geom := by
  obtain ⟨_, _, _, _, rfl⟩ := hs
  exact ⟨h.geometry, h.signature, h.tail, h.count, h.payload_end_ge, h.end_in_file, h.nodup,
    fun e he => (h.entries e he).mono rfl (Nat.le_refl _), h.staged⟩

/-- **A commit on a plain handle** changes no more than that, done or not. -/
theorem plain_commit_contents (df : Deflate) (env : Env) (disk : Bytes) {pak : Archive}
    {geom : Geometry} (hg : pakka_pak_geometry pak.format = some geom)
    (hreb : pak.needs_rebuild = false) (hatomic : pak.atomic_commit = false) :
    SameContents pak (pakka_call df env disk pak .commit).pak := by
  have hsame : SameContents pak pak := ⟨_, _, _, _, rfl⟩
  have hplain : ¬ pak.needs_rebuild = true ∧ ¬ pak.atomic_commit = true := by
    simp [hreb, hatomic]
  rw [pakka_call, pakka_commit]
  by_cases hd : ¬ pak.dirty
  · rw [if_pos hd]
    exact hsame
  rw [if_neg hd]
  by_cases hw : ¬ pak.writable ∨ ¬ pak.fp
  · rw [if_pos hw]
    exact hsame
  rw [if_neg hw, not_zip_of_geometry hg, if_neg (by simp), if_pos hplain]
  cases hres : (pakka_commit_in_place env pak).res with
  | ok pak' =>
    rw [Step.of_ok hres]
    simp only [pakka_commit_in_place, bind_res_ok, call_res_ok, exists_const, pure_res,
      Except.ok.injEq] at hres
    obtain ⟨pak1, hdir, -, rfl⟩ := hres
    obtain ⟨d, l, rfl⟩ := write_pak_directory_same hdir
    exact ⟨_, _, _, _, rfl⟩
  | error err =>
    obtain ⟨st, pak'⟩ := err
    rw [Step.of_error hres]
    have hfail : FailsWith (fun err : Status × Archive => SameButDirectory pak err.2)
        (pakka_commit_in_place env pak) := by
      refine failsWith_bind_of (fun err h => (failsWith_write_pak_directory env .live pak err h).2)
        fun pak1 h1 => ?_
      exact FailsWith.bind (failsWith_call (by exact write_pak_directory_same h1)) fun _ =>
        failsWith_pure _
    exact (hfail _ hres).contents

/-- A call that only moves entries about: a rename, a copy, or a commit. -/
def Call.relinks : Call → Bool
  | .rename _ _ => true
  | .copy _ _ => true
  | .commit => true
  | _ => false

/-- What a call but a commit makes of a plain handle, when it succeeds and deletes nothing. -/
theorem PakEffect.plain {n : ℕ} {env : Env} {c : Call} {pak pak' : Archive} {geom : Geometry}
    {log : List (FileOp FileId)} (h : PakState n pak geom) (he : PakEffect env pak c log pak')
    (hreb : pak.needs_rebuild = false) (hatomic : pak.atomic_commit = false)
    (hc : ∀ name, c ≠ .delete name) :
    (pak'.needs_rebuild = false ∧ pak'.atomic_commit = false) ∧
      pak.payload_end ≤ pak'.payload_end ∧
      (c.relinks = true → pak'.payload_end = pak.payload_end) := by
  have hz := not_zip_of_geometry h.geometry
  have hadd : ∀ {p name stream len log pak'}, PakAdded env pak p name stream len log pak' →
      (pak'.needs_rebuild = false ∧ pak'.atomic_commit = false) ∧
        pak.payload_end ≤ pak'.payload_end := by
    intro p name stream len log pak' ha
    cases ha with
    | staged ha => rw [hatomic] at ha; cases ha
    | source ha => rw [hatomic] at ha; cases ha
    | appended => exact ⟨⟨hreb, hatomic⟩, Nat.le_add_right _ _⟩
  cases he with
  | add_file _ _ _ ha => exact ⟨(hadd ha).1, (hadd ha).2, fun hx => by cases hx⟩
  | add_memory _ ha => exact ⟨(hadd ha).1, (hadd ha).2, fun hx => by cases hx⟩
  | name hn =>
    cases hn with
    | delete => exact absurd rfl (hc _)
    | same => exact ⟨⟨hreb, hatomic⟩, Nat.le_refl _, fun _ => rfl⟩
    | rename => exact ⟨⟨by simp [with_name, hreb, hz], hatomic⟩, Nat.le_refl _, fun _ => rfl⟩
    | @copy _ _ src hsrc =>
      -- nothing is staged on a plain handle, so the copy shares its bytes
      have hs : src.staged = false := by
        by_contra hs
        have hx := h.staged src (find_entry_mem hsrc) (by simpa using hs)
        rw [hreb] at hx
        cases hx
      rw [pak_link_copy_entry_eq, hs, hz]
      exact ⟨⟨by simp [hreb], hatomic⟩, Nat.le_refl _, fun _ => rfl⟩
    | set_compression => exact ⟨⟨hreb, hatomic⟩, Nat.le_refl _, fun _ => rfl⟩

/-! ## Sessions

By induction over the calls, failing ones included: what lies below the payload end of the open is
never written to.
-/

/-- A plain session, whose handle has its file and a `payload_end` of at least `lo`. -/
structure PlainLive (geom : Geometry) (lo : ℕ) (s : Session) (disk : Bytes) : Prop where
  file : s.files .live = some disk
  state : PakState disk.length s.pak geom
  rebuild : s.pak.needs_rebuild = false
  atomic : s.pak.atomic_commit = false
  end_ge : lo ≤ s.pak.payload_end

variable {df : Deflate} {geom : Geometry} {lo : ℕ} {s : Session} {disk : Bytes} {env : Env}
  {c : Call}

theorem PlainLive.disk_eq (h : PlainLive geom lo s disk) : s.disk = disk := by
  rw [Session.disk, h.file]
  rfl

/-- What the session writes. -/
theorem PlainLive.writes (df : Deflate) (env : Env) (c : Call) (h : PlainLive geom lo s disk) :
    CallWrites s.pak geom (pakka_call df env s.disk s.pak c).log c := by
  rw [h.disk_eq]
  exact plain_call_writes df env disk h.state h.rebuild h.atomic c

/-- Whatever a call writes is in the header or behind `payload_end`. -/
theorem CallWrites.confined {pak : Archive} {log : List (FileOp FileId)}
    (h : CallWrites pak geom log c) :
    Confined .live PAKFILE_HEADER_SIZE pak.payload_end log := by
  have hnil : log = [] → Confined .live PAKFILE_HEADER_SIZE pak.payload_end log := by
    rintro rfl
    exact Confined.nil _ _ _
  cases c with
  | add_file => exact Block.confined h (Nat.le_refl _)
  | add_memory => exact Block.confined h (Nat.le_refl _)
  | commit =>
    obtain ⟨rows, header, rfl, hrows, -, hheader⟩ := h
    intro op ho
    rcases List.mem_append.mp ho with ho | ho
    · exact hrows.confined (Nat.le_refl _) op ho
    · rcases hheader with rfl | ⟨bs, rfl, hlen⟩
      · cases ho
      · refine ⟨0, bs, List.mem_singleton.mp ho, Or.inl ?_⟩
        rwa [Nat.zero_add]
  | _ => exact hnil h

/-- **One call**, whatever fails. The bytes up to `lo` stay, and `payload_end` only grows, or
stays where the call only moves entries about. -/
theorem PlainLive.step (df : Deflate) (env : Env) (c : Call) (h : PlainLive geom lo s disk)
    (hc : ∀ name, c ≠ .delete name) :
    ∃ disk', PlainLive geom lo (s.step df env c).2 disk' ∧
      SameBetween PAKFILE_HEADER_SIZE lo disk disk' ∧
      (c.relinks = true → (s.step df env c).2.pak.payload_end = s.pak.payload_end) := by
  obtain ⟨disk', hrun, hsame⟩ := (h.writes df env c).confined.run_self h.file
  have hlo : SameBetween PAKFILE_HEADER_SIZE lo disk disk' := hsame.mono (Nat.le_refl _) h.end_ge
  have hnext : PakState disk'.length (s.step df env c).2.pak geom ∧
      ((s.step df env c).2.pak.needs_rebuild = false ∧
        (s.step df env c).2.pak.atomic_commit = false) ∧
      s.pak.payload_end ≤ (s.step df env c).2.pak.payload_end ∧
      (c.relinks = true → (s.step df env c).2.pak.payload_end = s.pak.payload_end) := by
    by_cases hcommit : c = .commit
    · subst hcommit
      have hpak : SameContents s.pak (s.step df env .commit).2.pak :=
        plain_commit_contents df env s.disk h.state.geometry h.rebuild h.atomic
      have hst := (h.state.mono hsame.1).same_contents hpak
      obtain ⟨_, _, _, _, heq⟩ := hpak
      refine ⟨hst, ?_⟩
      rw [heq]
      exact ⟨⟨h.rebuild, h.atomic⟩, Nat.le_refl _, fun _ => rfl⟩
    by_cases hok : (pakka_call df env s.disk s.pak c).status = .ok
    · have he := pak_call_ok (not_zip_of_geometry h.state.geometry) hcommit hok
      obtain ⟨disk2, hrun2, hst⟩ := h.state.effect he h.file
      obtain rfl := Option.some.inj (hrun.symm.trans hrun2)
      exact ⟨hst, he.plain h.state h.rebuild h.atomic hc⟩
    · have hpak : (s.step df env c).2.pak = s.pak := pakka_call_failed hcommit hok
      rw [hpak]
      exact ⟨h.state.mono hsame.1, ⟨h.rebuild, h.atomic⟩, Nat.le_refl _, fun _ => rfl⟩
  obtain ⟨hst, ⟨hreb, hatomic⟩, hgrow, hstay⟩ := hnext
  exact ⟨disk', ⟨hrun, hst, hreb, hatomic, h.end_ge.trans hgrow⟩, hlo, hstay⟩

/-- **A run**, whatever fails. -/
theorem PlainLive.run (df : Deflate) (calls : List (Env × Call)) {s : Session} {disk : Bytes}
    (h : PlainLive geom lo s disk) (hc : ∀ p ∈ calls, ∀ name, p.2 ≠ .delete name) :
    ∃ disk', PlainLive geom lo (s.run df calls) disk' ∧
      SameBetween PAKFILE_HEADER_SIZE lo disk disk' ∧
      ((∀ p ∈ calls, p.2.relinks = true) →
        (s.run df calls).pak.payload_end = s.pak.payload_end) := by
  induction calls generalizing s disk with
  | nil => exact ⟨disk, h, SameBetween.refl _ _ _, fun _ => rfl⟩
  | cons p calls ih =>
    rw [List.forall_mem_cons] at hc
    obtain ⟨disk₁, h₁, hsame₁, hstay₁⟩ := h.step df p.1 p.2 hc.1
    obtain ⟨disk₂, h₂, hsame₂, hstay₂⟩ := ih h₁ hc.2
    refine ⟨disk₂, h₂, hsame₁.trans hsame₂, fun hre => ?_⟩
    rw [List.forall_mem_cons] at hre
    exact (hstay₂ hre.2).trans (hstay₁ hre.1)

/-- A handle that was opened for plain writing. -/
theorem PlainLive.opened {path : CStr} {hint : Format} {pak : Archive}
    (hopen : pakka_open_ex path .read_write hint (some disk) = .ok pak)
    (hcls : IsPakClass pak.format) :
    ∃ geom, PlainLive geom pak.payload_end (Session.opened disk pak) disk := by
  obtain ⟨geom, hl⟩ := PakLive.opened hopen hcls
  obtain ⟨geom', _, _, -, -, heq⟩ := open_pak_class (open_pak_class_hint hcls hopen) hopen
  have hreb : pak.needs_rebuild = false := congrArg Archive.needs_rebuild heq
  have hatomic : pak.atomic_commit = false := congrArg Archive.atomic_commit heq
  exact ⟨geom, hl.file, hl.state, hreb, hatomic, Nat.le_refl _⟩

/-- After the calls the file of a handle that was opened as `pak` is what it was from the end of
the header to the `payload_end` of the open. -/
def PayloadsKept (df : Deflate) (disk : Bytes) (pak : Archive) (calls : List (Env × Call)) : Prop :=
  pak.payload_end ≤ disk.length ∧
    ∃ disk', ((Session.opened disk pak).run df calls).files .live = some disk' ∧
      SameBetween PAKFILE_HEADER_SIZE pak.payload_end disk disk'

/-- Every call of the run writes what it may at the `payload_end` of its moment, and that is the
one of the open when all the calls do is rename, copy and commit. -/
def WritesInBlocks (df : Deflate) (disk : Bytes) (pak : Archive) (calls : List (Env × Call)) :
    Prop :=
  ∃ geom, pakka_pak_geometry pak.format = some geom ∧
    ∀ (before after : List (Env × Call)) (env : Env) (c : Call),
      calls = before ++ (env, c) :: after →
      let s := (Session.opened disk pak).run df before
      CallWrites s.pak geom (pakka_call df env s.disk s.pak c).log c ∧
        ((∀ p ∈ calls, p.2.relinks = true) → s.pak.payload_end = pak.payload_end)

/-- **Commits in place never touch committed payloads.** Take any archive that opens as a plain
handle and any adds, renames, copies and commits on it, failing or not. No byte from the end of the
header to the `payload_end` of the open changes. Wherever the calls fail, each writes at most a
block at the `payload_end` of its moment, the payload of an add or the directory of a commit, and a
commit the header. -/
theorem in_place_session_writes (df : Deflate) (path : CStr) (hint : Format) (disk : Bytes)
    (pak : Archive) (calls : List (Env × Call))
    (hopen : pakka_open_ex path .read_write hint (some disk) = .ok pak)
    (hcls : IsPakClass pak.format) (hkeep : ∀ p ∈ calls, ∀ name, p.2 ≠ .delete name) :
    PayloadsKept df disk pak calls ∧ WritesInBlocks df disk pak calls := by
  obtain ⟨geom, h⟩ := PlainLive.opened hopen hcls
  refine ⟨⟨h.state.end_in_file, ?_⟩, geom, h.state.geometry, ?_⟩
  · obtain ⟨disk', h', hsame, -⟩ := h.run df calls hkeep
    exact ⟨disk', h'.file, hsame⟩
  · rintro before after env c rfl
    have hmem : ∀ p, p ∈ before → p ∈ before ++ (env, c) :: after := fun p hp =>
      List.mem_append_left _ hp
    obtain ⟨disk', h', -, hstay⟩ := h.run df before fun p hp => hkeep p (hmem p hp)
    exact ⟨h'.writes df env c, fun hre => hstay fun p hp => hre p (hmem p hp)⟩

/-- A PAK with one entry of one byte. -/
def one_entry_file : Bytes :=
  ascii "PACK" ++ put32 13 ++ put32 64 ++ [7] ++
    (ascii "a" ++ List.replicate 55 0 ++ put32 12 ++ put32 1)

theorem one_entry_file_opens (mode : OpenMode) : ∃ pak,
    pakka_open_ex CStr.empty mode .pak (some one_entry_file) = .ok pak ∧ pak.format = .pak := by
  have h : (pakka_open_ex CStr.empty mode .pak (some one_entry_file)).toOption.map Archive.format =
      some .pak := by
    cases mode <;> decide +kernel
  cases hres : pakka_open_ex CStr.empty mode .pak (some one_entry_file) with
  | error e =>
    rw [hres] at h
    cases h
  | ok pak =>
    rw [hres] at h
    exact ⟨pak, rfl, Option.some.inj h⟩

/-- A file with one entry, and an add, a copy and two commits on it. -/
theorem in_place_session_writes_one :
    let a : CStr := ⟨ascii "a", by decide⟩
    let env := Env.quiet fun _ => []
    let calls : List (Env × Call) := [(env, .add_memory ⟨ascii "b", by decide⟩ [1, 2]),
      (env, .commit), (env, .copy a ⟨ascii "c", by decide⟩), (env, .commit)]
    ∃ pak, pakka_open_ex CStr.empty .read_write .pak (some one_entry_file) = .ok pak ∧
      IsPakClass pak.format ∧ PayloadsKept .storing one_entry_file pak calls ∧
      WritesInBlocks .storing one_entry_file pak calls := by
  intro a env calls
  obtain ⟨pak, hopen, hformat⟩ := one_entry_file_opens .read_write
  have hcls : IsPakClass pak.format := by
    rw [hformat]
    decide
  have hkeep : ∀ p ∈ calls, ∀ name, p.2 ≠ .delete name := by
    simp [calls]
  exact ⟨pak, hopen, hcls,
    in_place_session_writes .storing CStr.empty .pak one_entry_file pak calls hopen hcls hkeep⟩

end Pakka
