/-
What the directory writer leaves in a file, and that the loader reads it back.

The writer's bytes are a run of rows at `payload_end` and a header in front
(`write_pak_directory_ok`). Row by row the loader recovers what was written
(`read_pak_row_pak_entry_row`), so a file that carries the directory of a handle in order
opens again and lists the handle's entries (`PakWritten.published`), as long as there are no
more of them than the loader takes.

Writer and loader are compared row by row, because both work that way, and the header joins the
rows: it says where they start and how many there are. The count has 32 bits on one side and a limit
on the other, which is where the condition on the number of entries comes from.
-/
import Pakka.PakState

set_option autoImplicit false

namespace Pakka

open ByteImage LittleEndian Logged

/-! ## Rows

One row of each format, written and read. A name fills its field or ends in zeros, and the loader's
reading of the field gives the name back in both cases.
-/

theorem length_pak_entry_row {format : Format} {geom : Geometry} {e : Entry}
    (hg : pakka_pak_geometry format = some geom)
    (hname : e.filename.strlen ≤ geom.name_field_len) :
    (pak_entry_row format geom e).length = geom.dir_entry_size := by
  have hsize := geometry_row_size hg
  have hlen : e.filename.bytes.length ≤ geom.name_field_len := hname
  unfold pak_entry_row
  simp only
  rw [hsize]
  split_ifs <;>
    simp only [List.length_append, length_put32, List.length_take, List.length_replicate,
      CStr.strlen] <;> omega

/-- The part of an entry that is in its row. -/
def pak_row_entry (e : Entry) : Entry :=
  { filename := e.filename
    offset := e.offset
    length := e.length
    dk_compressed_size := e.dk_compressed_size
    dk_is_compressed := e.dk_is_compressed }

/-- A name that fits is found in its field. -/
theorem name_field_reads_back {name : CStr} {n : ℕ} (h : name.strlen ≤ n) :
    CStr.ofField (name.bytes.take n ++ List.replicate (n - name.strlen) 0) = name := by
  rw [List.take_of_length_le h]
  exact CStr.ofField_padded name _

/-- The name field of a row. -/
def pak_name_field (geom : Geometry) (e : Entry) : Bytes :=
  e.filename.bytes.take geom.name_field_len ++
    List.replicate (geom.name_field_len - e.filename.strlen) 0

theorem length_pak_name_field {geom : Geometry} {e : Entry}
    (h : e.filename.strlen ≤ geom.name_field_len) :
    (pak_name_field geom e).length = geom.name_field_len := by
  have : e.filename.bytes.length ≤ geom.name_field_len := h
  simp only [pak_name_field, List.length_append, List.length_take, List.length_replicate,
    CStr.strlen]
  omega

/-- A WAD row reads back. -/
theorem read_wad_row {format : Format} {geom : Geometry} {e : Entry}
    (hw : pakka_format_is_wad format = true) (hc : geom.has_compression = false)
    (hname : e.filename.strlen ≤ geom.name_field_len)
    (hdk : e.dk_is_compressed = false ∧ e.dk_compressed_size = 0) :
    read_pak_row format geom (pak_entry_row format geom e) = pak_row_entry e := by
  have hrow : pak_entry_row format geom e =
      put32 e.offset ++ (put32 e.length ++ pak_name_field geom e) := by
    simp only [pak_entry_row, hw, hc, if_true, Bool.false_eq_true, if_false, List.append_assoc,
      pak_name_field]
  have hlen := length_pak_name_field hname
  have h8 : slice (put32 e.offset ++ (put32 e.length ++ pak_name_field geom e)) 8
      geom.name_field_len = pak_name_field geom e := by
    rw [← List.append_assoc, slice, List.drop_left' (by simp), List.take_of_length_le hlen.le]
  have h4 : (put32 e.offset ++ (put32 e.length ++ pak_name_field geom e)).drop 4 =
      put32 e.length ++ pak_name_field geom e := List.drop_left' (by simp)
  simp only [read_pak_row, hw, if_true, hrow, h8, h4, get32_put32_append, pak_row_entry, hdk.1,
    hdk.2]
  rw [pak_name_field, name_field_reads_back hname]

/-- The two words a Daikatana row ends with. -/
def pak_dk_words (geom : Geometry) (e : Entry) : Bytes :=
  if geom.has_compression then
    put32 e.dk_compressed_size ++ put32 (if e.dk_is_compressed then 1 else 0)
  else []

/-- Any other row reads back. -/
theorem read_named_row {format : Format} {geom : Geometry} {e : Entry}
    (hw : pakka_format_is_wad format = false) (hname : e.filename.strlen ≤ geom.name_field_len)
    (hplain : geom.has_compression = false →
      e.dk_is_compressed = false ∧ e.dk_compressed_size = 0) :
    read_pak_row format geom (pak_entry_row format geom e) = pak_row_entry e := by
  have hrow : pak_entry_row format geom e = pak_name_field geom e ++
      (put32 e.offset ++ (put32 e.length ++ pak_dk_words geom e)) := by
    cases hc : geom.has_compression <;>
      simp [pak_entry_row, hw, hc, pak_name_field, pak_dk_words]
  have hlen := length_pak_name_field hname
  have hd : ∀ k rest, (pak_name_field geom e ++ rest).drop (geom.name_field_len + k) =
      rest.drop k := by
    intro k rest
    rw [← List.drop_drop, List.drop_left' hlen]
  have hn : ∀ rest, slice (pak_name_field geom e ++ rest) 0 geom.name_field_len =
      pak_name_field geom e := by
    intro rest
    rw [slice, List.drop_zero, List.take_left' hlen]
  have h0 := hd 0 (put32 e.offset ++ (put32 e.length ++ pak_dk_words geom e))
  have h4 : (put32 e.offset ++ (put32 e.length ++ pak_dk_words geom e)).drop 4 =
      put32 e.length ++ pak_dk_words geom e := List.drop_left' (by simp)
  have h8 : (put32 e.offset ++ (put32 e.length ++ pak_dk_words geom e)).drop 8 =
      pak_dk_words geom e := by
    rw [← List.append_assoc]
    exact List.drop_left' (by simp)
  rw [Nat.add_zero, List.drop_zero] at h0
  have hfield : CStr.ofField (pak_name_field geom e) = e.filename := name_field_reads_back hname
  simp only [read_pak_row, hw, Bool.false_eq_true, if_false, hrow, hn, hd, h0, h4, h8,
    get32_put32_append, hfield, pak_row_entry]
  cases hc : geom.has_compression with
  | false =>
    obtain ⟨h1, h2⟩ := hplain hc
    simp [h1, h2]
  | true =>
    have h12 : (put32 e.offset ++ (put32 e.length ++ pak_dk_words geom e)).drop 12 =
        put32 (if e.dk_is_compressed then 1 else 0) := by
      rw [pak_dk_words, if_pos hc, ← List.append_assoc, ← List.append_assoc]
      exact List.drop_left' (by simp)
    simp only [if_true, h12, get32_put32, Bool.true_and]
    rw [pak_dk_words, if_pos hc, get32_put32_append]
    cases e.dk_is_compressed <;> rfl

/-- **A row reads back.** -/
theorem read_pak_row_pak_entry_row {format : Format} {geom : Geometry} {e : Entry}
    (hg : pakka_pak_geometry format = some geom)
    (hname : e.filename.strlen ≤ geom.name_field_len)
    (hplain : geom.has_compression = false →
      e.dk_is_compressed = false ∧ e.dk_compressed_size = 0) :
    read_pak_row format geom (pak_entry_row format geom e) = pak_row_entry e := by
  cases hw : pakka_format_is_wad format with
  | false => exact read_named_row hw hname hplain
  | true =>
    have hc := wad_plain hg hw
    exact read_wad_row hw hc hname (hplain hc)

/-- The rows of entries in a row. -/
def pak_directory (format : Format) (geom : Geometry) (es : List Entry) : Bytes :=
  (es.map (pak_entry_row format geom)).flatten

theorem length_pak_directory {format : Format} {geom : Geometry} {es : List Entry}
    (hg : pakka_pak_geometry format = some geom)
    (hname : ∀ e ∈ es, e.filename.strlen ≤ geom.name_field_len) :
    (pak_directory format geom es).length = es.length * geom.dir_entry_size := by
  induction es with
  | nil => simp [pak_directory]
  | cons e es ih =>
    have := ih fun x hx => hname x (List.mem_cons_of_mem _ hx)
    simp only [pak_directory, List.map_cons, List.flatten_cons, List.length_append,
      List.length_cons] at this ⊢
    rw [this, length_pak_entry_row hg (hname e List.mem_cons_self), Nat.succ_mul, Nat.add_comm]

/-- **A directory reads back**, row by row. -/
theorem pak_row_entries_of_directory {disk : Bytes} {format : Format} {geom : Geometry}
    {es : List Entry} {pos : ℕ} (hg : pakka_pak_geometry format = some geom)
    (hname : ∀ e ∈ es, e.filename.strlen ≤ geom.name_field_len)
    (hplain : geom.has_compression = false → ∀ e ∈ es,
      e.dk_is_compressed = false ∧ e.dk_compressed_size = 0)
    (hdir : slice disk pos (es.length * geom.dir_entry_size) = pak_directory format geom es) :
    pak_row_entries disk format geom es.length pos = es.map pak_row_entry := by
  induction es generalizing pos with
  | nil => rfl
  | cons e es ih =>
    have hrow := length_pak_entry_row hg (hname e List.mem_cons_self)
    have hsplit : slice disk pos geom.dir_entry_size ++
        slice disk (pos + geom.dir_entry_size) (es.length * geom.dir_entry_size) =
          pak_entry_row format geom e ++ pak_directory format geom es := by
      rw [slice_append_slice, Nat.add_comm geom.dir_entry_size, ← Nat.succ_mul]
      exact hdir
    have hin : (slice disk pos geom.dir_entry_size).length = geom.dir_entry_size := by
      -- the first row has its full length, since the whole directory does
      have hl := congrArg List.length hdir
      rw [length_pak_directory hg hname, length_slice, List.length_cons] at hl
      rw [length_slice]
      have : geom.dir_entry_size ≤ (es.length + 1) * geom.dir_entry_size :=
        Nat.le_mul_of_pos_left _ (by omega)
      omega
    obtain ⟨h1, h2⟩ := List.append_inj hsplit (by rw [hin, hrow])
    change read_pak_row format geom (slice disk pos geom.dir_entry_size) ::
      pak_row_entries disk format geom es.length (pos + geom.dir_entry_size) = _
    rw [h1, read_pak_row_pak_entry_row hg (hname e List.mem_cons_self)
        fun hc => hplain hc e List.mem_cons_self,
      ih (fun x hx => hname x (List.mem_cons_of_mem _ hx))
        (fun hc x hx => hplain hc x (List.mem_cons_of_mem _ hx)) h2]
    rfl

/-! ## The writer

The bytes of the file after a directory writer that went through.
-/

/-- The row loop, when it succeeds. -/
theorem write_pak_rows_ok {env : Env} {f : FileId} {geom : Geometry} (es : List Entry)
    {pak pak' : Archive} {i pos : ℕ} (hg : pakka_pak_geometry pak.format = some geom)
    (hname : ∀ e ∈ es, e.filename.strlen ≤ geom.name_field_len)
    (h : (write_pak_rows env f geom pak i pos es).res = .ok pak') :
    pak' = { pak with
        dirlength := pak.dirlength + UInt32.ofNat (es.length * geom.dir_entry_size) } ∧
      WritesAt f pos (pak_directory pak.format geom es)
        (write_pak_rows env f geom pak i pos es).log := by
  induction es generalizing pak i pos with
  | nil =>
    simp only [write_pak_rows, pure_res, Except.ok.injEq] at h
    rw [← h]
    refine ⟨?_, WritesAt.nil f pos⟩
    simp only [List.length_nil, Nat.zero_mul]
    rw [show UInt32.ofNat 0 = 0 from rfl, UInt32.add_zero]
  | cons e es ih =>
    simp only [write_pak_rows, bind_res_ok, writeAt_res_ok, exists_const] at h ⊢
    obtain ⟨hw, h⟩ := h
    obtain ⟨rfl, hlog⟩ := ih (by exact hg) (fun x hx => hname x (List.mem_cons_of_mem _ hx)) h
    refine ⟨?_, ?_⟩
    · have hsum : pak.dirlength + UInt32.ofNat geom.dir_entry_size +
          UInt32.ofNat (es.length * geom.dir_entry_size) =
          pak.dirlength + UInt32.ofNat ((e :: es).length * geom.dir_entry_size) := by
        rw [UInt32.add_assoc, List.length_cons, Nat.succ_mul, Nat.add_comm, UInt32.ofNat_add]
      simp only [hsum]
    · rw [bind_log_of_ok ((writeAt_res_ok _ _ _ _ _ _ ()).mpr hw), writeAt_log_of_ok hw]
      exact (WritesAt.single f pos _).append hlog
        (by rw [length_pak_entry_row hg (hname e List.mem_cons_self)])

/-- The handle once its directory is written. -/
def with_directory (pak : Archive) (geom : Geometry) : Archive :=
  { pak with
    diroffset := UInt32.ofNat (if pak.entries = [] then PAKFILE_HEADER_SIZE else pak.payload_end)
    dirlength := UInt32.ofNat (pak.entries.length * geom.dir_entry_size) }

/-- The file once a directory is written to it. -/
def pak_file (pak : Archive) (geom : Geometry) (c : Bytes) : Bytes :=
  overwrite (overwrite c pak.payload_end (pak_directory pak.format geom pak.entries)) 0
    (pak_header (with_directory pak geom))

/-- **The directory writer**, when it succeeds. -/
theorem write_pak_directory_ok {env : Env} {f : FileId} {pak pak' : Archive} {geom : Geometry}
    (hg : pakka_pak_geometry pak.format = some geom)
    (hname : ∀ e ∈ pak.entries, e.filename.strlen ≤ geom.name_field_len)
    (h : (write_pak_directory env f pak).res = .ok pak') :
    pak' = with_directory pak geom ∧
      (pak.entries ≠ [] →
        pak.payload_end + pak.num_entries.toNat * geom.dir_entry_size ≤ UINT32_MAX) ∧
      ∀ fs c, fs f = some c →
        FileOp.run fs (write_pak_directory env f pak).log f = some (pak_file pak geom c) := by
  simp only [write_pak_directory, hg, bind_res_ok, ofOption_res_ok, Option.some.injEq,
    exists_eq_left'] at h
  -- only the branch of the geometry at hand is left
  have hlog0 : (write_pak_directory env f pak).log = (if pak.entries.length = 0 then do
      let pak := { pak with diroffset := UInt32.ofNat PAKFILE_HEADER_SIZE, dirlength := 0 }
      call env.faults .seek_header (.io, pak)
      write_pak_header env f pak
      pure pak
    else if pak.payload_end + pak.num_entries.toNat * geom.dir_entry_size > UINT32_MAX then
      fail (.limit, pak)
    else do
      let pak := { pak with diroffset := UInt32.ofNat pak.payload_end, dirlength := 0 }
      call env.faults .seek_directory (.io, pak)
      let pak ← write_pak_rows env f geom pak 0 pak.diroffset.toNat pak.entries
      call env.faults .seek_header (.io, pak)
      write_pak_header env f pak
      pure pak : HandleOp Archive).log := by
    unfold write_pak_directory
    rw [hg]
    rfl
  rw [hlog0]
  clear hlog0
  by_cases h0 : pak.entries.length = 0
  -- no entries: the header is all there is to write
  · have hnil := List.length_eq_zero_iff.mp h0
    rw [if_pos h0] at h ⊢
    simp only [bind_res_ok, call_res_ok, exists_const, write_pak_header, writeAt_res_ok, pure_res,
      Except.ok.injEq] at h
    obtain ⟨h1, h2, rfl⟩ := h
    refine ⟨?_, fun hne => absurd hnil hne, fun fs c hc => ?_⟩
    · simp only [with_directory, hnil, if_true, List.length_nil, Nat.zero_mul]
      rfl
    · simp only [write_pak_header]
      rw [bind_log_of_ok ((call_res_ok _ _ _ ()).mpr h1),
        bind_log_of_ok ((writeAt_res_ok _ _ _ _ _ _ ()).mpr h2), call_log, pure_log,
        writeAt_log_of_ok h2, List.nil_append, List.append_nil, FileOp.run_write hc]
      simp only [pak_file, pak_directory, with_directory, hnil, List.map_nil, List.flatten_nil,
        overwrite_nil, if_true, List.length_nil, Nat.zero_mul]
      rfl
  -- rows at the end of the payloads, then the header in front
  · have hne : pak.entries ≠ [] := fun hn => h0 (by rw [hn]; rfl)
    rw [if_neg h0] at h ⊢
    by_cases hbig : pak.payload_end + pak.num_entries.toNat * geom.dir_entry_size > UINT32_MAX
    · rw [if_pos hbig] at h
      cases h
    rw [if_neg hbig] at h ⊢
    simp only [bind_res_ok, call_res_ok, exists_const, write_pak_header, writeAt_res_ok, pure_res,
      Except.ok.injEq] at h
    obtain ⟨h1, pak1, hrows, h2, h3, rfl⟩ := h
    have hoff : (UInt32.ofNat pak.payload_end).toNat = pak.payload_end := by
      rw [UInt32.toNat_ofNat', Nat.mod_eq_of_lt (by simp only [UINT32_MAX] at hbig; omega)]
    obtain ⟨hpak1, hlog⟩ := write_pak_rows_ok pak.entries (by exact hg) hname hrows
    have hdone : pak1 = with_directory pak geom := by
      rw [hpak1]
      simp only [with_directory, if_neg hne, UInt32.zero_add]
    refine ⟨hdone, fun _ => Nat.not_lt.mp hbig, fun fs c hc => ?_⟩
    simp only [write_pak_header]
    rw [bind_log_of_ok ((call_res_ok _ _ _ ()).mpr h1), bind_log_of_ok hrows,
      bind_log_of_ok ((call_res_ok _ _ _ ()).mpr h2),
      bind_log_of_ok ((writeAt_res_ok _ _ _ _ _ _ ()).mpr h3), call_log, call_log, pure_log,
      writeAt_log_of_ok h3, List.nil_append, List.nil_append, List.append_nil, FileOp.run_append]
    simp only [hoff] at hlog ⊢
    rw [FileOp.run_write (hlog fs c hc), hdone]
    rfl

/-! ## Failures of the writer

A writer that fails has written a part of the directory. What is in front of it is as before.
-/

/-- All that changed in a handle is where its directory is. -/
def SameButDirectory (pak pak' : Archive) : Prop :=
  ∃ diroffset dirlength, pak' = { pak with diroffset := diroffset, dirlength := dirlength }

/-- A failed write reports an error and left all but the directory words of the handle. -/
def DirectoryError (pak : Archive) (err : Status × Archive) : Prop :=
  IsError err.1 ∧ SameButDirectory pak err.2

theorem failsWith_write_pak_rows {env : Env} {f : FileId} {geom : Geometry} {base : Archive}
    (es : List Entry) {pak : Archive} {i pos : ℕ} (h : SameButDirectory base pak) :
    FailsWith (DirectoryError base) (write_pak_rows env f geom pak i pos es) := by
  induction es generalizing pak i pos with
  | nil => exact failsWith_pure _
  | cons e es ih =>
    refine (failsWith_writeAt ⟨io_isError, h⟩).bind fun _ => ih ?_
    obtain ⟨d, l, rfl⟩ := h
    exact ⟨_, _, rfl⟩

/-- Rows keep everything but the directory words. -/
theorem write_pak_rows_same {env : Env} {f : FileId} {geom : Geometry} {base : Archive}
    (es : List Entry) {pak pak' : Archive} {i pos : ℕ} (hb : SameButDirectory base pak)
    (h : (write_pak_rows env f geom pak i pos es).res = .ok pak') : SameButDirectory base pak' := by
  induction es generalizing pak i pos with
  | nil =>
    simp only [write_pak_rows, pure_res, Except.ok.injEq] at h
    exact h ▸ hb
  | cons e es ih =>
    simp only [write_pak_rows, bind_res_ok, writeAt_res_ok, exists_const] at h
    refine ih ?_ h.2
    obtain ⟨d, l, rfl⟩ := hb
    exact ⟨_, _, rfl⟩

/-- A sequence fails as its parts do, the second given what the first delivered. -/
theorem failsWith_bind_of {α β : Type} {Q : Status × Archive → Prop} {x : HandleOp α}
    {k : α → HandleOp β} (hx : FailsWith Q x) (hk : ∀ a, x.res = .ok a → FailsWith Q (k a)) :
    FailsWith Q (x >>= k) := by
  intro e h
  change (Logged.bind x k).res = _ at h
  unfold Logged.bind at h
  cases hr : x.res with
  | ok a =>
    rw [hr] at h
    exact hk a hr e h
  | error e' =>
    rw [hr] at h
    exact Except.error.inj h ▸ hx e' hr

/-- A directory write keeps everything but the directory words. -/
theorem write_pak_directory_same {env : Env} {f : FileId} {pak pak' : Archive}
    (h : (write_pak_directory env f pak).res = .ok pak') : SameButDirectory pak pak' := by
  simp only [write_pak_directory, bind_res_ok, ofOption_res_ok] at h
  obtain ⟨geom, -, h⟩ := h
  split_ifs at h
  · simp only [bind_res_ok, pure_res, Except.ok.injEq] at h
    obtain ⟨_, -, _, -, rfl⟩ := h
    exact ⟨_, _, rfl⟩
  · cases h
  · simp only [bind_res_ok, pure_res, Except.ok.injEq] at h
    obtain ⟨_, -, pak1, h1, _, -, _, -, rfl⟩ := h
    exact write_pak_rows_same _ ⟨_, _, rfl⟩ h1

/-- **A failed directory write** changed nothing of the handle but its directory words. -/
theorem failsWith_write_pak_directory (env : Env) (f : FileId) (pak : Archive) :
    FailsWith (DirectoryError pak) (write_pak_directory env f pak) := by
  have hformat : IsError .format := by simp [IsError]
  refine (failsWith_ofOption ⟨hformat, _, _, rfl⟩).bind fun geom => FailsWith.ite ?_ ?_
  · refine (failsWith_call ⟨io_isError, _, _, rfl⟩).bind fun _ => ?_
    exact (failsWith_writeAt ⟨io_isError, _, _, rfl⟩).bind fun _ => failsWith_pure _
  · refine FailsWith.ite (failsWith_fail.mpr ⟨limit_isError, _, _, rfl⟩) ?_
    refine (failsWith_call ⟨io_isError, _, _, rfl⟩).bind fun _ => ?_
    refine failsWith_bind_of (failsWith_write_pak_rows _ ⟨_, _, rfl⟩) fun pak1 h1 => ?_
    have hs := write_pak_rows_same _ ⟨_, _, rfl⟩ h1
    refine (failsWith_call ⟨io_isError, hs⟩).bind fun _ => ?_
    exact (failsWith_writeAt ⟨io_isError, hs⟩).bind fun _ => failsWith_pure _

theorem length_pak_header {pak : Archive} (h : pak.signature.length = 4) :
    (pak_header pak).length = PAKFILE_HEADER_SIZE := by
  unfold pak_header
  split_ifs <;> simp [h]

theorem confined_write_pak_rows {env : Env} {f : FileId} {geom : Geometry} {hi : ℕ}
    (es : List Entry) {pak : Archive} {i pos : ℕ} (h : hi ≤ pos) :
    Confined f PAKFILE_HEADER_SIZE hi (write_pak_rows env f geom pak i pos es).log := by
  induction es generalizing pak i pos with
  | nil => exact Confined.nil _ _ _
  | cons e es ih =>
    exact Confined.bind (confined_writeAt (Or.inr h)) fun _ _ => ih (by omega)

/-- **The directory writer leaves the payloads alone**, whatever fails. -/
theorem confined_write_pak_directory (env : Env) (f : FileId) {pak : Archive}
    (hsig : pak.signature.length = 4) :
    Confined f PAKFILE_HEADER_SIZE pak.payload_end (write_pak_directory env f pak).log := by
  have hheader : ∀ pak', pak'.signature = pak.signature →
      Confined f PAKFILE_HEADER_SIZE pak.payload_end (write_pak_header env f pak').log := by
    intro pak' h
    refine confined_writeAt (Or.inl ?_)
    rw [length_pak_header (h ▸ hsig), Nat.zero_add]
  refine Confined.bind (confined_ofOption _ _ _ _ _) fun geom _ => ?_
  by_cases h0 : pak.entries.length = 0
  · rw [if_pos h0]
    refine Confined.bind (confined_call _ _ _ _ _ _) fun _ _ => ?_
    exact Confined.bind (hheader _ rfl) fun _ _ => Confined.nil _ _ _
  rw [if_neg h0]
  by_cases hbig : pak.payload_end + pak.num_entries.toNat * geom.dir_entry_size > UINT32_MAX
  · rw [if_pos hbig]
    exact Confined.nil _ _ _
  rw [if_neg hbig]
  have hoff : (UInt32.ofNat pak.payload_end).toNat = pak.payload_end := by
    rw [UInt32.toNat_ofNat', Nat.mod_eq_of_lt (by simp only [UINT32_MAX] at hbig; omega)]
  refine Confined.bind (confined_call _ _ _ _ _ _) fun _ _ => ?_
  refine Confined.bind (confined_write_pak_rows _ (by simp only [hoff]; omega)) fun pak1 h1 => ?_
  have hsame : SameButDirectory pak pak1 := write_pak_rows_same _ ⟨_, _, rfl⟩ h1
  obtain ⟨d, l, hs⟩ := hsame
  refine Confined.bind (confined_call _ _ _ _ _ _) fun _ _ => ?_
  exact Confined.bind (hheader _ (by rw [hs])) fun _ _ => Confined.nil _ _ _

/-! ## Reopening

The loader on a file that carries a directory in order.
-/

/-- The file carries the directory of the handle. -/
structure PakPublished (disk : Bytes) (pak : Archive) (geom : Geometry) : Prop where
  directory : PakDirectory disk pak.format geom pak.diroffset pak.dirlength
  rows : pak_row_entries disk pak.format geom (pak.dirlength.toNat / geom.dir_entry_size)
    pak.diroffset.toNat = pak.entries.map pak_row_entry
  on_disk : ∀ e ∈ pak.entries, e.staged = false

/-- **A published archive opens** and lists the handle's entries. -/
theorem PakPublished.reopens {disk : Bytes} {pak : Archive} {geom : Geometry}
    (hg : pakka_pak_geometry pak.format = some geom) (h : PakPublished disk pak geom)
    {path : CStr} (hpath : path.strlen < OS_PATH_MAX) (mode : OpenMode) :
    ∃ pak', pakka_open_ex path mode pak.format (some disk) = .ok pak' ∧
      pak'.entries = pak.entries.map pak_row_entry :=
  ⟨_, (open_pak_iff hg).mpr ⟨hpath, _, _, h.directory, rfl⟩, h.rows⟩

/-- The words a written header reads as. -/
theorem read_pak_header_of_written {disk : Bytes} {pak : Archive} {geom : Geometry} {n : ℕ}
    (hg : pakka_pak_geometry pak.format = some geom) (hsig : pak.signature.length = 4)
    (hheader : slice disk 0 PAKFILE_HEADER_SIZE = pak_header pak)
    (hlen : PAKFILE_HEADER_SIZE ≤ disk.length) (hn : n ≤ PAKFILE_MAX_ENTRIES)
    (hdir : pak.dirlength = UInt32.ofNat (n * geom.dir_entry_size)) :
    read_pak_header disk pak.format = .ok (pak.diroffset, pak.dirlength) := by
  obtain ⟨-, -, hrow1, hrow2⟩ := geometry_bounds hg
  have h12 : PAKFILE_HEADER_SIZE = 12 := rfl
  have hword : ∀ a w1 w2 : Bytes, a.length = 4 → w1.length = 4 → w2.length = 4 →
      slice disk 0 12 = a ++ (w1 ++ w2) →
      readExact disk 4 4 = some w1 ∧ readExact disk 8 4 = some w2 := by
    intro a w1 w2 ha h1 h2 h
    rw [readExact_of_le (by omega), readExact_of_le (by omega)]
    have e1 : slice disk 4 4 = slice (slice disk 0 12) 4 4 := by
      rw [slice_slice (by omega)]
    have e2 : slice disk 8 4 = slice (slice disk 0 12) 8 4 := by
      rw [slice_slice (by omega)]
    rw [e1, e2, h]
    constructor
    · rw [slice, ← ha, List.drop_left, List.take_left' (by omega)]
    · have h8 : (a ++ (w1 ++ w2)).drop 8 = w2 := by
        rw [← List.append_assoc]
        exact List.drop_left' (by simp [ha, h1])
      rw [slice, h8, List.take_of_length_le (by omega)]
  have hbig : n * geom.dir_entry_size ≤ 1048576 * 128 := Nat.mul_le_mul hn hrow2
  have hdl : pak.dirlength.toNat = n * geom.dir_entry_size := by
    rw [hdir, UInt32.toNat_ofNat', Nat.mod_eq_of_lt (by omega)]
  cases hw : pakka_format_is_wad pak.format with
  -- offset and length of the directory
  | false =>
    have hh : slice disk 0 12 =
        pak.signature ++ (put32 pak.diroffset ++ put32 pak.dirlength) := by
      rw [hheader, pak_header, hw, if_neg (by simp), List.append_assoc]
    obtain ⟨h1, h2⟩ := hword _ _ _ hsig rfl rfl hh
    simp only [read_pak_header, h1, h2, hw, orError, except_bind_eq_ok, Except.ok.injEq,
      exists_eq_left', get32_put32]
    rfl
  -- a WAD has the number of lumps in front of the offset
  | true =>
    have hh : slice disk 0 12 = pak.signature ++
        (put32 (pak.dirlength / UInt32.ofNat geom.dir_entry_size) ++ put32 pak.diroffset) := by
      rw [hheader, pak_header, hw, if_pos rfl, hg, List.append_assoc]
    obtain ⟨h1, h2⟩ := hword _ _ _ hsig rfl rfl hh
    obtain ⟨hc1, hc2⟩ := row_count_eq hg pak.dirlength
    have hq : pak.dirlength.toNat / geom.dir_entry_size = n := by
      rw [hdl, Nat.mul_div_cancel _ (by omega)]
    rw [hq] at hc1 hc2
    have hback : UInt32.ofNat n * UInt32.ofNat geom.dir_entry_size = pak.dirlength := by
      rw [hdir, UInt32.ofNat_mul]
    simp only [read_pak_header, h1, h2, hw, hg, orError, except_bind_eq_ok, Except.ok.injEq,
      exists_eq_left', get32_put32, hc1, hc2, ite_error_eq_ok, hback]
    exact ⟨by omega, rfl⟩

/-- Where the directory of a written archive starts. -/
def directory_start (pak : Archive) : ℕ :=
  if pak.entries = [] then PAKFILE_HEADER_SIZE else pak.payload_end

/-- **A written file has its header and its directory**, whatever was in it before. -/
theorem pak_file_parts {n : ℕ} {pak : Archive} {geom : Geometry} (h : PakState n pak geom)
    (c : Bytes) :
    slice (pak_file pak geom c) 0 PAKFILE_HEADER_SIZE = pak_header (with_directory pak geom) ∧
      PAKFILE_HEADER_SIZE ≤ (pak_file pak geom c).length ∧
      slice (pak_file pak geom c) (directory_start pak)
          (pak.entries.length * geom.dir_entry_size) =
        pak_directory pak.format geom pak.entries ∧
      directory_start pak + pak.entries.length * geom.dir_entry_size ≤
        (pak_file pak geom c).length := by
  have hg := h.geometry
  obtain ⟨-, -, hrow1, -⟩ := geometry_bounds hg
  have h12 : PAKFILE_HEADER_SIZE = 12 := rfl
  have hend := h.payload_end_ge
  have hsig : (with_directory pak geom).signature.length = 4 := by
    change pak.signature.length = 4
    rw [h.signature, geometry_signature_length hg]
  have hlenrows := length_pak_directory hg fun e he => (h.entries e he).name_fits
  have hlenhdr := length_pak_header hsig
  have hheader : slice (pak_file pak geom c) 0 PAKFILE_HEADER_SIZE =
      pak_header (with_directory pak geom) := by
    rw [← hlenhdr, pak_file, slice_overwrite_self]
  have hge12 : 12 ≤ (pak_file pak geom c).length := by
    have := congrArg List.length hheader
    rw [hlenhdr, length_slice] at this
    omega
  refine ⟨hheader, hge12, ?_⟩
  unfold directory_start
  split_ifs with h0
  · rw [h0, List.length_nil, Nat.zero_mul, slice_zero_len]
    exact ⟨rfl, by omega⟩
  · rw [← hlenrows]
    constructor
    · rw [pak_file, slice_overwrite_after (by omega), slice_overwrite_self]
    · have hne : pak_directory pak.format geom pak.entries ≠ [] := by
        intro hn
        rw [hn, List.length_nil] at hlenrows
        have : 0 < pak.entries.length := List.length_pos_iff.mpr h0
        have := Nat.mul_pos this (by omega : 0 < geom.dir_entry_size)
        omega
      have h1 := length_overwrite c (pak_directory pak.format geom pak.entries) pak.payload_end
      rw [if_neg hne] at h1
      have h2 := length_le_overwrite (overwrite c pak.payload_end
        (pak_directory pak.format geom pak.entries)) (pak_header (with_directory pak geom)) 0
      rw [pak_file]
      omega

/-- **What the directory writer leaves is published**, when nothing is staged and the loader
takes that many entries. -/
theorem pak_file_published {n : ℕ} {pak : Archive} {geom : Geometry} (h : PakState n pak geom)
    (hdisk : ∀ e ∈ pak.entries, e.staged = false) (hmax : pak.entries.length ≤ PAKFILE_MAX_ENTRIES)
    (hfit : pak.entries ≠ [] →
      pak.payload_end + pak.num_entries.toNat * geom.dir_entry_size ≤ UINT32_MAX) (c : Bytes) :
    PakPublished (pak_file pak geom c) (with_directory pak geom) geom := by
  have hg := h.geometry
  obtain ⟨-, -, hrow1, hrow2⟩ := geometry_bounds hg
  have h12 : PAKFILE_HEADER_SIZE = 12 := rfl
  have hmaxn : PAKFILE_MAX_ENTRIES = 1048576 := rfl
  have humax : UINT32_MAX = 4294967295 := rfl
  have hend := h.payload_end_ge
  have hname := fun e he => (h.entries e he).name_fits
  have hcount : pak.num_entries.toNat = pak.entries.length := by
    rw [h.count, UInt32.toNat_ofNat', Nat.mod_eq_of_lt (by omega)]
  rw [hcount] at hfit
  have hsig : (with_directory pak geom).signature.length = 4 := by
    change pak.signature.length = 4
    rw [h.signature, geometry_signature_length hg]
  have hbig : pak.entries.length * geom.dir_entry_size ≤ 1048576 * 128 :=
    Nat.mul_le_mul (by omega) hrow2
  have hdl : (UInt32.ofNat (pak.entries.length * geom.dir_entry_size)).toNat =
      pak.entries.length * geom.dir_entry_size := by
    rw [UInt32.toNat_ofNat', Nat.mod_eq_of_lt (by omega)]
  have hdiv : pak.entries.length * geom.dir_entry_size / geom.dir_entry_size =
      pak.entries.length := Nat.mul_div_cancel _ (by omega)
  obtain ⟨hheader, hge12, hrows, hin⟩ := pak_file_parts h c
  unfold directory_start at hrows hin
  -- where the directory is
  generalize hpos : (if pak.entries = [] then PAKFILE_HEADER_SIZE else pak.payload_end) = pos at *
  have hpos12 : 12 ≤ pos := by
    rw [← hpos]
    split_ifs <;> omega
  have hposfit : pos + pak.entries.length * geom.dir_entry_size ≤ UINT32_MAX := by
    rw [← hpos]
    split_ifs with h0
    · rw [h0, List.length_nil]
      omega
    · exact hfit h0
  have hoff : (UInt32.ofNat pos).toNat = pos := by
    rw [UInt32.toNat_ofNat', Nat.mod_eq_of_lt (by omega)]
  have hdo : (with_directory pak geom).diroffset = UInt32.ofNat pos := by
    simp only [with_directory, hpos]
  have hents : pak_row_entries (pak_file pak geom c) pak.format geom
      ((with_directory pak geom).dirlength.toNat / geom.dir_entry_size)
      (with_directory pak geom).diroffset.toNat = pak.entries.map pak_row_entry := by
    have hdl' : (with_directory pak geom).dirlength.toNat =
        pak.entries.length * geom.dir_entry_size := hdl
    rw [hdl', hdiv, hdo, hoff]
    exact pak_row_entries_of_directory hg hname (fun hc e he => (h.entries e he).plain hc) hrows
  refine ⟨⟨⟨?_, by omega, ?_, ?_, ?_, ?_, ?_⟩, ?_, ?_⟩, hents, hdisk⟩
  · have hs : slice (pak_file pak geom c) 0 4 =
        slice (slice (pak_file pak geom c) 0 PAKFILE_HEADER_SIZE) 0 4 := by
      rw [slice_slice (by omega)]
    rw [hs, hheader, ← h.signature]
    change slice _ 0 4 = (with_directory pak geom).signature
    unfold pak_header
    split_ifs <;>
      rw [slice, List.drop_zero, List.append_assoc, List.take_left' hsig]
  · exact read_pak_header_of_written hg hsig hheader (by omega) hmax rfl
  · rw [hdo, hoff]
    exact hpos12
  · rw [hdo, hoff]
    change pos + (UInt32.ofNat _).toNat ≤ _
    rw [hdl]
    exact hin
  · change (UInt32.ofNat _).toNat % _ = 0
    rw [hdl, Nat.mul_mod_left]
  · change (UInt32.ofNat _).toNat / _ ≤ _
    rw [hdl, hdiv]
    exact hmax
  · intro e he
    change e ∈ pak_row_entries _ pak.format _ _ _ at he
    rw [hents] at he
    obtain ⟨x, hx, rfl⟩ := List.mem_map.mp he
    have hx' := h.entries x hx
    have hne : pak.entries ≠ [] := List.ne_nil_of_mem hx
    rw [← hpos, if_neg hne] at hin
    refine pak_row_in_range_iff.mpr ⟨hx'.offset_ge (hdisk x hx), ?_⟩
    have := hx'.before_end (hdisk x hx)
    change x.payloadEnd ≤ _
    omega
  · intro hw
    change (List.map _ (pak_row_entries _ pak.format _ _ _)).Nodup
    rw [hents, List.map_map]
    exact h.nodup hw

end Pakka
