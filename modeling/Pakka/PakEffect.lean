/-
What the calls but a commit do when they succeed, said once: `PakEffect` lists the outcomes
on a PAK-class archive and `pak_call_ok` says there are no others. Every invariant of the
development is a case analysis on it.

The mutators that take the name of an existing entry do the same on every format, so their
part, `NameEffect`, stands by itself.

An outcome lists everything that may be different afterwards: the list, the marks and the log. The
induction over the calls of a session then never unfolds a mutator, and a change to one of them
shows up here and in its own lemmas only.
-/
import Pakka.PakMutators
import Pakka.DkRoundTrip

set_option autoImplicit false

namespace Pakka

open ByteImage Logged

/-! ## Adds that succeed

Plain or atomic, from a file or from memory, with or without compression: in the end an entry is
appended, and what is recorded of it is right for what was given.
-/

/-- The encoded form under which a payload is stored, where the archive compresses it. -/
def pak_stored_form (format : Format) (entry_name : CStr) (src : Bytes) : Option Bytes :=
  if dk_try_compress format entry_name src.length ∧ dk_worst src.length ≤ UINT32_MAX then
    match pakka_dk_deflate src (dk_worst src.length) with
    | .ok enc => if enc.length < src.length then some enc else none
    | .error _ => none
  else none

/-- An encoded form is one of a Daikatana archive, is smaller than its source and decodes to
it. -/
theorem pak_stored_form_some {format : Format} {entry_name : CStr} {src enc : Bytes}
    (h : pak_stored_form format entry_name src = some enc) :
    format = .daikatana ∧ enc.length < src.length ∧
      pakka_dk_inflate enc src.length = .ok src := by
  unfold pak_stored_form at h
  by_cases hc : dk_try_compress format entry_name src.length ∧ dk_worst src.length ≤ UINT32_MAX
  · rw [if_pos hc] at h
    cases hd : pakka_dk_deflate src (dk_worst src.length) with
    | error e =>
      rw [hd] at h
      cases h
    | ok b =>
      rw [hd] at h
      simp only at h
      split_ifs at h with hlt
      obtain rfl := Option.some.inj h
      have htry := hc.1
      simp only [dk_try_compress, Bool.and_eq_true, decide_eq_true_eq] at htry
      exact ⟨htry.1.1, hlt, dk_inflate_dk_deflate hd⟩
  · rw [if_neg hc] at h
    cases h

/-- The encoder leaves the stored form, or nothing where an allocation failed. -/
theorem dk_encode_eq (env : Env) {format : Format} {entry_name : CStr} {src : Bytes}
    (htry : dk_try_compress format entry_name src.length = true)
    (hfit : dk_worst src.length ≤ UINT32_MAX) :
    dk_encode env src =
      if env.faults.fails .encode then none else pak_stored_form format entry_name src := by
  have hc : dk_try_compress format entry_name src.length = true ∧
      dk_worst src.length ≤ UINT32_MAX := ⟨htry, hfit⟩
  have hform : pak_stored_form format entry_name src =
      match pakka_dk_deflate src (dk_worst src.length) with
        | .ok enc => if enc.length < src.length then some enc else none
        | .error _ => none := if_pos hc
  rw [hform]
  unfold dk_encode
  cases pakka_dk_deflate src (dk_worst src.length) <;> simp only

/-- What an add has in memory of the first `len` bytes of `stream`: these bytes, their encoded
form, or neither; the encoded form is there whenever nothing failed. -/
structure CaptureOf (env : Env) (format : Format) (entry_name : CStr) (stream : Bytes) (len : ℕ)
    (cap : Captured) : Prop where
  raw : ∀ src, cap = .raw src → readExact stream 0 len = some src
  encoded : ∀ enc, cap = .encoded enc → ∃ src, readExact stream 0 len = some src ∧
    pak_stored_form format entry_name src = some enc
  calm : (∀ p, env.faults.fails p = false) → ∀ src, readExact stream 0 len = some src →
    cap.enc_buf = pak_stored_form format entry_name src

/-- Nothing is captured where nothing would be encoded. -/
theorem captureOf_none {env : Env} {format : Format} {entry_name : CStr} {stream : Bytes}
    {len : ℕ} (h : (∀ p, env.faults.fails p = false) →
      ¬ (dk_try_compress format entry_name len ∧ dk_worst len ≤ UINT32_MAX)) :
    CaptureOf env format entry_name stream len .none := by
  refine ⟨fun s hs => (by cases hs), fun s hs => (by cases hs), fun hcalm src hsrc => ?_⟩
  obtain ⟨-, hlen⟩ := readExact_eq_some.mp hsrc
  unfold pak_stored_form
  rw [hlen, if_neg (h hcalm)]
  rfl

/-- What the encoder makes of captured bytes, kept with or without the source. -/
theorem captureOf_encode (env : Env) {format : Format} {entry_name : CStr} {stream src : Bytes}
    {len : ℕ} {other : Captured} (hsrc : readExact stream 0 len = some src)
    (htry : dk_try_compress format entry_name len = true) (hfit : dk_worst len ≤ UINT32_MAX)
    (hother : other = .none ∨ other = .raw src) :
    CaptureOf env format entry_name stream len
      (match dk_encode env src with
        | some enc => .encoded enc
        | none => other) := by
  obtain ⟨-, hlen⟩ := readExact_eq_some.mp hsrc
  have henc : dk_encode env src =
      if env.faults.fails .encode then none else pak_stored_form format entry_name src :=
    dk_encode_eq env (by rw [hlen]; exact htry) (by rw [hlen]; exact hfit)
  have hother' : other.enc_buf = none := by
    rcases hother with rfl | rfl <;> rfl
  cases he : dk_encode env src with
  | some enc =>
    rw [he] at henc
    have hform : pak_stored_form format entry_name src = some enc := by
      split_ifs at henc
      exact henc.symm
    refine ⟨fun s hs => (by cases hs), fun s hs => ?_, fun _ src' hsrc' => ?_⟩
    · exact ⟨src, hsrc, (Captured.encoded.inj hs) ▸ hform⟩
    · obtain rfl := Option.some.inj (hsrc.symm.trans hsrc')
      exact hform.symm
  | none =>
    rw [he] at henc
    refine ⟨fun s hs => ?_, fun s hs => ?_, fun hcalm src' hsrc' => ?_⟩
    · rcases hother with rfl | rfl
      · cases hs
      · exact (Captured.raw.inj hs) ▸ hsrc
    · rcases hother with rfl | rfl <;> cases hs
    · obtain rfl := Option.some.inj (hsrc.symm.trans hsrc')
      rw [hcalm, if_neg (by simp)] at henc
      simp only [hother', ← henc]

/-- The capture of `pakka_add_file`. -/
theorem dk_capture_source_of {env : Env} {format : Format} {entry_name : CStr}
    {stream : Bytes} {src_size : ℕ} {cap : Captured}
    (h : (if dk_try_compress format entry_name src_size
      then dk_capture_source env stream src_size else .ok .none) = .ok cap) :
    CaptureOf env format entry_name stream src_size cap := by
  by_cases htry : dk_try_compress format entry_name src_size = true
  · rw [if_pos htry, dk_capture_source] at h
    by_cases h1 : dk_worst src_size > UINT32_MAX
    · rw [if_pos h1] at h
      obtain rfl := Except.ok.inj h
      exact captureOf_none fun _ hc => absurd hc.2 (Nat.not_le.mpr h1)
    rw [if_neg h1] at h
    by_cases h2 : env.faults.fails .capture = true
    · rw [if_pos h2] at h
      obtain rfl := Except.ok.inj h
      refine captureOf_none fun hcalm _ => ?_
      rw [hcalm] at h2
      cases h2
    rw [if_neg h2] at h
    simp only [except_bind_eq_ok, orError_eq_ok] at h
    obtain ⟨src, hsrc, h⟩ := h
    have hcap := captureOf_encode env hsrc htry (Nat.not_lt.mp h1) (Or.inr rfl)
    cases he : dk_encode env src with
    | none =>
      rw [he] at h hcap
      obtain rfl := except_pure_eq_ok.mp h
      exact hcap
    | some enc =>
      rw [he] at h hcap
      obtain rfl := except_pure_eq_ok.mp h
      exact hcap
  · rw [if_neg htry] at h
    obtain rfl := Except.ok.inj h
    exact captureOf_none fun _ hc => htry hc.1

/-- The capture of `pakka_add_memory`. -/
theorem dk_capture_memory_of (env : Env) (format : Format) (entry_name : CStr) (data : Bytes) :
    CaptureOf env format entry_name data data.length
      (if dk_try_compress format entry_name data.length
        then dk_capture_memory env data else .none) := by
  have hsrc : readExact data 0 data.length = some data := by
    rw [readExact_of_le (by omega), slice_full]
  by_cases htry : dk_try_compress format entry_name data.length = true
  · rw [if_pos htry, dk_capture_memory]
    by_cases h1 : dk_worst data.length > UINT32_MAX
    · rw [if_pos h1]
      exact captureOf_none fun _ hc => absurd hc.2 (Nat.not_le.mpr h1)
    · rw [if_neg h1]
      exact captureOf_encode _ hsrc htry (Nat.not_lt.mp h1) (Or.inl rfl)
  · rw [if_neg htry]
    exact captureOf_none fun _ hc => htry hc.1

/-- How the first `len` bytes of `stream` are stored: `stored` is the encoded form `enc`, or,
where there is none, the bytes themselves. -/
structure StoredAs (env : Env) (format : Format) (entry_name : CStr) (stream : Bytes) (len : ℕ)
    (enc : Option Bytes) (stored : Bytes) : Prop where
  bytes : ∃ src, readExact stream 0 len = some src ∧ (enc = none ∧ stored = src ∨
    enc = some stored ∧ pak_stored_form format entry_name src = some stored)
  calm : (∀ p, env.faults.fails p = false) → ∀ src, readExact stream 0 len = some src →
    enc = pak_stored_form format entry_name src

namespace StoredAs

variable {env : Env} {format : Format} {entry_name : CStr} {stream stored : Bytes} {len : ℕ}
  {enc : Option Bytes}

theorem of_encoded {b : Bytes} (h : CaptureOf env format entry_name stream len (.encoded b)) :
    StoredAs env format entry_name stream len (some b) b := by
  obtain ⟨src, hsrc, hform⟩ := h.encoded b rfl
  exact ⟨⟨src, hsrc, Or.inr ⟨rfl, hform⟩⟩, h.calm⟩

theorem of_plain {cap : Captured} (h : CaptureOf env format entry_name stream len cap)
    (henc : cap.enc_buf = none) {src : Bytes} (hsrc : readExact stream 0 len = some src) :
    StoredAs env format entry_name stream len none src :=
  ⟨⟨src, hsrc, Or.inl ⟨rfl, rfl⟩⟩, fun hc => henc ▸ h.calm hc⟩

/-- The stored form is no longer than its source. -/
theorem length_le (h : StoredAs env format entry_name stream len enc stored) :
    stored.length ≤ len := by
  obtain ⟨src, hsrc, ⟨-, rfl⟩ | ⟨-, hform⟩⟩ := h.bytes
  · exact (readExact_eq_some.mp hsrc).2.le
  · have := (pak_stored_form_some hform).2.1
    rw [(readExact_eq_some.mp hsrc).2] at this
    omega

/-- The size an add computes is that of the stored form. -/
theorem physical_size (h : StoredAs env format entry_name stream len enc stored)
    (hlen : len ≤ UINT32_MAX) : (add_physical_size len enc).toNat = stored.length := by
  have hle := h.length_le
  obtain ⟨src, hsrc, ⟨rfl, rfl⟩ | ⟨rfl, hform⟩⟩ := h.bytes
  · rw [(readExact_eq_some.mp hsrc).2, add_physical_size, UInt32.toNat_ofNat',
      Nat.mod_eq_of_lt (by simp only [UINT32_MAX] at hlen; omega)]
  · rw [add_physical_size, UInt32.toNat_ofNat',
      Nat.mod_eq_of_lt (by simp only [UINT32_MAX] at hlen; omega)]

end StoredAs

/-- How an add of the first `len` bytes of `stream` under `entry_name` comes out when it
succeeds: with the payload staged, with its source path staged, or with the payload written at
`payload_end`. -/
inductive PakAdded (env : Env) (pak : Archive) (source_path : Option CStr) (entry_name : CStr)
    (stream : Bytes) (len : ℕ) : List (FileOp FileId) → Archive → Prop where
  | staged {enc : Option Bytes} {stored : Bytes} (hatomic : pak.atomic_commit = true)
      (hlen : len ≤ UINT32_MAX)
      (hstored : StoredAs env pak.format entry_name stream len enc stored) :
      PakAdded env pak source_path entry_name stream len [] (pak_link_staged_entry pak
        { pak_new_entry entry_name 0 len enc with pending_data := some stored })
  | source (hatomic : pak.atomic_commit = true) (hpath : source_path.isSome = true)
      (hlen : len ≤ UINT32_MAX) (hcap : CaptureOf env pak.format entry_name stream len .none) :
      PakAdded env pak source_path entry_name stream len [] (pak_link_staged_entry pak
        { pak_new_entry entry_name 0 len none with
          crc32 := crc32_of stream, pending_source := source_path })
  | appended {enc : Option Bytes} {stored : Bytes} {log : List (FileOp FileId)}
      (hlen : len ≤ UINT32_MAX)
      (hstored : StoredAs env pak.format entry_name stream len enc stored)
      (hfit : pak.payload_end + stored.length ≤ UINT32_MAX)
      (hlog : WritesAt .live pak.payload_end stored log) :
      PakAdded env pak source_path entry_name stream len log (pak_link_appended_entry pak
        (pak_new_entry entry_name pak.payload_end len enc) pak.payload_end
        (add_physical_size len enc))

theorem pak_stage_file_ok {env : Env} {pak pak' : Archive} {source_path entry_name : CStr}
    {stream : Bytes} {len : ℕ} {cap : Captured} (hatomic : pak.atomic_commit = true)
    (hlen : len ≤ UINT32_MAX) (hcap : CaptureOf env pak.format entry_name stream len cap)
    (h : (pak_stage_file env pak source_path entry_name stream len cap).res = .ok pak') :
    PakAdded env pak (some source_path) entry_name stream len [] pak' := by
  simp only [pak_stage_file, bind_res_ok, call_res_ok, exists_const] at h
  obtain ⟨-, h⟩ := h
  cases cap with
  | encoded enc =>
    simp only [pure_res, Except.ok.injEq] at h
    exact h ▸ PakAdded.staged hatomic hlen (StoredAs.of_encoded hcap)
  | raw src =>
    simp only [pure_res, Except.ok.injEq] at h
    exact h ▸ PakAdded.staged hatomic hlen (StoredAs.of_plain hcap rfl (hcap.raw src rfl))
  | none =>
    simp only at h
    split_ifs at h
    · cases h
    · simp only [bind_res_ok, call_res_ok, exists_const, pure_res, Except.ok.injEq] at h
      exact h.2 ▸ PakAdded.source hatomic rfl hlen hcap

theorem pak_stage_memory_ok {env : Env} {pak pak' : Archive} {entry_name : CStr} {data : Bytes}
    {cap : Captured} (hatomic : pak.atomic_commit = true) (hlen : data.length ≤ UINT32_MAX)
    (hcap : CaptureOf env pak.format entry_name data data.length cap)
    (h : (pak_stage_memory env pak entry_name data cap).res = .ok pak') :
    PakAdded env pak none entry_name data data.length [] pak' := by
  have hsrc : readExact data 0 data.length = some data := by
    rw [readExact_of_le (by omega), slice_full]
  simp only [pak_stage_memory, bind_res_ok, call_res_ok, exists_const] at h
  obtain ⟨-, h⟩ := h
  have hplain : cap.enc_buf = none →
      PakAdded env pak none entry_name data data.length []
        (pak_link_staged_entry pak { pak_new_entry entry_name 0 data.length cap.enc_buf with
          pending_data := some data }) := by
    intro henc
    rw [henc]
    exact PakAdded.staged hatomic hlen (StoredAs.of_plain hcap henc hsrc)
  cases cap with
  | encoded enc =>
    simp only [pure_res, Except.ok.injEq] at h
    exact h ▸ PakAdded.staged hatomic hlen (StoredAs.of_encoded hcap)
  | raw src =>
    simp only [bind_res_ok, call_res_ok, exists_const, pure_res, Except.ok.injEq] at h
    exact h.2 ▸ hplain rfl
  | none =>
    simp only [bind_res_ok, call_res_ok, exists_const, pure_res, Except.ok.injEq] at h
    exact h.2 ▸ hplain rfl

/-- The payload write of `pakka_add_file`, when it succeeds. -/
theorem pak_write_file_payload_ok {env : Env} {format : Format} {entry_name : CStr}
    {stream : Bytes} {len off : ℕ} {cap : Captured} {u : Unit}
    (hcap : CaptureOf env format entry_name stream len cap)
    (h : (pak_write_file_payload env stream len off cap).res = .ok u) :
    ∃ stored, StoredAs env format entry_name stream len cap.enc_buf stored ∧
      WritesAt .live off stored (pak_write_file_payload env stream len off cap).log := by
  cases cap with
  | encoded enc =>
    simp only [pak_write_file_payload, writeAt_res_ok] at h ⊢
    refine ⟨enc, StoredAs.of_encoded hcap, ?_⟩
    rw [writeAt_log_of_ok h]
    exact WritesAt.single _ _ _
  | raw src =>
    simp only [pak_write_file_payload, writeAt_res_ok] at h ⊢
    refine ⟨src, StoredAs.of_plain hcap rfl (hcap.raw src rfl), ?_⟩
    rw [writeAt_log_of_ok h]
    exact WritesAt.single _ _ _
  | none =>
    simp only [pak_write_file_payload] at h ⊢
    by_cases h0 : len = 0
    · rw [if_pos h0]
      exact ⟨[], StoredAs.of_plain hcap rfl (by rw [h0]; rfl), WritesAt.nil _ _⟩
    · rw [if_neg h0] at h ⊢
      simp only [bind_res_ok, call_res_ok, exists_const, pure_res] at h
      obtain ⟨hbuf, bs, hbs, -⟩ := h
      obtain ⟨hread, hlog⟩ := copyChunks_ok (by decide) len hbs
      refine ⟨bs, StoredAs.of_plain hcap rfl hread, ?_⟩
      rw [bind_log_of_ok ((call_res_ok _ _ _ ()).mpr hbuf), bind_log_of_ok hbs, call_log, pure_log,
        List.nil_append, List.append_nil]
      exact hlog

/-- The payload write of `pakka_add_memory`, when it succeeds. -/
theorem pak_write_memory_payload_ok {env : Env} {format : Format} {entry_name : CStr}
    {data : Bytes} {off : ℕ} {cap : Captured} {u : Unit}
    (hcap : CaptureOf env format entry_name data data.length cap)
    (h : (pak_write_memory_payload env data off cap).res = .ok u) :
    ∃ stored, StoredAs env format entry_name data data.length cap.enc_buf stored ∧
      WritesAt .live off stored (pak_write_memory_payload env data off cap).log := by
  have hplain : cap.enc_buf = none →
      StoredAs env format entry_name data data.length cap.enc_buf data := by
    intro henc
    rw [henc]
    exact StoredAs.of_plain hcap henc (by rw [readExact_of_le (by omega), slice_full])
  have hwrite : ∀ u, (if data.length > 0 then writeAt env.faults (.write 0 0) .live off data .io
      else pure () : Op Unit).res = .ok u →
      WritesAt .live off data (if data.length > 0 then
        writeAt env.faults (.write 0 0) .live off data .io else pure () : Op Unit).log := by
    intro u hu
    by_cases h0 : data.length > 0
    · rw [if_pos h0] at hu ⊢
      rw [writeAt_log_of_ok ((writeAt_res_ok _ _ _ _ _ _ _).mp hu)]
      exact WritesAt.single _ _ _
    · rw [if_neg h0, List.length_eq_zero_iff.mp (by omega : data.length = 0)]
      exact WritesAt.nil _ _
  cases cap with
  | encoded enc =>
    simp only [pak_write_memory_payload, writeAt_res_ok] at h ⊢
    refine ⟨enc, StoredAs.of_encoded hcap, ?_⟩
    rw [writeAt_log_of_ok h]
    exact WritesAt.single _ _ _
  | raw src => exact ⟨data, hplain rfl, hwrite u h⟩
  | none => exact ⟨data, hplain rfl, hwrite u h⟩

theorem pak_append_file_ok {env : Env} {pak pak' : Archive} {source_path entry_name : CStr}
    {stream : Bytes} {len : ℕ} {cap : Captured} (hlen : len ≤ UINT32_MAX)
    (hcap : CaptureOf env pak.format entry_name stream len cap)
    (h : (pak_append_file env pak entry_name stream len cap).res = .ok pak') :
    PakAdded env pak (some source_path) entry_name stream len
      (pak_append_file env pak entry_name stream len cap).log pak' := by
  unfold pak_append_file at h ⊢
  simp only at h ⊢
  by_cases hfit : pak.payload_end > UINT32_MAX - (add_physical_size len cap.enc_buf).toNat
  · rw [if_pos hfit] at h
    cases h
  rw [if_neg hfit] at h ⊢
  simp only [bind_res_ok, call_res_ok, exists_const, pure_res, Except.ok.injEq] at h
  obtain ⟨h1, h2, u, hw, rfl⟩ := h
  obtain ⟨stored, hst, hlog⟩ := pak_write_file_payload_ok hcap hw
  have hsize := hst.physical_size hlen
  have hle := hst.length_le
  rw [bind_log_of_ok ((call_res_ok _ _ _ ()).mpr h1),
    bind_log_of_ok ((call_res_ok _ _ _ ()).mpr h2), bind_log_of_ok hw, call_log, call_log, pure_log,
    List.nil_append, List.nil_append, List.append_nil]
  exact PakAdded.appended hlen hst (by omega) hlog

theorem pak_append_memory_ok {env : Env} {pak pak' : Archive} {entry_name : CStr}
    {data : Bytes} {cap : Captured} (hlen : data.length ≤ UINT32_MAX)
    (hcap : CaptureOf env pak.format entry_name data data.length cap)
    (h : (pak_append_memory env pak entry_name data cap).res = .ok pak') :
    PakAdded env pak none entry_name data data.length
      (pak_append_memory env pak entry_name data cap).log pak' := by
  unfold pak_append_memory at h ⊢
  simp only at h ⊢
  by_cases hfit : pak.payload_end > UINT32_MAX - (add_physical_size data.length cap.enc_buf).toNat
  · rw [if_pos hfit] at h
    cases h
  rw [if_neg hfit] at h ⊢
  simp only [bind_res_ok, call_res_ok, exists_const, pure_res, Except.ok.injEq] at h
  obtain ⟨h1, h2, u, hw, rfl⟩ := h
  obtain ⟨stored, hst, hlog⟩ := pak_write_memory_payload_ok hcap hw
  have hsize := hst.physical_size hlen
  have hle := hst.length_le
  rw [bind_log_of_ok ((call_res_ok _ _ _ ()).mpr h1),
    bind_log_of_ok ((call_res_ok _ _ _ ()).mpr h2), bind_log_of_ok hw, call_log, call_log, pure_log,
    List.nil_append, List.nil_append, List.append_nil]
  exact PakAdded.appended hlen hst (by omega) hlog

/-- **An add from a file that succeeds.** -/
theorem pak_add_file_ok {env : Env} {pak pak' : Archive} {source_path entry_name : CStr}
    (h : (pak_add_file env pak source_path entry_name).res = .ok pak') :
    ∃ stream len, (env.view 0 source_path).stream = some stream ∧
      (env.view 0 source_path).filesize = some len ∧
      PakAdded env pak (some source_path) entry_name stream len
        (pak_add_file env pak source_path entry_name).log pak' := by
  unfold pak_add_file at h ⊢
  simp only [bind_res_ok, ofOption_res_ok] at h
  obtain ⟨stream, hs, len, hl, h⟩ := h
  refine ⟨stream, len, hs, hl, ?_⟩
  rw [bind_log_of_ok ((ofOption_res_ok _ _ _).mpr hs),
    bind_log_of_ok ((ofOption_res_ok _ _ _).mpr hl), ofOption_log, ofOption_log, List.nil_append,
    List.nil_append]
  by_cases hlen : len > UINT32_MAX
  · rw [if_pos hlen] at h
    cases h
  rw [if_neg hlen] at h ⊢
  simp only [bind_res_ok, ofExcept_res] at h
  obtain ⟨cap, hcap, h⟩ := h
  rw [bind_log_of_ok (by rw [ofExcept_res]; exact hcap), ofExcept_log, List.nil_append]
  have hof := dk_capture_source_of hcap
  by_cases ha : pak.atomic_commit = true
  · rw [if_pos ha] at h ⊢
    rw [pak_stage_file_log]
    exact pak_stage_file_ok ha (Nat.not_lt.mp hlen) hof h
  · rw [if_neg ha] at h ⊢
    exact pak_append_file_ok (Nat.not_lt.mp hlen) hof h

/-- **An add from memory that succeeds.** -/
theorem pak_add_memory_ok {env : Env} {pak pak' : Archive} {entry_name : CStr} {data : Bytes}
    (h : (pak_add_memory env pak entry_name data).res = .ok pak') :
    PakAdded env pak none entry_name data data.length
      (pak_add_memory env pak entry_name data).log pak' := by
  unfold pak_add_memory at h ⊢
  by_cases hlen : data.length > UINT32_MAX
  · rw [if_pos hlen] at h
    cases h
  rw [if_neg hlen] at h ⊢
  have hof := dk_capture_memory_of env pak.format entry_name data
  simp only at h ⊢
  by_cases ha : pak.atomic_commit = true
  · rw [if_pos ha] at h ⊢
    rw [pak_stage_memory_log]
    exact pak_stage_memory_ok ha (Nat.not_lt.mp hlen) hof h
  · rw [if_neg ha] at h ⊢
    exact pak_append_memory_ok (Nat.not_lt.mp hlen) hof h

/-! ## What a call that succeeds does

One constructor for each way to change the list.
-/

/-- The handle without the entry at a position. -/
def without_entry (pak : Archive) (i : ℕ) : Archive :=
  { pak with
    entries := pak.entries.eraseIdx i
    tail := tail_after_unlink pak.tail i
    num_entries := pak.num_entries - 1
    dirty := true
    needs_rebuild := true }

/-- The handle with another name at a position. -/
def with_name (pak : Archive) (i : ℕ) (new_name : CStr) : Archive :=
  { pak with
    entries := pak.entries.modify i fun e => { e with filename := new_name }
    dirty := true
    needs_rebuild := pak.needs_rebuild || pakka_format_is_zip pak.format }

/-- The node a copy links: what is staged is staged again, what is on disk is shared. -/
def copied_entry (src : Entry) (dst_name : CStr) : Entry :=
  if src.staged then
    { src with
      filename := dst_name
      pending_source := if src.pending_data.isSome then none else src.pending_source
      offset := 0 }
  else { src with filename := dst_name }

/-- What the mutators that take a name of an existing entry do. -/
inductive NameEffect (pak : Archive) : Call → Archive → Prop where
  | delete {name : CStr} {i : ℕ} (h : find_entry_index pak.entries name = some i) :
      NameEffect pak (.delete name) (without_entry pak i)
  | same {name : CStr} {e : Entry} (h : find_entry pak.entries name = some e) :
      NameEffect pak (.rename name name) pak
  | rename {old_name new_name : CStr} {i : ℕ}
      (h : find_entry_index pak.entries old_name = some i)
      (hname : pak_add_preflight pak new_name = .ok ()) :
      NameEffect pak (.rename old_name new_name) (with_name pak i new_name)
  | copy {src_name dst_name : CStr} {src : Entry} (h : find_entry pak.entries src_name = some src)
      (hname : pak_add_preflight pak dst_name = .ok ()) :
      NameEffect pak (.copy src_name dst_name) (pak_link_copy_entry pak
        (copied_entry src dst_name) (src.staged || pakka_format_is_zip pak.format))
  | set_compression {method : UInt16} :
      NameEffect pak (.set_compression method) { pak with pk3_compression := method }

theorem pakka_delete_ok {pak pak' : Archive} {name : CStr}
    (h : (pakka_delete pak name).res = .ok pak') : NameEffect pak (.delete name) pak' := by
  unfold pakka_delete at h
  split_ifs at h
  · cases h
  simp only [bind_res_ok, ofOption_res_ok, pure_res, Except.ok.injEq] at h
  obtain ⟨i, hi, rfl⟩ := h
  exact NameEffect.delete hi

theorem pakka_rename_ok {pak pak' : Archive} {old_name new_name : CStr}
    (h : (pakka_rename pak old_name new_name).res = .ok pak') :
    NameEffect pak (.rename old_name new_name) pak' := by
  unfold pakka_rename at h
  split_ifs at h with h1 h2
  · cases h
  · subst h2
    simp only [bind_res_ok, ofOption_res_ok, pure_res, Except.ok.injEq] at h
    obtain ⟨e, he, rfl⟩ := h
    exact NameEffect.same he
  · simp only [bind_res_ok, ofOption_res_ok, ofExcept_res, pure_res, Except.ok.injEq] at h
    obtain ⟨i, hi, u, hname, rfl⟩ := h
    exact NameEffect.rename hi hname

theorem pakka_copy_ok {env : Env} {pak pak' : Archive} {src_name dst_name : CStr}
    (h : (pakka_copy env pak src_name dst_name).res = .ok pak') :
    NameEffect pak (.copy src_name dst_name) pak' := by
  unfold pakka_copy at h
  split_ifs at h
  · cases h
  simp only [bind_res_ok, ofOption_res_ok, ofExcept_res, call_res_ok, exists_const] at h
  obtain ⟨src, hsrc, u, hname, -, h⟩ := h
  have hcopy := NameEffect.copy hsrc hname
  rw [copied_entry, Entry.staged] at hcopy
  cases hd : src.pending_data with
  | some data =>
    rw [hd] at h hcopy
    simp only [bind_res_ok, call_res_ok, exists_const, pure_res, Except.ok.injEq] at h
    simpa [← h.2] using hcopy
  | none =>
    cases hs : src.pending_source with
    | some path =>
      rw [hd, hs] at h hcopy
      simp only [bind_res_ok, call_res_ok, exists_const, pure_res, Except.ok.injEq] at h
      simpa [← h.2] using hcopy
    | none =>
      rw [hd, hs] at h hcopy
      simp only [pure_res, Except.ok.injEq] at h
      rw [if_neg (by simp)] at hcopy
      obtain ⟨⟩ := src
      simp only at hd hs
      subst hd hs
      exact h ▸ hcopy

theorem pakka_set_compression_ok {pak pak' : Archive} {method : UInt16}
    (h : (pakka_set_compression pak method).res = .ok pak') :
    NameEffect pak (.set_compression method) pak' := by
  unfold pakka_set_compression at h
  split_ifs at h
  · cases h
  · cases h
  · rw [pure_res, Except.ok.injEq] at h
    exact h ▸ NameEffect.set_compression
  · cases h

/-- What a call but a commit that succeeds does on a PAK-class archive. -/
inductive PakEffect (env : Env) (pak : Archive) :
    Call → List (FileOp FileId) → Archive → Prop where
  | add_file {source_path entry_name : CStr} {stream : Bytes} {len : ℕ}
      {log : List (FileOp FileId)} {pak' : Archive}
      (hname : pak_add_preflight pak entry_name = .ok ())
      (hstream : (env.view 0 source_path).stream = some stream)
      (hlen : (env.view 0 source_path).filesize = some len)
      (h : PakAdded env pak (some source_path) entry_name stream len log pak') :
      PakEffect env pak (.add_file source_path entry_name) log pak'
  | add_memory {entry_name : CStr} {data : Bytes} {log : List (FileOp FileId)} {pak' : Archive}
      (hname : pak_add_preflight pak entry_name = .ok ())
      (h : PakAdded env pak none entry_name data data.length log pak') :
      PakEffect env pak (.add_memory entry_name data) log pak'
  | name {c : Call} {pak' : Archive} (h : NameEffect pak c pak') : PakEffect env pak c [] pak'

/-! ## Failures are reported

A call that fails says so: no error path returns `PAKKA_OK`. This is needed wherever a result is
read off a status.
-/

/-- A status that reports a failure. -/
def IsError (s : Status) : Prop := s ≠ .ok

/-- A computation never fails with the status of success. -/
abbrev Reports {α : Type} (x : Op α) : Prop := FailsWith IsError x

theorem io_isError : IsError .io := by simp [IsError]

theorem nomem_isError : IsError .nomem := by simp [IsError]

theorem limit_isError : IsError .limit := by simp [IsError]

theorem invalid_argument_isError : IsError .invalid_argument := by simp [IsError]

theorem not_found_isError : IsError .not_found := by simp [IsError]

theorem pak_add_preflight_error {pak : Archive} {name : CStr} {s : Status}
    (h : pak_add_preflight pak name = .error s) : IsError s := by
  unfold pak_add_preflight at h
  split_ifs at h <;> rw [← Except.error.inj h] <;> simp [IsError]

theorem check_source_error {v : SourceView} {s : Status} (h : check_source v = .error s) :
    IsError s := by
  unfold check_source at h
  split at h
  · simp [← Except.error.inj h, IsError]
  · split at h
    · simp [← Except.error.inj h, IsError]
    · split_ifs at h
      simp [← Except.error.inj h, IsError]

theorem dk_capture_source_error {env : Env} {stream : Bytes} {len : ℕ} {s : Status}
    (h : dk_capture_source env stream len = .error s) : IsError s := by
  unfold dk_capture_source at h
  split_ifs at h
  cases hr : readExact stream 0 len with
  | none =>
    rw [hr] at h
    exact Except.error.inj h ▸ io_isError
  | some src =>
    rw [hr] at h
    change (match dk_encode env src with
      | some enc => pure (Captured.encoded enc)
      | none => pure (Captured.raw src)) = _ at h
    cases he : dk_encode env src with
    | none =>
      rw [he] at h
      cases h
    | some enc =>
      rw [he] at h
      cases h

theorem reports_pak_add_file (env : Env) (pak : Archive) (source_path entry_name : CStr) :
    Reports (pak_add_file env pak source_path entry_name) := by
  unfold pak_add_file
  refine (failsWith_ofOption io_isError).bind fun stream =>
    (failsWith_ofOption io_isError).bind fun len => ?_
  refine FailsWith.ite (failsWith_fail.mpr limit_isError) (FailsWith.bind ?_ fun cap => ?_)
  · refine failsWith_ofExcept fun s hs => ?_
    split_ifs at hs
    exact dk_capture_source_error hs
  refine FailsWith.ite ?_ ?_
  · refine (failsWith_call nomem_isError).bind fun _ => ?_
    cases cap with
    | encoded enc => exact failsWith_pure _
    | raw src => exact failsWith_pure _
    | none =>
      refine FailsWith.ite (failsWith_fail.mpr io_isError)
        ((failsWith_call nomem_isError).bind fun _ => ?_)
      exact failsWith_pure _
  · refine FailsWith.ite (failsWith_fail.mpr limit_isError)
      ((failsWith_call nomem_isError).bind fun _ => ?_)
    refine (failsWith_call io_isError).bind fun _ => FailsWith.bind ?_ fun _ => failsWith_pure _
    cases cap with
    | encoded enc => exact failsWith_writeAt io_isError
    | raw src => exact failsWith_writeAt io_isError
    | none =>
      refine FailsWith.ite (failsWith_pure _) ((failsWith_call nomem_isError).bind fun _ => ?_)
      exact (failsWith_copyChunks io_isError len).bind fun _ => failsWith_pure _

theorem reports_pak_add_memory (env : Env) (pak : Archive) (entry_name : CStr) (data : Bytes) :
    Reports (pak_add_memory env pak entry_name data) := by
  unfold pak_add_memory
  refine FailsWith.ite (failsWith_fail.mpr limit_isError) ?_
  simp only
  generalize (if dk_try_compress pak.format entry_name data.length then
    dk_capture_memory env data else Captured.none) = cap
  refine FailsWith.ite ?_ ?_
  · refine (failsWith_call nomem_isError).bind fun _ => ?_
    cases cap with
    | encoded enc => exact failsWith_pure _
    | _ => exact (failsWith_call nomem_isError).bind fun _ => failsWith_pure _
  · refine FailsWith.ite (failsWith_fail.mpr limit_isError)
      ((failsWith_call nomem_isError).bind fun _ => ?_)
    refine (failsWith_call io_isError).bind fun _ => FailsWith.bind ?_ fun _ => failsWith_pure _
    cases cap with
    | encoded enc => exact failsWith_writeAt io_isError
    | _ => exact FailsWith.ite (failsWith_writeAt io_isError) (failsWith_pure _)

/-- The mutators that take a name of an existing entry report their failures. -/
theorem reports_names (env : Env) (pak : Archive) (a b : CStr) (method : UInt16) :
    Reports (pakka_delete pak a) ∧ Reports (pakka_rename pak a b) ∧
      Reports (pakka_copy env pak a b) ∧ Reports (pakka_set_compression pak method) := by
  have hpre : ∀ name, Reports (ofExcept (pak_add_preflight pak name) : Op Unit) := fun _ =>
    failsWith_ofExcept fun _ => pak_add_preflight_error
  refine ⟨?_, ?_, ?_, ?_⟩
  · refine FailsWith.ite (failsWith_fail.mpr invalid_argument_isError) ?_
    exact (failsWith_ofOption not_found_isError).bind fun _ => failsWith_pure _
  · refine FailsWith.ite (failsWith_fail.mpr invalid_argument_isError) (FailsWith.ite ?_ ?_)
    · exact (failsWith_ofOption not_found_isError).bind fun _ => failsWith_pure _
    · exact (failsWith_ofOption not_found_isError).bind fun _ =>
        (hpre b).bind fun _ => failsWith_pure _
  · refine FailsWith.ite (failsWith_fail.mpr invalid_argument_isError)
      ((failsWith_ofOption not_found_isError).bind fun src => ?_)
    refine (hpre b).bind fun _ => (failsWith_call nomem_isError).bind fun _ => ?_
    simp only
    split
    · exact (failsWith_call nomem_isError).bind fun _ => failsWith_pure _
    · exact (failsWith_call nomem_isError).bind fun _ => failsWith_pure _
    · exact failsWith_pure _
  · refine FailsWith.ite (failsWith_fail.mpr invalid_argument_isError)
      (FailsWith.ite (failsWith_fail.mpr invalid_argument_isError) ?_)
    exact FailsWith.ite (failsWith_fail.mpr invalid_argument_isError) (failsWith_pure _)

/-- A call that reports its failures succeeded when its status says so. -/
theorem ofOp_ok {pak : Archive} {x : Op Archive} (hx : Reports x)
    (h : (Step.ofOp pak x).status = .ok) :
    x.res = .ok (Step.ofOp pak x).pak ∧ (Step.ofOp pak x).log = x.log := by
  unfold Step.ofOp Step.of mapError at h ⊢
  cases hr : x.res with
  | ok pak' => simp [Except.mapError]
  | error s =>
    rw [hr] at h
    simp only [Except.mapError] at h
    exact absurd h (hx s hr)

/-- **What a call but a commit that succeeds does** on a PAK-class archive. -/
theorem pak_call_ok {df : Deflate} {env : Env} {disk : Bytes} {pak : Archive} {c : Call}
    (hz : pakka_format_is_zip pak.format = false) (hc : c ≠ .commit)
    (h : (pakka_call df env disk pak c).status = .ok) :
    PakEffect env pak c (pakka_call df env disk pak c).log (pakka_call df env disk pak c).pak := by
  have hpre : ∀ name, Reports (ofExcept (pak_add_preflight pak name) : Op Unit) := fun _ =>
    failsWith_ofExcept fun _ => pak_add_preflight_error
  cases c with
  | commit => exact absurd rfl hc
  | add_file source_path entry_name =>
    have hrep : Reports (pakka_add_file df env pak source_path entry_name) := by
      refine FailsWith.ite (failsWith_fail.mpr invalid_argument_isError) ((hpre _).bind fun _ => ?_)
      refine (failsWith_ofExcept fun _ => check_source_error).bind fun _ => ?_
      rw [hz, if_neg (by simp)]
      exact reports_pak_add_file env pak source_path entry_name
    obtain ⟨hres, hlog⟩ := ofOp_ok hrep h
    rw [pakka_call, hlog]
    unfold pakka_add_file at hres ⊢
    by_cases hw : ¬ pak.writable ∨ ¬ pak.fp
    · rw [if_pos hw] at hres
      cases hres
    rw [if_neg hw] at hres ⊢
    simp only [bind_res_ok, ofExcept_res] at hres
    obtain ⟨u, hname, n, hsrc, hres⟩ := hres
    rw [bind_log_of_ok (by rw [ofExcept_res]; exact hname),
      bind_log_of_ok (by rw [ofExcept_res]; exact hsrc), ofExcept_log, ofExcept_log, hz,
      if_neg (by simp), List.nil_append, List.nil_append]
    rw [hz, if_neg (by simp)] at hres
    obtain ⟨stream, len, hs, hl, hadd⟩ := pak_add_file_ok hres
    exact PakEffect.add_file hname hs hl hadd
  | add_memory entry_name data =>
    have hrep : Reports (pakka_add_memory df env pak entry_name data) := by
      refine FailsWith.ite (failsWith_fail.mpr invalid_argument_isError) ((hpre _).bind fun _ => ?_)
      rw [hz, if_neg (by simp)]
      exact reports_pak_add_memory env pak entry_name data
    obtain ⟨hres, hlog⟩ := ofOp_ok hrep h
    rw [pakka_call, hlog]
    unfold pakka_add_memory at hres ⊢
    by_cases hw : ¬ pak.writable ∨ ¬ pak.fp
    · rw [if_pos hw] at hres
      cases hres
    rw [if_neg hw] at hres ⊢
    simp only [bind_res_ok, ofExcept_res] at hres
    obtain ⟨u, hname, hres⟩ := hres
    rw [bind_log_of_ok (by rw [ofExcept_res]; exact hname), ofExcept_log, hz, if_neg (by simp),
      List.nil_append]
    rw [hz, if_neg (by simp)] at hres
    exact PakEffect.add_memory hname (pak_add_memory_ok hres)
  | delete name =>
    obtain ⟨hres, hlog⟩ := ofOp_ok (reports_names env pak name name 0).1 h
    rw [pakka_call, hlog, pakka_delete_log]
    exact PakEffect.name (pakka_delete_ok hres)
  | rename old_name new_name =>
    obtain ⟨hres, hlog⟩ := ofOp_ok (reports_names env pak old_name new_name 0).2.1 h
    rw [pakka_call, hlog, pakka_rename_log]
    exact PakEffect.name (pakka_rename_ok hres)
  | copy src_name dst_name =>
    obtain ⟨hres, hlog⟩ := ofOp_ok (reports_names env pak src_name dst_name 0).2.2.1 h
    rw [pakka_call, hlog, pakka_copy_log]
    exact PakEffect.name (pakka_copy_ok hres)
  | set_compression method =>
    obtain ⟨hres, hlog⟩ := ofOp_ok (reports_names env pak CStr.empty CStr.empty method).2.2.2 h
    rw [pakka_call, hlog, pakka_set_compression_log]
    exact PakEffect.name (pakka_set_compression_ok hres)

end Pakka
