/-
The decompression cap, on every path to the bytes of an entry.

The cap bounds what a codec may be made to produce. The check is made in five places, next to early
returns for empty payloads: opening by handle, opening by name, reading whole, and the two deep
checks of `pakka_verify`. A claim about all of them cannot be read off results alone. Results do not
tell one `PAKKA_ERR_LIMIT` from another, nor whether something was decoded before it.

So the paths are written out again here with two events, one where a codec is run and one where the
cap refuses. Erasing the events gives the functions of before, by a theorem for each of them
(`*_res`), so the paths with events are the code's own. What is proved of them is then: an entry
over the cap is refused, and nothing is decoded before it; an entry within the cap, or one that the
cap is not for, is never refused by it.

The paths rely on the entry being in order, which every reached handle provides; that the payload
lies in the file matters, because an earlier error would hide the refusal.
-/
import Pakka.Lib.Traced
import Pakka.EntryContent

set_option autoImplicit false

namespace Pakka

open ByteImage Traced

/-- What is watched. -/
inductive CapEvent where
  | inflate
  | over_cap
  deriving DecidableEq, Repr

/-- A path that is watched. -/
abbrev Watched := Traced CapEvent Status

/-- The refusal. -/
def refuse {α : Type} : Watched α := do
  note .over_cap
  fail .limit

/-! ## The paths

One definition for each routine of the source that leads to the bytes of an entry, with the same
branches in the same order. Only the two events are new.
-/

namespace Watched

/-- `pakka_dk_inflate`. -/
def pakka_dk_inflate (inp : Bytes) (out_len : ℕ) : Watched Bytes := do
  note .inflate
  lift (Pakka.pakka_dk_inflate inp out_len)

/-- The DEFLATE payload of a ZIP entry, decoded and checked against both sizes. -/
def pk3_inflate_checked (df : Deflate) (compressed : Bytes) (length csize : ℕ) : Watched Bytes := do
  note .inflate
  lift (Pakka.pk3_inflate_checked df compressed length csize)

/-- `pak_open_pending_reader`. -/
def pak_open_pending_reader (sources : CStr → SourceView) (pak : Archive) (r : Reader) (e : Entry) :
    Watched Reader :=
  let extent := pak_entry_on_disk_extent e
  if extent = 0 then pure { r with remaining := 0 }
  else do
    let buf ← lift (read_pending sources e extent.toNat)
    if e.dk_is_compressed then
      if exceeds_cap pak.max_decompressed e.length extent then refuse
      else if e.length = 0 then pure { r with remaining := 0 }
      else do
        let out ← pakka_dk_inflate buf e.length.toNat
        pure { r with inflated_buf := some out, inflated_len := e.length.toNat }
    else pure { r with inflated_buf := some buf, inflated_len := extent.toNat }

/-- `pakka_pk3_open_entry_impl`. -/
def pakka_pk3_open_entry_impl (df : Deflate) (sources : CStr → SourceView) (disk : Bytes)
    (pak : Archive) (e : Entry) : Watched Reader :=
  let r : Reader := { next_offset := e.pk3_payload_offset.toNat, remaining := e.length.toNat }
  let csize := e.pk3_compressed_size
  if exceeds_cap pak.max_decompressed e.length csize then refuse
  else if e.staged then
    if csize = 0 then pure { r with remaining := 0 }
    else do
      let buf ← lift (read_pending sources e csize.toNat)
      if e.pk3_method = PK3_METHOD_DEFLATE then do
        let out ← pk3_inflate_checked df buf e.length.toNat csize.toNat
        if e.length = 0 then pure r
        else pure { r with inflated_buf := some out, inflated_len := e.length.toNat }
      else pure { r with inflated_buf := some buf, inflated_len := csize.toNat }
  else if e.pk3_method = PK3_METHOD_STORED then pure r
  else if csize = 0 then fail .format
  else do
    let compressed ← lift (orError (readExact disk e.pk3_payload_offset.toNat csize.toNat) .io)
    let out ← pk3_inflate_checked df compressed e.length.toNat csize.toNat
    if e.length = 0 then pure r
    else pure { r with inflated_buf := some out, inflated_len := e.length.toNat }

/-- `pakka_open_entry_handle`. -/
def pakka_open_entry_handle (df : Deflate) (sources : CStr → SourceView) (disk : Bytes)
    (pak : Archive) (e : Entry) : Watched Reader :=
  let r : Reader := { next_offset := e.offset.toNat, remaining := e.length.toNat }
  if ¬ pak.fp then fail .invalid_argument
  else if pakka_format_is_zip pak.format then
    pakka_pk3_open_entry_impl df sources disk pak e
  else if e.staged then pak_open_pending_reader sources pak r e
  else if pak.format = .daikatana ∧ e.dk_is_compressed then
    if exceeds_cap pak.max_decompressed e.length e.dk_compressed_size then refuse
    else do
      let compressed ← lift (orError
        (readExact disk e.offset.toNat e.dk_compressed_size.toNat) .io)
      let out ← pakka_dk_inflate compressed e.length.toNat
      if e.length = 0 then pure r
      else pure { r with inflated_buf := some out, inflated_len := e.length.toNat }
  else pure r

/-- `pakka_open_entry`. -/
def pakka_open_entry (df : Deflate) (sources : CStr → SourceView) (disk : Bytes) (pak : Archive)
    (entry_name : CStr) : Watched Reader :=
  if ¬ pak.fp then fail .invalid_argument
  else do
    let e ← lift (orError (find_entry pak.entries entry_name) .not_found)
    pakka_open_entry_handle df sources disk pak e

/-- The read loop of `pakka_read_entry_alloc`, with `missing` bytes still to come. -/
def read_entry_loop (disk : Bytes) (pak : Archive) (r : Reader) (missing : ℕ) :
    Except Status Bytes :=
  if missing = 0 then .ok []
  else
    match pakka_reader_read disk pak r missing with
    | ⟨.ok, _, []⟩ => .error .io
    | ⟨.ok, r, b :: bytes⟩ => do
      let rest ← read_entry_loop disk pak r (missing - (b :: bytes).length)
      pure (b :: bytes ++ rest)
    | ⟨s, _, _⟩ => .error s
  termination_by missing
  decreasing_by
    simp only [List.length_cons]
    omega

/-- `pakka_read_entry_alloc`: the bytes it allocates, none for an empty entry. -/
def pakka_read_entry_alloc (df : Deflate) (sources : CStr → SourceView) (disk : Bytes)
    (pak : Archive) (entry_name : CStr) : Watched Bytes := do
  let e ← lift (orError (find_entry pak.entries entry_name) .not_found)
  let total := e.length.toNat
  if total = 0 then do
    let _ ← pakka_open_entry_handle df sources disk pak e
    pure []
  else if (pakka_format_is_zip pak.format ∨ (pak.format = .daikatana ∧ e.dk_is_compressed)) ∧
      pak.max_decompressed > 0 ∧ total > pak.max_decompressed then refuse
  else do
    let r ← pakka_open_entry_handle df sources disk pak e
    lift (read_entry_loop disk pak r total)

/-- `pakka_pk3_deep_verify_entry`. -/
def pakka_pk3_deep_verify_entry (df : Deflate) (disk : Bytes) (pak : Archive) (e : Entry) :
    Watched Unit :=
  if e.staged then pure ()
  else if exceeds_cap pak.max_decompressed e.length e.pk3_compressed_size then refuse
  else if e.length = 0 ∧ e.pk3_compressed_size = 0 then
    if e.crc32 ≠ 0 then fail .format else pure ()
  else do
    let compressed ← lift (orError
      (readExact disk e.pk3_payload_offset.toNat e.pk3_compressed_size.toNat) .io)
    if e.pk3_method = PK3_METHOD_STORED then
      if crc32_of compressed ≠ e.crc32 then fail .format else pure ()
    else if e.length = 0 then do
      let _ ← pk3_inflate_checked df compressed 0 e.pk3_compressed_size.toNat
      if e.crc32 = 0 then pure () else fail .format
    else do
      let inflated ← pk3_inflate_checked df compressed e.length.toNat e.pk3_compressed_size.toNat
      if crc32_of inflated ≠ e.crc32 then fail .format else pure ()

/-- The decode of a compressed Daikatana entry. -/
def dk_deep_verify_entry (disk : Bytes) (pak : Archive) (e : Entry) : Watched Unit :=
  if exceeds_cap pak.max_decompressed e.length e.dk_compressed_size then refuse
  else do
    let cbuf ← lift (orError (readExact disk e.offset.toNat e.dk_compressed_size.toNat) .io)
    let _ ← pakka_dk_inflate cbuf e.length.toNat
    pure ()

/-- The part of `verify_entry` behind the deep flag. -/
def deep_verify_entry (df : Deflate) (disk : Bytes) (pak : Archive) (e : Entry) : Watched Unit :=
  if pakka_format_is_zip pak.format then pakka_pk3_deep_verify_entry df disk pak e
  else if pak.format = .daikatana ∧ e.dk_is_compressed then dk_deep_verify_entry disk pak e
  else pure ()

/-- `verify_entry`: what is done for the entry, and what it reports. -/
def verify_entry (df : Deflate) (disk : Bytes) (pak : Archive) (deep : Bool) (e : Entry) :
    List CapEvent × Finding :=
  let extent := verify_extent pak.format e
  if pakka_unsafe_entry_name e.filename then ([], ⟨.error, .unsafe_name, e.filename⟩)
  else if e.staged then ([], ⟨.info, .ok, e.filename⟩)
  else if extent.2 = 0 ∧ e.length = 0 then ([], ⟨.info, .ok, e.filename⟩)
  else if ¬ verify_stream disk extent.1.toNat extent.2.toNat then
    ([], ⟨.error, .io, e.filename⟩)
  else if deep then
    match deep_verify_entry df disk pak e with
    | ⟨events, .error s⟩ => (events, ⟨.error, s, e.filename⟩)
    | ⟨events, .ok ()⟩ => (events, ⟨.info, .ok, e.filename⟩)
  else ([], ⟨.info, .ok, e.filename⟩)

/-! ## Erasing the events

`res` forgets the events. It is compatible with sequencing, so each of these lemmas follows the
definition step by step.
-/

@[simp] theorem refuse_res {α : Type} : (refuse : Watched α).res = .error .limit := rfl

@[simp] theorem refuse_events {α : Type} : (refuse : Watched α).events = [.over_cap] := rfl

@[simp] theorem pakka_dk_inflate_res (inp : Bytes) (out_len : ℕ) :
    (pakka_dk_inflate inp out_len).res = Pakka.pakka_dk_inflate inp out_len := rfl

@[simp] theorem pk3_inflate_checked_res (df : Deflate) (compressed : Bytes) (length csize : ℕ) :
    (pk3_inflate_checked df compressed length csize).res =
      Pakka.pk3_inflate_checked df compressed length csize := rfl

variable (df : Deflate) (sources : CStr → SourceView) (disk : Bytes) (pak : Archive) (r : Reader)
  (e : Entry)

@[simp] theorem pak_open_pending_reader_res :
    (pak_open_pending_reader sources pak r e).res =
      Pakka.pak_open_pending_reader sources pak r e := by
  unfold pak_open_pending_reader Pakka.pak_open_pending_reader
  simp only [apply_ite res, bind_res, pure_res, lift_res, refuse_res, pakka_dk_inflate_res]
  rfl

@[simp] theorem pakka_pk3_open_entry_impl_res :
    (pakka_pk3_open_entry_impl df sources disk pak e).res =
      Pakka.pakka_pk3_open_entry_impl df sources disk pak e := by
  unfold pakka_pk3_open_entry_impl Pakka.pakka_pk3_open_entry_impl
  simp only [apply_ite res, bind_res, pure_res, lift_res, fail_res, refuse_res,
    pk3_inflate_checked_res]
  rfl

@[simp] theorem pakka_open_entry_handle_res :
    (pakka_open_entry_handle df sources disk pak e).res =
      Pakka.pakka_open_entry_handle df sources disk pak e := by
  unfold pakka_open_entry_handle Pakka.pakka_open_entry_handle
  simp only [apply_ite res, bind_res, pure_res, lift_res, fail_res, refuse_res,
    pakka_dk_inflate_res, pak_open_pending_reader_res, pakka_pk3_open_entry_impl_res]
  rfl

@[simp] theorem deep_verify_entry_res :
    (deep_verify_entry df disk pak e).res = Pakka.deep_verify_entry df disk pak e := by
  unfold deep_verify_entry Pakka.deep_verify_entry pakka_pk3_deep_verify_entry
    Pakka.pakka_pk3_deep_verify_entry dk_deep_verify_entry Pakka.dk_deep_verify_entry
  simp only [apply_ite res, bind_res, pure_res, lift_res, fail_res, refuse_res,
    pakka_dk_inflate_res, pk3_inflate_checked_res]
  rfl

/-- The finding is that of `verify_entry`. -/
theorem verify_entry_finding (deep : Bool) :
    (verify_entry df disk pak deep e).2 = Pakka.verify_entry df disk pak deep e := by
  have hdeep := deep_verify_entry_res df disk pak e
  unfold verify_entry Pakka.verify_entry
  rw [← hdeep]
  rcases deep_verify_entry df disk pak e with ⟨events, _ | ⟨⟩⟩ <;>
    simp only [apply_ite Prod.snd]

end Watched

/-! ## Which entries are over the cap

The cap is for ZIP entries and for compressed Daikatana entries. It looks at the recorded length and
at the size of the compressed payload, and either may be over it.
-/

/-- The size of the payload of an entry that may be compressed. -/
def compressed_size (format : Format) (e : Entry) : UInt32 :=
  if pakka_format_is_zip format then e.pk3_compressed_size else e.dk_compressed_size

/-- The entries the cap is for: those of ZIP archives and the compressed ones. -/
def Capped (format : Format) (e : Entry) : Prop :=
  pakka_format_is_zip format = true ∨ e.dk_is_compressed = true

/-- The recorded length or the compressed size exceeds the cap. -/
def OverCap (cap : ℕ) (format : Format) (e : Entry) : Prop :=
  cap < e.length.toNat ∨ cap < (compressed_size format e).toNat

/-- Outside ZIP archives. -/
theorem Capped.compressed {format : Format} {e : Entry} (h : Capped format e)
    (hz : pakka_format_is_zip format = false) : e.dk_is_compressed = true := by
  rcases h with hx | hdk
  · rw [hz] at hx
    cases hx
  · exact hdk

theorem exceeds_cap_iff {cap : ℕ} (hcap : 0 < cap) {a b : UInt32} :
    exceeds_cap cap a b = true ↔ cap < a.toNat ∨ cap < b.toNat := by
  simp [exceeds_cap, hcap]

/-- What the paths rely on: an entry in order, in a handle whose file has `n` bytes. -/
inductive Framed (n : ℕ) (pak : Archive) (e : Entry) : Prop where
  | pak {geom : Geometry} (hg : pakka_pak_geometry pak.format = some geom)
      (hok : PakEntryOk pak geom e) (hin : pak.payload_end ≤ n) (hdec : BufferDecodes e) :
      Framed n pak e
  | zip (hz : pakka_format_is_zip pak.format = true) (hok : ZipEntryOk n e) : Framed n pak e

/-- The cap is not among the things relied on. -/
theorem Framed.set_cap {n : ℕ} {pak : Archive} {e : Entry} (h : Framed n pak e) (cap : ℕ) :
    Framed n (pakka_set_max_decompressed_size pak cap) e := by
  cases h with
  | pak hg hok hin hdec => exact .pak hg (hok.mono rfl (Nat.le_refl _)) hin hdec
  | zip hz hok => exact .zip hz hok

variable {df : Deflate} {sources : CStr → SourceView} {disk : Bytes} {pak : Archive} {e : Entry}
  {n cap : ℕ}

/-- A staged compressed entry has its buffer, and an empty buffer is the payload of an empty entry
only. -/
theorem staged_compressed {geom : Geometry} (hok : PakEntryOk pak geom e) (hdec : BufferDecodes e)
    (hs : e.staged = true) (hdk : e.dk_is_compressed = true) :
    e.pending_source = none ∧ (e.dk_compressed_size = 0 → e.length = 0) := by
  rcases staged_cases hok.one_stage hs with ⟨path, hp, -⟩ | ⟨data, hp, hd⟩
  · have hplain := hok.source (by rw [hp]; rfl)
    rw [hdk] at hplain
    cases hplain
  refine ⟨hp, fun h0 => ?_⟩
  have hsize := hok.data data hd
  rw [pak_entry_on_disk_extent, if_pos hdk, h0] at hsize
  obtain rfl := List.eq_nil_of_length_eq_zero hsize.symm
  obtain ⟨src, hsrc, hlen⟩ := hdec [] hd
  simp only [PakItem.content, hdk, if_true] at hsrc
  split at hsrc
  · rename_i out hout
    obtain rfl := Option.some.inj hsrc
    rw [pakka_dk_inflate_nil hout] at hlen
    exact toNat_eq_zero.mp hlen
  · cases hsrc

/-! ## Refusing

The check is not the first thing on any path, so each proof shows that what stands before it
succeeds for an entry in order.
-/

theorem bind_refuse {α β : Type} (k : α → Watched β) : (refuse : Watched α) >>= k = refuse := rfl

theorem lift_ok_bind {α β : Type} (a : α) (k : α → Watched β) :
    (lift (.ok a) : Watched α) >>= k = k a := rfl

/-- **Opening by handle** refuses what is over the cap. -/
theorem open_entry_handle_refuses (hfp : pak.fp = true) (hcap : 0 < pak.max_decompressed)
    (h : Framed n pak e) (hkind : Capped pak.format e)
    (hover : OverCap pak.max_decompressed pak.format e) :
    Watched.pakka_open_entry_handle df sources disk pak e = refuse := by
  unfold Watched.pakka_open_entry_handle
  rw [if_neg (by simp [hfp])]
  cases h with
  | zip hz hok =>
    unfold OverCap compressed_size at hover
    rw [if_pos hz, ← exceeds_cap_iff hcap] at hover
    rw [if_pos hz, Watched.pakka_pk3_open_entry_impl, if_pos hover]
  | pak hg hok hin hdec =>
    have hz := not_zip_of_geometry hg
    have hdk := hkind.compressed hz
    have hext : pak_entry_on_disk_extent e = e.dk_compressed_size := by
      rw [pak_entry_on_disk_extent, if_pos hdk]
    unfold OverCap compressed_size at hover
    rw [hz, if_neg (by simp)] at hover ⊢
    rw [← exceeds_cap_iff hcap] at hover
    by_cases hs : e.staged = true
    · obtain ⟨hp, hempty⟩ := staged_compressed hok hdec hs hdk
      have hne : ¬ e.dk_compressed_size = 0 := by
        -- an empty buffer would be an empty entry, which is over no cap
        intro h0
        rw [h0, hempty h0, exceeds_cap_iff hcap] at hover
        rcases hover with hx | hx <;> exact absurd hx (Nat.not_lt_zero _)
      rw [if_pos hs, Watched.pak_open_pending_reader, hext, if_neg hne, read_pending, hp,
        lift_ok_bind, if_pos hdk, if_pos hover]
    · rw [if_neg hs, if_pos ⟨hok.daikatana hg hdk, hdk⟩, if_pos hover]

/-- **Reading whole** refuses it too, with the check of its own or with that of the open. -/
theorem read_entry_alloc_refuses {entry_name : CStr}
    (hfind : find_entry pak.entries entry_name = some e)
    (hopen : Watched.pakka_open_entry_handle df sources disk pak e = refuse) :
    Watched.pakka_read_entry_alloc df sources disk pak entry_name = refuse := by
  unfold Watched.pakka_read_entry_alloc
  rw [hfind, orError, lift_ok_bind, hopen]
  simp only [bind_refuse, ite_self]

theorem verify_stream_of_le {pos remaining : ℕ} (h : pos + remaining ≤ disk.length) :
    verify_stream disk pos remaining = true := by
  fun_induction verify_stream disk pos remaining with
  | case1 => rfl
  | case2 pos remaining h0 chunk hnone =>
    rw [readExact_of_le] at hnone
    · cases hnone
    · simp only [chunk]
      split_ifs <;> omega
  | case3 pos remaining h0 chunk _ hread ih =>
    apply ih
    simp only [chunk]
    split_ifs <;> omega

/-- What the deep check reads of such an entry is in the file. -/
theorem verify_extent_in_file (h : Framed n pak e) (hkind : Capped pak.format e)
    (hs : e.staged = false) :
    (verify_extent pak.format e).2 = compressed_size pak.format e ∧
      (verify_extent pak.format e).1.toNat + (verify_extent pak.format e).2.toNat ≤ n := by
  unfold verify_extent compressed_size
  cases h with
  | zip hz hok =>
    rw [if_pos hz, if_pos hz]
    exact ⟨rfl, hok.in_file hs⟩
  | pak hg hok hin hdec =>
    have hz := not_zip_of_geometry hg
    have hdk := hkind.compressed hz
    have hend := hok.before_end hs
    rw [Entry.payloadEnd, pak_entry_on_disk_extent, if_pos hdk] at hend
    rw [hz, if_neg (by simp), if_pos hdk, if_neg (by simp)]
    exact ⟨rfl, Nat.le_trans hend hin⟩

/-- **The deep check** refuses it: nothing before it fails, as the payload is in the file. -/
theorem verify_entry_refuses (hcap : 0 < pak.max_decompressed) (h : Framed disk.length pak e)
    (hkind : Capped pak.format e) (hover : OverCap pak.max_decompressed pak.format e)
    (hsafe : pakka_unsafe_entry_name e.filename = false) (hs : e.staged = false) :
    Watched.verify_entry df disk pak true e = ([.over_cap], ⟨.error, .limit, e.filename⟩) := by
  have hdeep : Watched.deep_verify_entry df disk pak e = refuse := by
    unfold Watched.deep_verify_entry
    cases h with
    | zip hz hok =>
      unfold OverCap compressed_size at hover
      rw [if_pos hz, ← exceeds_cap_iff hcap] at hover
      rw [if_pos hz, Watched.pakka_pk3_deep_verify_entry, if_neg (by simp [hs]), if_pos hover]
    | pak hg hok hin hdec =>
      have hz := not_zip_of_geometry hg
      have hdk := hkind.compressed hz
      unfold OverCap compressed_size at hover
      rw [hz, if_neg (by simp)] at hover ⊢
      rw [← exceeds_cap_iff hcap] at hover
      rw [if_pos ⟨hok.daikatana hg hdk, hdk⟩, Watched.dk_deep_verify_entry, if_pos hover]
  obtain ⟨hsize, hextent⟩ := verify_extent_in_file h hkind hs
  have hsome : ¬ ((verify_extent pak.format e).2 = 0 ∧ e.length = 0) := by
    rintro ⟨h1, h2⟩
    unfold OverCap at hover
    rw [← hsize, h1, h2] at hover
    rcases hover with hx | hx <;> exact absurd hx (Nat.not_lt_zero _)
  unfold Watched.verify_entry
  rw [if_neg (by simp [hsafe]), if_neg (by simp [hs]), if_neg hsome,
    verify_stream_of_le hextent, if_neg (by simp), if_pos rfl, hdeep]
  rfl

/-! ## Letting pass

An entry that is let pass may still fail to open, for any other reason. What is shown is that the
event of a refusal does not occur.
-/

/-- An entry that the cap is not for, or that is within it. -/
def LetPass (pak : Archive) (e : Entry) : Prop :=
  Capped pak.format e → ¬ OverCap pak.max_decompressed pak.format e

/-- An entry that is let pass exceeds the cap in no check of a ZIP path. -/
theorem LetPass.zip (h : LetPass pak e) (hcap : 0 < pak.max_decompressed)
    (hz : pakka_format_is_zip pak.format = true) :
    ¬ exceeds_cap pak.max_decompressed e.length e.pk3_compressed_size = true := by
  have hover := h (Or.inl hz)
  rwa [OverCap, compressed_size, if_pos hz, ← exceeds_cap_iff hcap] at hover

/-- Nor in one of a Daikatana path. -/
theorem LetPass.dk (h : LetPass pak e) (hcap : 0 < pak.max_decompressed)
    (hz : ¬ pakka_format_is_zip pak.format = true) (hdk : e.dk_is_compressed = true) :
    ¬ exceeds_cap pak.max_decompressed e.length e.dk_compressed_size = true := by
  have hover := h (Or.inr hdk)
  rwa [OverCap, compressed_size, if_neg hz, ← exceeds_cap_iff hcap] at hover

theorem avoids_dk_inflate (inp : Bytes) (out_len : ℕ) :
    Avoids .over_cap (Watched.pakka_dk_inflate inp out_len) :=
  .bind (.note (by decide)) fun _ => .lift _

theorem avoids_inflate_checked (df : Deflate) (compressed : Bytes) (length csize : ℕ) :
    Avoids .over_cap (Watched.pk3_inflate_checked df compressed length csize) :=
  .bind (.note (by decide)) fun _ => .lift _

/-- **Opening by handle** does not refuse what is let pass. -/
theorem open_entry_handle_passes (hcap : 0 < pak.max_decompressed) (h : LetPass pak e) :
    Avoids .over_cap (Watched.pakka_open_entry_handle df sources disk pak e) := by
  unfold Watched.pakka_open_entry_handle
  refine .ite (fun _ => .fail _) fun _ => .ite (fun hz => ?_) fun hz => .ite (fun _ => ?_) fun _ =>
    .ite (fun hdk => ?_) fun _ => .pure _
  · -- ZIP: one check for all shapes
    unfold Watched.pakka_pk3_open_entry_impl
    refine .ite (fun hx => absurd hx (h.zip hcap hz)) fun _ => .ite (fun _ => ?_) fun _ =>
      .ite (fun _ => .pure _) fun _ => .ite (fun _ => .fail _) fun _ => ?_
    · refine .ite (fun _ => .pure _) fun _ => .bind (.lift _) fun _ => .ite (fun _ => ?_) fun _ =>
        .pure _
      exact .bind (avoids_inflate_checked _ _ _ _) fun _ => .ite (fun _ => .pure _) fun _ => .pure _
    · refine .bind (.lift _) fun _ => .bind (avoids_inflate_checked _ _ _ _) fun _ => ?_
      exact .ite (fun _ => .pure _) fun _ => .pure _
  · -- staged
    unfold Watched.pak_open_pending_reader
    refine .ite (fun _ => .pure _) fun _ => .bind (.lift _) fun _ => .ite (fun hdk => ?_) fun _ =>
      .pure _
    refine .ite (fun hx => ?_) fun _ => .ite (fun _ => .pure _) fun _ => ?_
    · rw [pak_entry_on_disk_extent, if_pos hdk] at hx
      exact absurd hx (h.dk hcap hz hdk)
    · exact .bind (avoids_dk_inflate _ _) fun _ => .pure _
  · -- compressed, on disk
    refine .ite (fun hx => absurd hx (h.dk hcap hz hdk.2)) fun _ => .bind (.lift _) fun _ => ?_
    exact .bind (avoids_dk_inflate _ _) fun _ => .ite (fun _ => .pure _) fun _ => .pure _

/-- **The deep check** does not refuse it. -/
theorem verify_entry_passes (hcap : 0 < pak.max_decompressed) (h : LetPass pak e) (deep : Bool) :
    CapEvent.over_cap ∉ (Watched.verify_entry df disk pak deep e).1 := by
  have hdeep : Avoids .over_cap (Watched.deep_verify_entry df disk pak e) := by
    unfold Watched.deep_verify_entry
    refine .ite (fun hz => ?_) fun hz => .ite (fun hdk => ?_) fun _ => .pure _
    · unfold Watched.pakka_pk3_deep_verify_entry
      refine .ite (fun _ => .pure _) fun _ => .ite (fun hx => absurd hx (h.zip hcap hz)) fun _ =>
        .ite (fun _ => .ite (fun _ => .fail _) fun _ => .pure _) fun _ => .bind (.lift _) fun _ => ?_
      refine .ite (fun _ => .ite (fun _ => .fail _) fun _ => .pure _) fun _ => .ite (fun _ => ?_)
        fun _ => ?_
      · exact .bind (avoids_inflate_checked _ _ _ _) fun _ =>
          .ite (fun _ => .pure _) fun _ => .fail _
      · exact .bind (avoids_inflate_checked _ _ _ _) fun _ =>
          .ite (fun _ => .fail _) fun _ => .pure _
    · unfold Watched.dk_deep_verify_entry
      refine .ite (fun hx => absurd hx (h.dk hcap hz hdk.2)) fun _ => .bind (.lift _) fun _ => ?_
      exact .bind (avoids_dk_inflate _ _) fun _ => .pure _
  unfold Watched.verify_entry
  generalize Watched.deep_verify_entry df disk pak e = x at hdeep ⊢
  rcases x with ⟨events, _ | ⟨⟩⟩ <;>
  · simp only [apply_ite Prod.fst]
    split_ifs <;> first | exact hdeep | exact List.not_mem_nil

/-- **Reading whole** does not refuse it: its own check is part of that of the open. -/
theorem read_entry_alloc_passes (hcap : 0 < pak.max_decompressed) {entry_name : CStr}
    (h : ∀ e, find_entry pak.entries entry_name = some e → LetPass pak e) :
    Avoids .over_cap (Watched.pakka_read_entry_alloc df sources disk pak entry_name) := by
  unfold Watched.pakka_read_entry_alloc
  cases hfind : find_entry pak.entries entry_name with
  | none => exact .of_events_nil rfl
  | some e =>
    have hpass := h e hfind
    rw [orError, lift_ok_bind]
    refine .ite (fun _ => .bind (open_entry_handle_passes hcap hpass) fun _ => .pure _) fun _ =>
      .ite (fun hx => ?_) fun _ => .bind (open_entry_handle_passes hcap hpass) fun _ => .lift _
    obtain ⟨hkind, -, hlen⟩ := hx
    exact absurd (Or.inl hlen) (hpass (hkind.imp id And.right))

/-! ## Access by name

A name leads to the first entry that bears it. Where names do not repeat that is the entry itself,
and WAD archives, where they may, have nothing the cap is for.
-/

/-- The entries of a handle are in order, and where names may not repeat they do not. -/
structure FramedHandle (n : ℕ) (pak : Archive) : Prop where
  entries : ∀ e ∈ pak.entries, Framed n pak e
  nodup : pakka_format_is_wad pak.format = false → (pak.entries.map Entry.filename).Nodup

theorem find_entry_of_nodup {es : List Entry} (hnodup : (es.map Entry.filename).Nodup)
    (he : e ∈ es) : find_entry es e.filename = some e := by
  cases hfind : find_entry es e.filename with
  | none => exact absurd (List.mem_map_of_mem he) (find_entry_eq_none.mp hfind)
  | some e' =>
    have hname : e'.filename = e.filename := by simpa using List.find?_some hfind
    rw [List.inj_on_of_nodup_map hnodup (find_entry_mem hfind) he hname]

/-- WAD archives have no entries the cap is for. -/
theorem Framed.not_capped (h : Framed n pak e) (hwad : pakka_format_is_wad pak.format = true) :
    ¬ Capped pak.format e := by
  intro hkind
  cases h with
  | zip hz =>
    rw [zip_not_wad hz] at hwad
    cases hwad
  | pak hg hok =>
    rw [hok.daikatana hg (hkind.compressed (not_zip_of_geometry hg))] at hwad
    cases hwad

/-- The name of an entry that the cap is for leads to it. -/
theorem FramedHandle.find (h : FramedHandle n pak) (he : e ∈ pak.entries)
    (hkind : Capped pak.format e) : find_entry pak.entries e.filename = some e := by
  apply find_entry_of_nodup (h.nodup ?_) he
  by_contra hwad
  exact (h.entries e he).not_capped (by simpa using hwad) hkind

/-- The name of an entry that is let pass leads to one that is. -/
theorem FramedHandle.find_passes (h : FramedHandle n pak) (he : e ∈ pak.entries)
    (hpass : LetPass pak e) {e' : Entry} (hfind : find_entry pak.entries e.filename = some e') :
    LetPass pak e' := by
  intro hkind
  have hname : e'.filename = e.filename := by simpa using List.find?_some hfind
  have hmem := find_entry_mem hfind
  have hself := h.find hmem hkind
  by_cases hwad : pakka_format_is_wad pak.format = true
  · exact absurd hkind ((h.entries e' hmem).not_capped hwad)
  · rw [find_entry_of_nodup (h.nodup (by simpa using hwad)) he] at hfind
    obtain rfl := Option.some.inj hfind
    exact hpass hkind

/-! ## Every path

The five paths as one family, so that the result is one statement.
-/

/-- The paths to the bytes of an entry. -/
inductive CapPath where
  | open_entry
  | open_entry_handle
  | read_entry_alloc
  | deep_verify
  deriving DecidableEq, Repr

/-- The status of a path. -/
def Watched.status {α : Type} (x : Watched α) : Status :=
  match x.res with
  | .ok _ => .ok
  | .error s => s

/-- What a path does for an entry, and its status. -/
def CapPath.outcome (df : Deflate) (sources : CStr → SourceView) (disk : Bytes) (pak : Archive)
    (e : Entry) : CapPath → List CapEvent × Status
  | .open_entry =>
    let x := Watched.pakka_open_entry df sources disk pak e.filename
    (x.events, x.status)
  | .open_entry_handle =>
    let x := Watched.pakka_open_entry_handle df sources disk pak e
    (x.events, x.status)
  | .read_entry_alloc =>
    let x := Watched.pakka_read_entry_alloc df sources disk pak e.filename
    (x.events, x.status)
  | .deep_verify =>
    let f := Watched.verify_entry df disk pak true e
    (f.1, f.2.status)

/-- The entries a path gets to: `pakka_verify` looks into committed ones with safe names only. -/
def CapPath.Reads (e : Entry) : CapPath → Prop
  | .deep_verify => e.staged = false ∧ pakka_unsafe_entry_name e.filename = false
  | _ => True

/-- **Every path refuses** an entry over the cap, and does nothing else. -/
theorem CapPath.refuses (path : CapPath) (hfp : pak.fp = true) (hcap : 0 < pak.max_decompressed)
    (h : FramedHandle disk.length pak) (he : e ∈ pak.entries) (hkind : Capped pak.format e)
    (hover : OverCap pak.max_decompressed pak.format e) (hreads : path.Reads e) :
    path.outcome df sources disk pak e = ([.over_cap], .limit) := by
  have hframed := h.entries e he
  have hfind := h.find he hkind
  have hopen : Watched.pakka_open_entry_handle df sources disk pak e = refuse :=
    open_entry_handle_refuses hfp hcap hframed hkind hover
  cases path with
  | open_entry =>
    rw [outcome, Watched.pakka_open_entry, if_neg (by simp [hfp]), hfind, orError, lift_ok_bind,
      hopen]
    rfl
  | open_entry_handle =>
    rw [outcome, hopen]
    rfl
  | read_entry_alloc =>
    rw [outcome, read_entry_alloc_refuses hfind hopen]
    rfl
  | deep_verify =>
    rw [outcome, verify_entry_refuses hcap hframed hkind hover hreads.2 hreads.1]

/-- **No path refuses** an entry that is let pass. -/
theorem CapPath.passes (path : CapPath) (hcap : 0 < pak.max_decompressed)
    (h : FramedHandle n pak) (he : e ∈ pak.entries) (hpass : LetPass pak e) :
    CapEvent.over_cap ∉ (path.outcome df sources disk pak e).1 := by
  cases path with
  | open_entry =>
    apply Avoids.ite (fun _ => .fail _)
    intro _
    cases hfind : find_entry pak.entries e.filename with
    | none => exact .of_events_nil rfl
    | some e' =>
      rw [orError, lift_ok_bind]
      exact open_entry_handle_passes hcap (h.find_passes he hpass hfind)
  | open_entry_handle => exact open_entry_handle_passes hcap hpass
  | read_entry_alloc => exact read_entry_alloc_passes hcap fun _ => h.find_passes he hpass
  | deep_verify => exact verify_entry_passes hcap hpass true

/-! ## Reached handles

What the paths rely on holds of every handle that calls can reach, as long as it has its file.
-/

/-- The entries of a reached handle that has its file are in order. -/
theorem Reached.framed {s : Session} (h : Reached s) (hdec : Decoding s.pak)
    (hfp : s.pak.fp = true) : FramedHandle s.disk.length s.pak := by
  cases h with
  | lost hlost =>
    rw [hfp] at hlost
    cases hlost
  | pak hl =>
    have hstate := hl.disk_state
    have hcls : IsPakClass s.pak.format := Option.isSome_iff_exists.mpr ⟨_, hstate.geometry⟩
    exact ⟨fun e he => .pak hstate.geometry (hstate.entries e he) hstate.end_in_file
      (hdec hfp hcls e he), hstate.nodup⟩
  | zip hl =>
    have hstate := hl.disk_state
    exact ⟨fun e he => .zip hstate.zip (hstate.entries e he), hstate.linked.nodup⟩

/-- What `pakka_verify` reports of an entry is the finding of the deep check. -/
theorem deep_verify_reported (df : Deflate) (sources : CStr → SourceView) (disk : Bytes)
    (hfp : pak.fp = true) (he : e ∈ pak.entries) :
    ∃ f ∈ (pakka_verify df disk pak PAKKA_VERIFY_DEEP).2, f.entry_name = e.filename ∧
      f.status = (CapPath.outcome df sources disk pak e .deep_verify).2 := by
  refine ⟨verify_entry df disk pak true e, ?_, ?_, ?_⟩
  · unfold pakka_verify
    rw [if_neg (by decide), if_neg (by simp [hfp])]
    exact List.mem_append_left _ (List.mem_map_of_mem he)
  · unfold verify_entry
    rcases deep_verify_entry df disk pak e with _ | ⟨⟩ <;>
    · simp only [apply_ite Finding.entry_name, ite_self]
  · rw [CapPath.outcome, Watched.verify_entry_finding]

/-- **The cap on every path.** Take any entry of a handle with its archive file, after any calls on
it, and any cap. If the entry is in a ZIP archive or compressed, and its length or its compressed
size exceeds the cap, then opening it by name or by handle, reading it whole, and the deep check
of it are refused, and nothing is decoded. If neither exceeds the cap, or the cap is not for the
entry, none of them is refused. -/
theorem cap_enforced (df : Deflate) (s₀ : Session) (calls : List (Env × Call))
    (sources : CStr → SourceView) (cap : ℕ) (e : Entry) (hstart : Session.Started s₀)
    (hcap : 0 < cap) (hfp : (s₀.run df calls).pak.fp = true)
    (he : e ∈ (s₀.run df calls).pak.entries) :
    let s := s₀.run df calls
    let pak := pakka_set_max_decompressed_size s.pak cap
    (∀ path : CapPath,
      (Capped pak.format e → OverCap cap pak.format e → path.Reads e →
        path.outcome df sources s.disk pak e = ([.over_cap], .limit)) ∧
      ((Capped pak.format e → ¬ OverCap cap pak.format e) →
        .over_cap ∉ (path.outcome df sources s.disk pak e).1)) ∧
    ∃ f ∈ (pakka_verify df s.disk pak PAKKA_VERIFY_DEEP).2, f.entry_name = e.filename ∧
      f.status = (CapPath.outcome df sources s.disk pak e .deep_verify).2 := by
  intro s pak
  have hdec : Decoding s.pak :=
    Decoding.run calls (.of_on_disk hstart.on_disk) hstart.reached
  have hold := (hstart.reached.run calls).framed hdec hfp
  have h : FramedHandle s.disk.length pak :=
    ⟨fun x hx => (hold.entries x hx).set_cap cap, hold.nodup⟩
  refine ⟨fun path => ⟨?_, ?_⟩, deep_verify_reported df sources s.disk hfp he⟩
  · exact fun hkind hover => path.refuses hfp hcap h he hkind hover
  · exact path.passes hcap h he

/-- A staged entry of 64 bytes under a cap of 63, read whole. -/
theorem cap_enforced_zeros :
    let s := created_pk3.run .storing [(calm_env, add_zeros)]
    ∃ e ∈ s.pak.entries, CapPath.outcome .storing (calm_env.view 0) s.disk
      (pakka_set_max_decompressed_size s.pak 63) e .read_entry_alloc = ([.over_cap], .limit) := by
  intro s
  obtain ⟨e, he⟩ : ∃ e, s.pak.entries[0]? = some e :=
    Option.isSome_iff_exists.mp (by decide +kernel)
  have hlen : s.pak.entries[0]?.map Entry.length = some 64 := by decide +kernel
  rw [he] at hlen
  have hover : OverCap 63 s.pak.format e := by
    left
    rw [Option.some.inj hlen]
    decide
  have h := (cap_enforced .storing created_pk3 [(calm_env, add_zeros)] (calm_env.view 0) 63 e
    created_pk3_started (by decide) (by decide +kernel) (List.mem_of_getElem? he)).1
  exact ⟨e, List.mem_of_getElem? he,
    (h .read_entry_alloc).1 (Or.inl (by decide +kernel)) hover trivial⟩

/-- An environment in which the new file of a commit cannot be opened. -/
def failing_reopen : Env :=
  { calm_env with faults := { fails := fun p => p = .reopen, cut := fun _ => 0 } }

/-- A handle that has lost its archive file refuses for that reason. -/
theorem cap_without_file :
    let s := created_pk3.run .storing [(calm_env, add_zeros), (failing_reopen, .commit)]
    Session.Started created_pk3 ∧
      ∃ e ∈ s.pak.entries, Capped s.pak.format e ∧ OverCap 63 s.pak.format e ∧
        CapPath.outcome .storing (calm_env.view 0) s.disk
          (pakka_set_max_decompressed_size s.pak 63) e
          .open_entry_handle = ([], .invalid_argument) := by
  intro s
  obtain ⟨e, he⟩ : ∃ e, s.pak.entries[0]? = some e :=
    Option.isSome_iff_exists.mp (by decide +kernel)
  have hlen : s.pak.entries[0]?.map Entry.length = some 64 := by decide +kernel
  rw [he] at hlen
  have hover : OverCap 63 s.pak.format e := by
    left
    rw [Option.some.inj hlen]
    decide
  have hfp : s.pak.fp = false := by decide +kernel
  refine ⟨created_pk3_started, e, List.mem_of_getElem? he, Or.inl (by decide +kernel), hover, ?_⟩
  rw [CapPath.outcome, Watched.pakka_open_entry_handle]
  change (Traced.events (if ¬ s.pak.fp = true then _ else _), _) = _
  rw [if_pos (by simp [hfp])]
  rfl

end Pakka
