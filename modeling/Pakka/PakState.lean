/-
The invariant of a PAK-class handle between calls, and the catalogue it stands for.

`PakState n pak geom` is what every commit relies on when the archive file has `n` bytes: the
list, its tail and its count agree, names fit and do not repeat, entries on disk lie before
`payload_end` and that in the file, and staged ones carry what their sizes promise. Every call but
a commit keeps it, and changes the catalogue by the edit it stands for.

The invariant speaks of a length and not of a file. So it is kept for free by everything that makes
the file longer, and writes have to be considered only where the contents matter.
-/
import Pakka.HandleList

set_option autoImplicit false

namespace Pakka

open ByteImage Logged

/-! ## The invariant

What must hold of each entry and of the list.
-/

/-- An entry of a PAK-class handle. -/
structure PakEntryOk (pak : Archive) (geom : Geometry) (e : Entry) : Prop where
  name_fits : e.filename.strlen ≤ geom.name_field_len
  plain : geom.has_compression = false → e.dk_is_compressed = false ∧ e.dk_compressed_size = 0
  one_stage : e.pending_source = none ∨ e.pending_data = none
  data : ∀ d, e.pending_data = some d → (pak_entry_on_disk_extent e).toNat = d.length
  source : e.pending_source.isSome = true → e.dk_is_compressed = false
  offset_ge : e.staged = false →
    PAKFILE_HEADER_SIZE ≤ e.offset.toNat ∨ (pakka_format_is_wad pak.format = true ∧ e.length = 0)
  before_end : e.staged = false → e.payloadEnd ≤ pak.payload_end

/-- A PAK-class handle whose file has `n` bytes. -/
structure PakState (n : ℕ) (pak : Archive) (geom : Geometry) : Prop where
  geometry : pakka_pak_geometry pak.format = some geom
  signature : pak.signature = geom.signature
  tail : pak.tail = lastIndex pak.entries
  count : pak.num_entries = UInt32.ofNat pak.entries.length
  payload_end_ge : PAKFILE_HEADER_SIZE ≤ pak.payload_end
  end_in_file : pak.payload_end ≤ n
  nodup : pakka_format_is_wad pak.format = false → (pak.entries.map Entry.filename).Nodup
  entries : ∀ e ∈ pak.entries, PakEntryOk pak geom e
  staged : ∀ e ∈ pak.entries, e.staged = true → pak.needs_rebuild = true

/-- An entry stays in order when the payloads only grow. -/
theorem PakEntryOk.mono {pak pak' : Archive} {geom : Geometry} {e : Entry}
    (h : PakEntryOk pak geom e) (hf : pak'.format = pak.format)
    (hp : pak.payload_end ≤ pak'.payload_end) : PakEntryOk pak' geom e :=
  ⟨h.name_fits, h.plain, h.one_stage, h.data, h.source, hf ▸ h.offset_ge,
    fun hs => Nat.le_trans (h.before_end hs) hp⟩

/-- A file that grew. -/
theorem PakState.mono {n n' : ℕ} {pak : Archive} {geom : Geometry} (h : PakState n pak geom)
    (hn : n ≤ n') : PakState n' pak geom :=
  { h with end_in_file := Nat.le_trans h.end_in_file hn }

/-! ## New names

The preflight's checks, in the terms of the invariant.
-/

/-- A name that passes the preflight of a PAK-class format fits its name field. -/
theorem name_fits_of_preflight {format : Format} {geom : Geometry} {name : CStr}
    (hg : pakka_pak_geometry format = some geom)
    (h : entry_name_too_long format name = false) : name.strlen ≤ geom.name_field_len := by
  have hcap : pak_entry_name_cap format = geom.name_field_len := by
    rw [pak_entry_name_cap, not_zip_of_geometry hg, if_neg (by simp), hg]
  rw [entry_name_too_long, hcap] at h
  split_ifs at h
  · simpa using h
  · simp only [decide_eq_false_iff_not, not_le] at h
    omega

/-! ## Linking

A new entry at the tail.
-/

/-- The list of the handle is in order. -/
theorem PakState.linked {n : ℕ} {pak : Archive} {geom : Geometry} (h : PakState n pak geom) :
    Linked pak := ⟨h.tail, h.count, h.nodup⟩

/-- **Linking keeps the invariant**, for an entry in order under a fresh name. The handle may
get another `payload_end` and be flagged for a rebuild on the way. -/
theorem PakState.link {n n' : ℕ} {pak pak' : Archive} {geom : Geometry} {e : Entry}
    (h : PakState n pak geom)
    (hpak : pak' = { link_entry pak e with
      payload_end := pak'.payload_end, needs_rebuild := pak'.needs_rebuild })
    (hend : pak.payload_end ≤ pak'.payload_end) (hn : pak'.payload_end ≤ n')
    (hreb : pak.needs_rebuild = true ∨ e.staged = true → pak'.needs_rebuild = true)
    (hname : pakka_format_is_wad pak.format = false → e.filename ∉ pak.entries.map Entry.filename)
    (he : PakEntryOk pak' geom e) : PakState n' pak' geom := by
  have hlinked : Linked pak' := by
    rw [hpak]
    exact (h.linked.link hname).congr rfl rfl rfl rfl
  have hents : pak'.entries = pak.entries ++ [e] := by
    rw [hpak]
    exact h.linked.link_entries e
  have hf : pak'.format = pak.format := by rw [hpak]; rfl
  refine ⟨hf ▸ h.geometry, ?_, hlinked.tail, hlinked.count, Nat.le_trans h.payload_end_ge hend, hn,
    hlinked.nodup, ?_, ?_⟩
  · rw [hpak]
    exact h.signature
  · intro x hx
    rw [hents, List.mem_append, List.mem_singleton] at hx
    rcases hx with hx | rfl
    · exact (h.entries x hx).mono hf hend
    · exact he
  · intro x hx hs
    rw [hents, List.mem_append, List.mem_singleton] at hx
    rcases hx with hx | rfl
    · exact hreb (Or.inl (h.staged x hx hs))
    · exact hreb (Or.inr hs)

/-! ## Deleting, renaming, copying

The effects on names keep it.
-/

/-- A copy of an entry in order is in order. -/
theorem PakEntryOk.copied {pak pak' : Archive} {geom : Geometry} {src : Entry}
    {dst_name : CStr} (h : PakEntryOk pak geom src) (hf : pak'.format = pak.format)
    (hp : pak'.payload_end = pak.payload_end) (hname : dst_name.strlen ≤ geom.name_field_len) :
    PakEntryOk pak' geom (copied_entry src dst_name) := by
  cases hs : src.staged with
  | false =>
    have hc : copied_entry src dst_name = { src with filename := dst_name } := by
      rw [copied_entry, hs, if_neg (by simp)]
    rw [hc]
    exact ⟨hname, h.plain, h.one_stage, h.data, h.source, hf ▸ h.offset_ge,
      hp ▸ h.before_end⟩
  | true =>
    have hc : (copied_entry src dst_name).staged = true := by rw [copied_entry_staged, hs]
    have hne : (copied_entry src dst_name).staged ≠ false := by simp [hc]
    refine ⟨?_, ?_, ?_, ?_, ?_, fun hx => absurd hx hne, fun hx => absurd hx hne⟩ <;>
      rw [copied_entry, if_pos hs]
    · exact hname
    · exact h.plain
    · rcases h.one_stage with h1 | h1
      · simp [h1]
      · exact Or.inr h1
    · exact h.data
    · intro hx
      refine h.source ?_
      simp only at hx
      split_ifs at hx with hd
      · cases hx
      · exact hx

/-- **The mutators that take the name of an existing entry keep the invariant.** -/
theorem PakState.name_effect {n : ℕ} {pak pak' : Archive} {geom : Geometry} {c : Call}
    (h : PakState n pak geom) (hc : NameEffect pak c pak') : PakState n pak' geom := by
  have hlinked := h.linked.name_effect hc
  have hfields : pak'.format = pak.format ∧ pak'.signature = pak.signature ∧
      pak'.payload_end = pak.payload_end ∧
      (pak.needs_rebuild = true → pak'.needs_rebuild = true) := by
    cases hc with
    | copy =>
      rw [pak_link_copy_entry_eq]
      exact ⟨rfl, rfl, rfl, fun hx => by simp [hx]⟩
    | rename => exact ⟨rfl, rfl, rfl, fun hx => by simp [with_name, hx]⟩
    | delete => exact ⟨rfl, rfl, rfl, fun _ => rfl⟩
    | _ => exact ⟨rfl, rfl, rfl, fun hx => hx⟩
  obtain ⟨hf, hsig, hend, hreb⟩ := hfields
  have hentries : ∀ e ∈ pak'.entries, PakEntryOk pak' geom e := by
    refine hc.forall_entries h.linked ?_ ?_ ?_
    · exact fun e he => (h.entries e he).mono hf (Nat.le_of_eq hend.symm)
    · intro e he n _ hn
      have := (h.entries e he).mono hf (Nat.le_of_eq hend.symm)
      exact ⟨name_fits_of_preflight h.geometry (pak_add_preflight_ok.mp hn).1, this.plain,
        this.one_stage, this.data, this.source, this.offset_ge, this.before_end⟩
    · intro e he n _ hn
      exact (h.entries e he).copied hf hend
        (name_fits_of_preflight h.geometry (pak_add_preflight_ok.mp hn).1)
  have hstaged : ∀ e ∈ pak'.entries, e.staged = true → pak'.needs_rebuild = true := by
    cases hc with
    | copy hsrc =>
      rw [pak_link_copy_entry_eq]
      change ∀ e ∈ (link_entry _ _).entries, _
      rw [h.linked.link_entries]
      intro e he hs
      simp only [Bool.or_eq_true]
      rcases List.mem_append.mp he with he | he
      · exact Or.inl (h.staged e he hs)
      · rw [List.mem_singleton.mp he, copied_entry_staged] at hs
        exact Or.inr (Or.inl hs)
    | delete => exact fun _ _ _ => rfl
    | rename =>
      intro e he hs
      rcases mem_modify_filename he with he | ⟨e', he', rfl⟩
      · exact hreb (h.staged e he hs)
      · exact hreb (h.staged e' he' hs)
    | _ => exact fun e he hs => h.staged e he hs
  exact ⟨hf ▸ h.geometry, hsig.trans h.signature, hlinked.tail, hlinked.count,
    hend ▸ h.payload_end_ge, hend ▸ h.end_in_file, hlinked.nodup, hentries, hstaged⟩

/-! ## The catalogue

An item is the stored form of a content, so that adding is an edit and reopening is equality.
-/

/-- What an archive says of an entry besides its name. -/
structure PakItem where
  length : UInt32
  dk_is_compressed : Bool
  dk_compressed_size : UInt32
  stored : Bytes
  deriving DecidableEq

/-- The bytes stored for an entry: those on disk, or those a commit is to put there. -/
def pak_stored (sources : CStr → Bytes) (disk : Bytes) (e : Entry) : Bytes :=
  match e.pending_source, e.pending_data with
  | some path, _ => (sources path).take e.length.toNat
  | none, some data => data
  | none, none => e.payload disk

/-- An entry's item. -/
def pak_item (sources : CStr → Bytes) (disk : Bytes) (e : Entry) : PakItem :=
  { length := e.length
    dk_is_compressed := e.dk_is_compressed
    dk_compressed_size := e.dk_compressed_size
    stored := pak_stored sources disk e }

/-- The item of an entry that is given the content `src`. -/
def given_item (format : Format) (entry_name : CStr) (src : Bytes) : PakItem :=
  match pak_stored_form format entry_name src with
  | some enc => ⟨UInt32.ofNat src.length, true, UInt32.ofNat enc.length, enc⟩
  | none => ⟨UInt32.ofNat src.length, false, 0, src⟩

/-- Items only see the payloads of entries on disk. -/
theorem pak_item_congr {sources : CStr → Bytes} {disk disk' : Bytes} {e : Entry}
    (h : e.staged = false → e.payload disk' = e.payload disk) :
    pak_item sources disk' e = pak_item sources disk e := by
  unfold pak_item pak_stored
  unfold Entry.staged at h
  cases hs : e.pending_source with
  | some path => rfl
  | none =>
    cases hd : e.pending_data with
    | some data => rfl
    | none =>
      rw [hs, hd] at h
      simp only [h rfl]

/-- Entries of a handle do not notice what happens to the header, nor what happens behind
`payload_end`. -/
theorem PakState.item_congr {disk disk' : Bytes} {pak : Archive} {geom : Geometry}
    (h : PakState disk.length pak geom)
    (hsame : SameBetween PAKFILE_HEADER_SIZE pak.payload_end disk disk')
    {sources : CStr → Bytes} {e : Entry} (he : e ∈ pak.entries) :
    pak_item sources disk' e = pak_item sources disk e := by
  refine pak_item_congr fun hs => ?_
  have hb := (h.entries e he).before_end hs
  rcases (h.entries e he).offset_ge hs with ho | ⟨hw, h0⟩
  · exact hsame.2 _ _ ho hb (Nat.le_trans hb h.end_in_file)
  · -- a lump without bytes, wherever it points
    have hdk : e.dk_is_compressed = false :=
      ((h.entries e he).plain (wad_plain h.geometry hw)).1
    have hx : (pak_entry_on_disk_extent e).toNat = 0 := by
      rw [pak_entry_on_disk_extent, hdk, if_neg (by simp), h0]
      rfl
    rw [Entry.payload, Entry.payload, hx, slice_zero_len, slice_zero_len]

/-! ## Adding

An add in either mode.
-/

/-- How an add comes out for the handle and its file. -/
structure AddOutcome (env : Env) (disk : Bytes) (pak : Archive) (source_path : Option CStr)
    (entry_name : CStr) (stream : Bytes) (len : ℕ) (disk' : Bytes) (pak' : Archive)
    (geom : Geometry) (e : Entry) : Prop where
  state : PakState disk'.length pak' geom
  entries : pak'.entries = pak.entries ++ [e]
  filename : e.filename = entry_name
  dirty : pak'.dirty = true
  format : pak'.format = pak.format
  same : SameBetween 0 pak.payload_end disk disk'
  item : (∀ p, env.faults.fails p = false) → ∀ src, readExact stream 0 len = some src →
    ∀ sources, (∀ path, source_path = some path → sources path = stream) →
      pak_item sources disk' e = given_item pak.format entry_name src

/-- The item of a new node that stores what the encoder left. -/
theorem given_item_new {env : Env} {format : Format} {entry_name : CStr} {stream src : Bytes}
    {len : ℕ} {enc : Option Bytes} {stored : Bytes} (off : ℕ)
    (h : StoredAs env format entry_name stream len enc stored)
    (hcalm : ∀ p, env.faults.fails p = false) (hsrc : readExact stream 0 len = some src) :
    given_item format entry_name src =
      { length := (pak_new_entry entry_name off len enc).length
        dk_is_compressed := (pak_new_entry entry_name off len enc).dk_is_compressed
        dk_compressed_size := (pak_new_entry entry_name off len enc).dk_compressed_size
        stored := stored } := by
  have henc := h.calm hcalm src hsrc
  obtain ⟨-, hlen⟩ := readExact_eq_some.mp hsrc
  obtain ⟨src', hsrc', hcase⟩ := h.bytes
  obtain rfl := Option.some.inj (hsrc.symm.trans hsrc')
  rw [given_item, ← henc, hlen]
  rcases hcase with ⟨rfl, rfl⟩ | ⟨rfl, -⟩ <;> rfl

theorem extent_new_entry (entry_name : CStr) (off len : ℕ) (enc : Option Bytes) :
    pak_entry_on_disk_extent (pak_new_entry entry_name off len enc) =
      add_physical_size len enc := by
  cases enc <;> rfl

/-- A new node is in order, once its stage or its place is. -/
theorem new_entry_plain {env : Env} {format : Format} {geom : Geometry} {entry_name : CStr}
    {stream stored : Bytes} {len : ℕ} {enc : Option Bytes} (off : ℕ)
    (hg : pakka_pak_geometry format = some geom)
    (h : StoredAs env format entry_name stream len enc stored)
    (hc : geom.has_compression = false) :
    (pak_new_entry entry_name off len enc).dk_is_compressed = false ∧
      (pak_new_entry entry_name off len enc).dk_compressed_size = 0 := by
  obtain ⟨src, -, ⟨rfl, -⟩ | ⟨rfl, hform⟩⟩ := h.bytes
  · exact ⟨rfl, rfl⟩
  · have := (geometry_has_compression hg).mpr (pak_stored_form_some hform).1
    rw [hc] at this
    cases this

/-- **Adds keep the invariant** and append the given content. -/
theorem PakState.added {env : Env} {disk : Bytes} {pak pak' : Archive} {geom : Geometry}
    {source_path : Option CStr} {entry_name : CStr} {stream : Bytes} {len : ℕ}
    {log : List (FileOp FileId)} (h : PakState disk.length pak geom)
    (hname : pak_add_preflight pak entry_name = .ok ())
    (ha : PakAdded env pak source_path entry_name stream len log pak') {fs : Files FileId}
    (hfs : fs .live = some disk) :
    ∃ disk' e, FileOp.run fs log .live = some disk' ∧
      AddOutcome env disk pak source_path entry_name stream len disk' pak' geom e := by
  obtain ⟨hlong, -, hfresh⟩ := pak_add_preflight_ok.mp hname
  have hfits := name_fits_of_preflight h.geometry hlong
  have hself := SameBetween.refl 0 pak.payload_end disk
  have hsize : (12 : ℕ) ≤ pak.payload_end := h.payload_end_ge
  cases ha with
  -- staged in a buffer: no file is touched, and the item is what the buffer holds
  | @staged enc stored hatomic hlen hst =>
    refine ⟨disk, { pak_new_entry entry_name 0 len enc with pending_data := some stored }, hfs,
      ?_, ?_, rfl, rfl, rfl, hself, ?_⟩
    rotate_left 2
    · intro hcalm src hsrc sources _
      rw [given_item_new 0 hst hcalm hsrc]
      rfl
    · refine h.link rfl (Nat.le_refl _) h.end_in_file (fun _ => rfl) hfresh ?_
      refine ⟨hfits, new_entry_plain 0 h.geometry hst, Or.inl rfl, ?_,
        fun hx => (by cases hx), fun hx => (by cases hx), fun hx => (by cases hx)⟩
      intro d hd
      obtain rfl := Option.some.inj hd
      rw [← hst.physical_size hlen, ← extent_new_entry entry_name 0]
      rfl
    · simp only [pak_link_staged_entry, link_entry, h.tail, link_at_tail_last]
  -- staged as a path: the item is what the source holds when it is read again
  | source hatomic hpath hlen hcap =>
    obtain ⟨path, rfl⟩ := Option.isSome_iff_exists.mp hpath
    refine ⟨disk, { pak_new_entry entry_name 0 len none with
      crc32 := crc32_of stream, pending_source := some path }, hfs, ?_, ?_, rfl, rfl, rfl, hself,
      ?_⟩
    rotate_left 2
    · intro hcalm src hsrc sources hsources
      obtain ⟨rfl, hsl⟩ := readExact_eq_some.mp hsrc
      have hnone := hcap.calm hcalm _ hsrc
      have hl : (UInt32.ofNat len).toNat = len := by
        rw [UInt32.toNat_ofNat', Nat.mod_eq_of_lt (by simp only [UINT32_MAX] at hlen; omega)]
      rw [given_item, ← hnone, hsl]
      simp only [Captured.enc_buf, pak_item, pak_stored, pak_new_entry, hsources path rfl, hl,
        slice, List.drop_zero, Option.isSome_none]
    · refine h.link rfl (Nat.le_refl _) h.end_in_file (fun _ => rfl) hfresh ?_
      exact ⟨hfits, fun _ => ⟨rfl, rfl⟩, Or.inr rfl, fun _ hd => (by cases hd), fun _ => rfl,
        fun hx => (by cases hx), fun hx => (by cases hx)⟩
    · simp only [pak_link_staged_entry, link_entry, h.tail, link_at_tail_last]
  -- written behind the payload: the new entry starts where the last one ended
  | @appended enc stored _ hlen hst hfit hlog =>
    have hphys := hst.physical_size hlen
    have hoff : (UInt32.ofNat pak.payload_end).toNat = pak.payload_end := by
      rw [UInt32.toNat_ofNat', Nat.mod_eq_of_lt (by simp only [UINT32_MAX] at hfit; omega)]
    have hend := h.end_in_file
    have hlong' : pak.payload_end + stored.length ≤
        (overwrite disk pak.payload_end stored).length := by
      rw [length_overwrite]
      split_ifs with h0
      · rw [h0, List.length_nil]
        omega
      · omega
    refine ⟨_, pak_new_entry entry_name pak.payload_end len enc, hlog fs disk hfs, ?_, ?_, rfl,
      rfl, rfl, ?_, ?_⟩
    rotate_left 2
    · exact sameBetween_overwrite (Or.inr (Nat.le_refl _))
    · intro hcalm src hsrc sources _
      rw [given_item_new pak.payload_end hst hcalm hsrc]
      simp only [pak_item, pak_stored, Entry.payload, extent_new_entry, hphys]
      congr 1
      change slice _ (UInt32.ofNat pak.payload_end).toNat _ = _
      rw [hoff, slice_overwrite_self]
    · refine h.link rfl (by simp [pak_link_appended_entry]) ?_ ?_ hfresh ?_
      · simp only [pak_link_appended_entry, hphys]
        exact hlong'
      · rintro (hr | hr)
        · exact hr
        · cases hr
      · refine ⟨hfits, new_entry_plain _ h.geometry hst, Or.inl rfl, fun _ hd => (by cases hd),
          fun hx => (by cases hx), fun _ => Or.inl ?_, fun _ => ?_⟩
        · change _ ≤ (UInt32.ofNat pak.payload_end).toNat
          rw [hoff]
          exact h.payload_end_ge
        · simp only [Entry.payloadEnd, extent_new_entry]
          change (UInt32.ofNat pak.payload_end).toNat + _ ≤ _
          rw [hoff]
          exact Nat.le_refl _
    · simp only [pak_link_appended_entry, link_entry, h.tail, link_at_tail_last]

end Pakka
