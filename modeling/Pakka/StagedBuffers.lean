/-
What is known of staged payloads, over runs of calls that may fail.

A staged payload is a buffer or the path of a source. Of a source nothing is known before it is
read again. A buffer was made by an add from the bytes of its source, and the numbers recorded
with it are right: this is kept by copies and renames, and a commit leaves nothing staged.

The numbers matter because they end up in the headers of the archive and are what the loader checks
its payloads by.
-/
import Pakka.AtomicCommit
import Pakka.ZipRefinement

set_option autoImplicit false

namespace Pakka

open ByteImage Logged

variable {df : Deflate} {s : Session} {disk : Bytes} {env : Env} {c : Call}

/-! ## ZIP archives

The recorded numbers of a buffer.
-/

/-- The numbers of an item are those of its bytes. -/
def ZipItem.Truthful (df : Deflate) (x : ZipItem) : Prop :=
  ∃ src, x.content df = some src ∧ x.length.toNat = src.length ∧
    x.compressed_size.toNat = x.stored.length ∧ x.crc32 = crc32_of src

/-- The numbers recorded for a staged buffer are those of the buffer, and only what has bytes is
compressed. -/
def BufferRecorded (df : Deflate) (e : Entry) : Prop :=
  ∀ data, e.pending_data = some data →
    (⟨e.pk3_method, e.crc32, e.pk3_compressed_size, e.length, data⟩ : ZipItem).Truthful df ∧
      (e.pk3_method = PK3_METHOD_STORED ∨ e.length ≠ 0)

theorem BufferRecorded.of_on_disk {e : Entry} (h : e.staged = false) : BufferRecorded df e := by
  intro data hd
  simp [Entry.staged, hd] at h

/-- **An add records its buffer.** -/
theorem ZipAdded.recorded (hdf : df.Correct) {method : UInt16} {entry_name : CStr}
    {source_path : Option CStr} {src : Bytes} {e : Entry}
    (h : ZipAdded df env method entry_name source_path src e) : BufferRecorded df e := by
  intro data hd
  cases h with
  | source => cases hd
  | @captured _ _ enc hlen hsource henc =>
    have hgiven := zip_given_item_content hdf method hlen
    rw [zip_given_item, henc] at hgiven
    cases enc with
    | none =>
      obtain rfl := Option.some.inj hd
      exact ⟨⟨src, hgiven⟩, Or.inl rfl⟩
    | some b =>
      obtain rfl := Option.some.inj hd
      refine ⟨⟨src, hgiven⟩, Or.inr fun h0 => ?_⟩
      have hsmall : b.length < src.length := by
        unfold pk3_encode at henc
        split_ifs at henc
        · exact df.compress_smaller henc
        · cases henc
      have hlen0 : (UInt32.ofNat src.length).toNat = 0 := by
        rw [show UInt32.ofNat src.length = 0 from h0]
        rfl
      rw [ofNat_toNat_of_le hlen] at hlen0
      omega

/-- **The calls on a ZIP archive keep buffers recorded.** -/
theorem ZipEffect.recorded (hdf : df.Correct) {n : ℕ} {pak pak' : Archive} (hs : ZipState n pak)
    (h : ZipEffect df env pak c pak') (hold : ∀ e ∈ pak.entries, BufferRecorded df e) :
    ∀ e ∈ pak'.entries, BufferRecorded df e := by
  have hadd : ∀ {name source src e}, ZipAdded df env pak.pk3_compression name source src e →
      ∀ x ∈ (pk3_link_pending_entry pak e).entries, BufferRecorded df x := by
    intro name source src e ha x hx
    change x ∈ (link_entry pak e).entries at hx
    rw [hs.linked.link_entries, List.mem_append, List.mem_singleton] at hx
    rcases hx with hx | rfl
    · exact hold x hx
    · exact ha.recorded hdf
  cases h with
  | add_file _ ha => exact hadd ha
  | add_memory _ ha => exact hadd ha
  | name hn =>
    refine hn.forall_entries hs.linked hold ?_ ?_
    · intro e he _ _ _ data hd
      exact hold e he data hd
    · intro e he m _ _ data hd
      unfold copied_entry at hd ⊢
      split_ifs at hd ⊢ <;> exact hold e he data hd

/-! ## PAK-class archives

A captured buffer decodes to what the add was given.
-/

/-- A staged buffer of a PAK-class archive has a content of the length recorded. -/
def BufferDecodes (e : Entry) : Prop :=
  ∀ data, e.pending_data = some data → ∃ src,
    (⟨e.length, e.dk_is_compressed, e.dk_compressed_size, data⟩ : PakItem).content = some src ∧
      e.length.toNat = src.length

theorem BufferDecodes.of_on_disk {e : Entry} (h : e.staged = false) : BufferDecodes e := by
  intro data hd
  simp [Entry.staged, hd] at h

/-- **An add stages a buffer that decodes.** -/
theorem StoredAs.decodes {format : Format} {entry_name : CStr} {stream stored : Bytes} {len : ℕ}
    {enc : Option Bytes} (h : StoredAs env format entry_name stream len enc stored)
    (hlen : len ≤ UINT32_MAX) :
    BufferDecodes { pak_new_entry entry_name 0 len enc with pending_data := some stored } := by
  intro data hd
  obtain rfl := Option.some.inj hd
  obtain ⟨src, hsrc, hstored⟩ := h.bytes
  obtain ⟨-, hsl⟩ := readExact_eq_some.mp hsrc
  have hword : (UInt32.ofNat len).toNat = src.length := (ofNat_toNat_of_le hlen).trans hsl.symm
  refine ⟨src, ?_, hword⟩
  rcases hstored with ⟨rfl, rfl⟩ | ⟨rfl, hform⟩
  · rfl
  · obtain ⟨-, -, hdec⟩ := pak_stored_form_some hform
    simp only [PakItem.content, pak_new_entry, Option.isSome_some, if_true, hword, hdec]

/-- **The calls on a PAK-class archive keep buffers decoding.** -/
theorem PakEffect.decodes {n : ℕ} {pak pak' : Archive} {geom : Geometry}
    {log : List (FileOp FileId)} (hs : PakState n pak geom) (h : PakEffect env pak c log pak')
    (hold : ∀ e ∈ pak.entries, BufferDecodes e) : ∀ e ∈ pak'.entries, BufferDecodes e := by
  have hlink : ∀ e, BufferDecodes e → ∀ x ∈ (link_entry pak e).entries, BufferDecodes x := by
    intro e he x hx
    rw [hs.linked.link_entries, List.mem_append, List.mem_singleton] at hx
    rcases hx with hx | rfl
    · exact hold x hx
    · exact he
  have hadd : ∀ {p n st len log pak'}, PakAdded env pak p n st len log pak' →
      ∀ e ∈ pak'.entries, BufferDecodes e := by
    intro p n st len log pak' ha
    cases ha with
    | staged _ hlen hstored => exact hlink _ (hstored.decodes hlen)
    | source => exact hlink _ fun data hd => by cases hd
    | appended => exact hlink _ (.of_on_disk rfl)
  cases h with
  | add_file _ _ _ ha => exact hadd ha
  | add_memory _ ha => exact hadd ha
  | name hn =>
    refine hn.forall_entries hs.linked hold ?_ ?_
    · intro e he _ _ _ data hd
      exact hold e he data hd
    · intro e he m _ _ data hd
      unfold copied_entry at hd ⊢
      split_ifs at hd ⊢ <;> exact hold e he data hd

/-! ## Staging over runs

Kept by every call, failing ones too.
-/

/-- The listing that a commit leaves is on disk. -/
theorem NewArchive.on_disk {pak pak' : Archive} {new : Bytes}
    (h : NewArchive env disk pak new pak') : ∀ e ∈ pak'.entries, e.staged = false := by
  cases h with
  | pak h => exact h.on_disk
  | zip h =>
    intro e he
    rw [h.entries] at he
    obtain ⟨x, -, rfl⟩ := List.mem_map.mp he
    rfl

/-- As long as a PAK-class handle has its file, its buffers decode. -/
def Decoding (pak : Archive) : Prop :=
  pak.fp = true → IsPakClass pak.format → ∀ e ∈ pak.entries, BufferDecodes e

theorem Decoding.of_on_disk {pak : Archive} (h : ∀ e ∈ pak.entries, e.staged = false) :
    Decoding pak := fun _ _ e he => .of_on_disk (h e he)

/-- **One call**, whatever fails. -/
theorem Decoding.step (h : Decoding s.pak) (hr : Reached s) :
    Decoding (s.step df env c).2.pak := by
  have hout := hr.outcome df env c
  generalize (s.step df env c).2.pak = pak' at hout
  cases hout with
  | kept hfp hpak =>
    rw [hpak]
    exact fun hx => h (hfp hx)
  | pak hstate he =>
    obtain ⟨hformat, hsame, -⟩ := he.kept
    intro hfp hcls
    exact he.decodes hstate (h (hsame ▸ hfp) (hformat ▸ hcls))
  | zip hstate he => exact fun _ hcls => absurd hcls (hstate.effect he).not_pak_class
  | committed _ hnew => exact .of_on_disk hnew.on_disk
  | lost _ _ hfp =>
    intro hx
    rw [hfp] at hx
    cases hx

/-- **A run**, whatever fails. -/
theorem Decoding.run (calls : List (Env × Call)) {s : Session} (h : Decoding s.pak)
    (hr : Reached s) : Decoding (s.run df calls).pak := by
  induction calls generalizing s with
  | nil => exact h
  | cons p calls ih => exact ih (h.step hr) hr.step

/-- What is staged marks its handle dirty, and as long as a handle has its file the buffers are
what was recorded. -/
structure Recorded (df : Deflate) (pak : Archive) : Prop where
  dirty : ∀ e ∈ pak.entries, e.staged = true → pak.dirty = true
  buffers : pak.fp = true → pakka_format_is_zip pak.format = true →
    ∀ e ∈ pak.entries, BufferRecorded df e
  decodes : pak.fp = true → IsPakClass pak.format → ∀ e ∈ pak.entries, BufferDecodes e

theorem Recorded.of_on_disk {pak : Archive} (h : ∀ e ∈ pak.entries, e.staged = false) :
    Recorded df pak := by
  refine ⟨fun e he hs => ?_, fun _ _ e he => .of_on_disk (h e he), Decoding.of_on_disk h⟩
  rw [h e he] at hs
  cases hs

/-- **One call**, whatever fails. -/
theorem Recorded.step (hdf : df.Correct) (h : Recorded df s.pak) (hr : Reached s) :
    Recorded df (s.step df env c).2.pak := by
  have hout := hr.outcome df env c
  have hdecodes : Decoding (s.step df env c).2.pak := Decoding.step h.decodes hr
  generalize (s.step df env c).2.pak = pak' at hout hdecodes
  cases hout with
  | kept hfp hpak =>
    rw [hpak] at hdecodes ⊢
    exact ⟨h.dirty, fun hx => h.buffers (hfp hx), hdecodes⟩
  | pak hstate he =>
    refine ⟨fun e hmem hs => ?_, fun _ hz => ?_, hdecodes⟩
    · rcases he.dirty_or with hd | ⟨-, hd, hents, -⟩
      · exact hd
      · rw [hents] at hmem
        rw [hd]
        exact h.dirty e hmem hs
    · rw [he.kept.1, not_zip_of_geometry hstate.geometry] at hz
      cases hz
  | zip hstate he =>
    have hnext := hstate.effect he
    refine ⟨hnext.staged, fun hfp _ => ?_, hdecodes⟩
    have hold : s.pak.fp = true := by
      cases he with
      | add_file => exact hfp
      | add_memory => exact hfp
      | name hn => exact (hn.zip_flags hstate.zip).2.1 ▸ hfp
    exact he.recorded hdf hstate (h.buffers hold hstate.zip)
  | committed _ hnew => exact .of_on_disk hnew.on_disk
  | lost _ _ hfp hstaged =>
    rcases hstaged with hd | hs
    · refine ⟨fun _ _ _ => hd, fun hx => ?_, hdecodes⟩
      rw [hfp] at hx
      cases hx
    · exact .of_on_disk hs

/-- **A run**, whatever fails. -/
theorem Recorded.run (hdf : df.Correct) (calls : List (Env × Call)) {s : Session}
    (h : Recorded df s.pak) (hr : Reached s) : Recorded df (s.run df calls).pak := by
  induction calls generalizing s with
  | nil => exact h
  | cons p calls ih => exact ih (h.step hdf hr) hr.step

/-! ## Entries across a commit

Which entry after the commit is which one before it: the list keeps its order.
-/

/-- **Entry `k` across a commit** of a PAK-class handle. -/
theorem PakCommitted.entry {pak pak' : Archive} {disk' : Bytes} {geom : Geometry}
    (h : PakCommitted env disk pak disk' pak' geom) {k : ℕ} {e : Entry}
    (hk : pak.entries[k]? = some e) :
    ∃ e', pak'.entries[k]? = some e' ∧ e'.filename = e.filename ∧ e'.staged = false ∧
      pak_item (env.sources k) disk' e' = pak_item (env.sources k) disk e := by
  have hrow := congrArg (fun l => l[k]?) (h.listing env.sources)
  simp only [pak_listing, List.getElem?_mapIdx, hk, Option.map_some] at hrow
  obtain ⟨e', hk', hrow⟩ := Option.map_eq_some_iff.mp hrow
  obtain ⟨hname, hitem⟩ := Prod.mk.inj hrow
  exact ⟨e', hk', hname, h.on_disk e' (List.mem_of_getElem? hk'), hitem⟩

/-- **Entry `k` across a commit** of a ZIP handle. -/
theorem ZipCommitted.entry {pak pak' : Archive} {disk' : Bytes}
    (h : ZipCommitted env disk pak disk' pak') {k : ℕ} {e : Entry}
    (hk : pak.entries[k]? = some e) :
    ∃ x, (zip_placed env disk pak)[k]? = some x ∧
      pak'.entries[k]? = some { x.1 with pending_source := none, pending_data := none } ∧
      zip_row x = (e.filename, zip_item (env.sources k) disk e) := by
  have hrow := congrArg (fun l => l[k]?) (zip_placed_rows env disk pak)
  simp only [zip_listing, List.getElem?_mapIdx, List.getElem?_map, hk, Option.map_some] at hrow
  obtain ⟨x, hx, hrow⟩ := Option.map_eq_some_iff.mp hrow
  refine ⟨x, hx, ?_, hrow⟩
  rw [h.entries, drop_pending, List.getElem?_map, List.getElem?_map, hx]
  rfl

end Pakka
