/-
The invariant of a ZIP handle between calls, and the list it stands for.

`ZipState n pak` is what every commit relies on when the archive file has `n` bytes. It says
nothing about names but that they do not repeat: a name the API accepts need not be one the
loader takes, so what a file needs to open again is `ZipReadable`, kept apart.

An entry is on disk with its header and payload in the file, or staged with its bytes or a path to
them, and never both.
-/
import Pakka.ZipEffect
import Pakka.HandleList
import Pakka.ZipLoaderInvariant

set_option autoImplicit false

namespace Pakka

open ByteImage Logged

/-! ## The invariant

Kept by every effect of a call.
-/

/-- An entry of a ZIP handle whose file has `n` bytes. -/
structure ZipEntryOk (n : ℕ) (e : Entry) : Prop where
  method : e.pk3_method = PK3_METHOD_STORED ∨ e.pk3_method = PK3_METHOD_DEFLATE
  stored : e.pk3_method = PK3_METHOD_STORED → e.pk3_compressed_size = e.length
  one_stage : e.pending_source = none ∨ e.pending_data = none
  data : ∀ d, e.pending_data = some d → e.pk3_compressed_size.toNat = d.length
  source : e.pending_source.isSome = true → e.pk3_method = PK3_METHOD_STORED
  in_file : e.staged = false → e.pk3_payload_offset.toNat + e.pk3_compressed_size.toNat ≤ n
  name_fits : e.filename.strlen < PAKKA_ENTRY_NAME_SIZE

/-- A ZIP handle whose file has `n` bytes. -/
structure ZipState (n : ℕ) (pak : Archive) : Prop where
  zip : pakka_format_is_zip pak.format = true
  linked : Linked pak
  entries : ∀ e ∈ pak.entries, ZipEntryOk n e
  staged : ∀ e ∈ pak.entries, e.staged = true → pak.dirty = true
  rebuild : pak.dirty = true → pak.needs_rebuild = true

theorem zip_not_wad {f : Format} (h : pakka_format_is_zip f = true) :
    pakka_format_is_wad f = false := by
  cases f <;> first | rfl | cases h

/-- A ZIP handle is of no PAK-class format. -/
theorem ZipState.not_pak_class {n : ℕ} {pak : Archive} (h : ZipState n pak) :
    ¬ IsPakClass pak.format := by
  intro hc
  obtain ⟨geom, hg⟩ := Option.isSome_iff_exists.mp hc
  have hz := not_zip_of_geometry hg
  rw [h.zip] at hz
  cases hz

/-- What an add links is in order. -/
theorem ZipAdded.entry_ok {df : Deflate} {env : Env} {method : UInt16} {entry_name : CStr}
    {source_path : Option CStr} {src : Bytes} {e : Entry} (n : ℕ)
    (h : ZipAdded df env method entry_name source_path src e)
    (hname : entry_name.strlen < PAKKA_ENTRY_NAME_SIZE) :
    ZipEntryOk n e ∧ e.filename = entry_name ∧ e.staged = true := by
  have hword : ∀ k, k ≤ UINT32_MAX → (UInt32.ofNat k).toNat = k := by
    intro k hk
    rw [UInt32.toNat_ofNat', Nat.mod_eq_of_lt (by simp only [UINT32_MAX] at hk; omega)]
  cases h with
  | source hview hlen hplain =>
    refine ⟨⟨Or.inl rfl, fun _ => rfl, Or.inr rfl, ?_, fun _ => rfl, ?_, hname⟩, rfl, rfl⟩
    · intro d hd
      cases hd
    · intro hs
      cases hs
  | @captured _ src enc hlen hsource henc =>
    cases enc with
    | none =>
      refine ⟨⟨Or.inl rfl, fun _ => rfl, Or.inl rfl, ?_, fun _ => rfl, ?_, hname⟩, rfl, rfl⟩
      · intro d hd
        obtain rfl := Option.some.inj hd
        exact hword _ hlen
      · intro hs
        cases hs
    | some b =>
      have hb : b.length < src.length := by
        unfold pk3_encode at henc
        split_ifs at henc
        · exact df.compress_smaller henc
        · cases henc
      refine ⟨⟨Or.inr rfl, ?_, Or.inl rfl, ?_, ?_, ?_, hname⟩, rfl, rfl⟩
      · intro hm
        cases hm
      · intro d hd
        obtain rfl := Option.some.inj hd
        exact hword _ (by omega)
      · intro hx
        cases hx
      · intro hs
        cases hs

/-- A name that passes the preflight of a ZIP archive fits the name buffer. -/
theorem zip_name_fits {pak : Archive} {name : CStr} (hz : pakka_format_is_zip pak.format = true)
    (h : pak_add_preflight pak name = .ok ()) : name.strlen < PAKKA_ENTRY_NAME_SIZE := by
  obtain ⟨hlen, -, -⟩ := pak_add_preflight_ok.mp h
  rw [entry_name_too_long, zip_not_wad hz, if_neg (by simp), pak_entry_name_cap, if_pos hz,
    decide_eq_false_iff_not] at hlen
  omega

/-- A renamed entry is in order. -/
theorem ZipEntryOk.renamed {n : ℕ} {e : Entry} (h : ZipEntryOk n e) {name : CStr}
    (hname : name.strlen < PAKKA_ENTRY_NAME_SIZE) : ZipEntryOk n { e with filename := name } :=
  ⟨h.method, h.stored, h.one_stage, h.data, h.source, h.in_file, hname⟩

/-- A copied entry is in order. -/
theorem ZipEntryOk.copied {n : ℕ} {e : Entry} (h : ZipEntryOk n e) {name : CStr}
    (hname : name.strlen < PAKKA_ENTRY_NAME_SIZE) : ZipEntryOk n (copied_entry e name) := by
  cases hs : e.staged with
  | false =>
    have hc : copied_entry e name = { e with filename := name } := by
      rw [copied_entry, hs, if_neg (by simp)]
    rw [hc]
    exact h.renamed hname
  | true =>
    have hstaged : ¬ (copied_entry e name).staged = false := by
      rw [copied_entry_staged, hs]
      simp
    refine ⟨?_, ?_, ?_, ?_, ?_, fun hx => absurd hx hstaged, ?_⟩ <;>
      rw [copied_entry, if_pos hs]
    · exact h.method
    · exact h.stored
    · rcases h.one_stage with h1 | h1
      · simp [h1]
      · exact Or.inr h1
    · exact h.data
    · intro hx
      apply h.source
      simp only at hx
      split_ifs at hx with hd
      · cases hx
      · exact hx
    · exact hname

/-- **What the calls that name an existing entry do to the flags** of a ZIP handle. -/
theorem NameEffect.zip_flags {pak pak' : Archive} {c : Call} (h : NameEffect pak c pak')
    (hz : pakka_format_is_zip pak.format = true) :
    pak'.format = pak.format ∧ pak'.fp = pak.fp ∧ pak'.is_new = pak.is_new ∧
      (pak'.dirty = true ∧ pak'.needs_rebuild = true ∨
        pak'.dirty = pak.dirty ∧ pak'.needs_rebuild = pak.needs_rebuild ∧
          pak'.entries = pak.entries ∧ pak'.pk3_cdr_offset = pak.pk3_cdr_offset) := by
  cases h with
  | delete => exact ⟨rfl, rfl, rfl, Or.inl ⟨rfl, rfl⟩⟩
  | same => exact ⟨rfl, rfl, rfl, Or.inr ⟨rfl, rfl, rfl, rfl⟩⟩
  | rename => exact ⟨rfl, rfl, rfl, Or.inl ⟨rfl, by simp [with_name, hz]⟩⟩
  | copy =>
    rw [pak_link_copy_entry_eq]
    exact ⟨rfl, rfl, rfl, Or.inl ⟨rfl, by simp [hz]⟩⟩
  | set_compression => exact ⟨rfl, rfl, rfl, Or.inr ⟨rfl, rfl, rfl, rfl⟩⟩

/-- The mutators that take the name of an existing entry keep the invariant. -/
theorem ZipState.name_effect {n : ℕ} {pak pak' : Archive} {c : Call} (h : ZipState n pak)
    (hc : NameEffect pak c pak') : ZipState n pak' := by
  obtain ⟨hf, -, -, hflags⟩ := hc.zip_flags h.zip
  refine ⟨by rw [hf]; exact h.zip, h.linked.name_effect hc, ?_, ?_, ?_⟩
  · refine hc.forall_entries h.linked h.entries ?_ ?_
    · exact fun e he m _ hm => (h.entries e he).renamed (zip_name_fits h.zip hm)
    · exact fun e he m _ hm => (h.entries e he).copied (zip_name_fits h.zip hm)
  · intro e he hs
    rcases hflags with ⟨hd, -⟩ | ⟨hd, -, hents, -⟩
    · exact hd
    · rw [hd]
      exact h.staged e (hents ▸ he) hs
  · intro hd'
    rcases hflags with ⟨-, hr⟩ | ⟨hd, hr, -⟩
    · exact hr
    · rw [hr]
      exact h.rebuild (hd ▸ hd')

/-- Adds keep the invariant. -/
theorem ZipState.added {n : ℕ} {pak : Archive} {df : Deflate} {env : Env} {method : UInt16}
    {entry_name : CStr} {source_path : Option CStr} {src : Bytes} {e : Entry} (h : ZipState n pak)
    (hname : pak_add_preflight pak entry_name = .ok ())
    (ha : ZipAdded df env method entry_name source_path src e) :
    ZipState n (pk3_link_pending_entry pak e) := by
  obtain ⟨hok, hfile, -⟩ := ha.entry_ok n (zip_name_fits h.zip hname)
  have hlink : Linked (link_entry pak e) := by
    apply h.linked.link
    rw [hfile]
    exact (pak_add_preflight_ok.mp hname).2.2
  refine ⟨h.zip, hlink.congr rfl rfl rfl rfl, ?_, fun _ _ _ => rfl, fun _ => rfl⟩
  intro x hx
  change x ∈ (link_entry pak e).entries at hx
  rw [h.linked.link_entries, List.mem_append, List.mem_singleton] at hx
  rcases hx with hx | rfl
  · exact h.entries x hx
  · exact hok

/-- **Every call but a commit keeps the invariant.** -/
theorem ZipState.effect {n : ℕ} {pak pak' : Archive} {df : Deflate} {env : Env} {c : Call}
    (h : ZipState n pak) (he : ZipEffect df env pak c pak') : ZipState n pak' := by
  cases he with
  | add_file hname ha => exact h.added hname ha
  | add_memory hname ha => exact h.added hname ha
  | name hn => exact h.name_effect hn

/-! ## The listing

Items as the format stores them: method, bytes, recorded numbers.
-/

/-- What a ZIP archive says of an entry besides its name. -/
structure ZipItem where
  method : UInt16
  crc32 : UInt32
  compressed_size : UInt32
  length : UInt32
  stored : Bytes
  deriving DecidableEq

/-- The bytes stored for an entry: those on disk, or those a commit is to put there. -/
def zip_stored (sources : CStr → Bytes) (disk : Bytes) (e : Entry) : Bytes :=
  match e.pending_source, e.pending_data with
  | some path, _ => (sources path).take e.pk3_compressed_size.toNat
  | none, some data => data
  | none, none => slice disk e.pk3_payload_offset.toNat e.pk3_compressed_size.toNat

/-- An entry's item. -/
def zip_item (sources : CStr → Bytes) (disk : Bytes) (e : Entry) : ZipItem :=
  { method := e.pk3_method
    crc32 := e.crc32
    compressed_size := e.pk3_compressed_size
    length := e.length
    stored := zip_stored sources disk e }

/-- Names and items of a list of entries, the staged sources as a commit finds them. -/
def zip_listing (sources : ℕ → CStr → Bytes) (disk : Bytes) (es : List Entry) :
    Catalogue CStr ZipItem :=
  es.mapIdx fun i e => (e.filename, zip_item (sources i) disk e)

/-- The item of an entry that is given the content `src` under a compression method. -/
def zip_given_item (df : Deflate) (method : UInt16) (src : Bytes) : ZipItem :=
  match pk3_encode df method src with
  | .ok (some enc) =>
    ⟨PK3_METHOD_DEFLATE, crc32_of src, UInt32.ofNat enc.length, UInt32.ofNat src.length, enc⟩
  | _ => ⟨PK3_METHOD_STORED, crc32_of src, UInt32.ofNat src.length, UInt32.ofNat src.length, src⟩

/-- A name does not show in an item. -/
theorem zip_item_renamed (sources : CStr → Bytes) (disk : Bytes) (e : Entry) (name : CStr) :
    zip_item sources disk { e with filename := name } = zip_item sources disk e := rfl

/-- A copy of an entry in order has its item. -/
theorem zip_item_copied {n : ℕ} {e : Entry} (h : ZipEntryOk n e) (sources : CStr → Bytes)
    (disk : Bytes) (name : CStr) :
    zip_item sources disk (copied_entry e name) = zip_item sources disk e := by
  cases hs : e.staged with
  | false =>
    have hc : copied_entry e name = { e with filename := name } := by
      rw [copied_entry, hs, if_neg (by simp)]
    rw [hc, zip_item_renamed]
  | true =>
    rw [copied_entry, if_pos hs]
    rcases h.one_stage with h1 | h1
    · cases hd : e.pending_data with
      | none => simp [Entry.staged, h1, hd] at hs
      | some d => simp [zip_item, zip_stored, h1, hd]
    · obtain ⟨path, hp⟩ : ∃ path, e.pending_source = some path := by
        simpa [Entry.staged, h1, Option.isSome_iff_exists] using hs
      simp [zip_item, zip_stored, h1, hp]

/-- **The item of an add**, as long as the source it staged still holds what it saw. -/
theorem ZipAdded.item {df : Deflate} {env : Env} {method : UInt16} {entry_name : CStr}
    {source_path : Option CStr} {src : Bytes} {e : Entry}
    (h : ZipAdded df env method entry_name source_path src e) {sources : CStr → Bytes}
    (hsource : ∀ path, source_path = some path → sources path = src) (disk : Bytes) :
    zip_item sources disk e = zip_given_item df method src := by
  cases h with
  | source hview hlen hplain =>
    have henc : pk3_encode df method src = .ok none := if_neg hplain
    have hl : (UInt32.ofNat src.length).toNat = src.length := by
      rw [UInt32.toNat_ofNat', Nat.mod_eq_of_lt (by simp only [UINT32_MAX] at hlen; omega)]
    simp only [zip_given_item, henc, zip_item, zip_stored, pk3_new_entry, hsource _ rfl, hl,
      List.take_length]
  | @captured _ _ enc hlen hs henc =>
    rw [zip_given_item, henc]
    cases enc <;> rfl

end Pakka
