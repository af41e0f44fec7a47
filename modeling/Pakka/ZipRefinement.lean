/-
ZIP archives as ordered lists.

The abstract archive is a catalogue and the method of later adds. Calls make the edits they make
of a PAK-class archive, except that an add stores its content by the method set before it. A
session whose calls succeed follows this call by call, and what its last commit publishes opens
with the result: what the writer puts into a local header, a central record and the end record,
the loader finds there and agrees with.

A method that was set holds for the adds that follow, so it is a part of the abstract state. What is
stored under it is up to the backend, which may decline; the item then says so.
-/
import Pakka.ZipReopen
import Pakka.PakRefinement

set_option autoImplicit false

namespace Pakka

open ByteImage Logged

/-! ## The abstract archive

Contents with the method they are stored by, and the method of the next add.
-/

/-- A ZIP archive for its user: what it lists, and how the next add stores. -/
structure ZipCatalogue where
  compression : UInt16
  listing : Catalogue CStr ZipItem

/-- What a call makes of it, where the sources hold `files`. -/
def ZipCatalogue.call (df : Deflate) (files : CStr → Bytes) (a : ZipCatalogue) (c : Call) :
    ZipCatalogue :=
  { compression := match c with
      | .set_compression method => method
      | _ => a.compression
    listing := Catalogue.edit a.listing
      (call_edit (fun _ src => zip_given_item df a.compression src) files c) }

/-- The logical content of an item: what is stored, or what it inflates to, when that uses all of
it and has the length recorded. -/
def ZipItem.content (df : Deflate) (x : ZipItem) : Option Bytes :=
  if x.method = PK3_METHOD_STORED then some x.stored
  else
    match df.inflate x.stored x.length.toNat with
    | .ok (out, used) =>
      if used = x.stored.length ∧ out.length = x.length.toNat then some out else none
    | .error _ => none

/-- **An add stores its content**, whichever method it takes, and records its size and checksum. -/
theorem zip_given_item_content {df : Deflate} (hdf : df.Correct) (method : UInt16) {src : Bytes}
    (h : src.length ≤ UINT32_MAX) :
    (zip_given_item df method src).content df = some src ∧
      (zip_given_item df method src).length.toNat = src.length ∧
      (zip_given_item df method src).compressed_size.toNat =
        (zip_given_item df method src).stored.length ∧
      (zip_given_item df method src).crc32 = crc32_of src := by
  have hlen := ofNat_toNat_of_le h
  unfold zip_given_item
  split
  · rename_i enc henc
    have hcomp : df.compress src = .ok (some enc) := by
      unfold pk3_encode at henc
      split_ifs at henc
      · exact henc
      · cases henc
    have hsmall := df.compress_smaller hcomp
    have hsize : (UInt32.ofNat enc.length).toNat = enc.length :=
      ofNat_toNat_of_le (Nat.le_trans (Nat.le_of_lt hsmall) h)
    refine ⟨?_, hlen, hsize, rfl⟩
    have hmethod : ¬ PK3_METHOD_DEFLATE = PK3_METHOD_STORED := by decide
    unfold ZipItem.content
    rw [if_neg hmethod]
    simp only [hlen, hdf hcomp, and_self, if_true]
  · exact ⟨rfl, hlen, hlen, rfl⟩

/-! ## Sessions

Call by call, and then what the last commit publishes.
-/

/-- The abstract archive of a session whose sources hold `files`. -/
def Session.zip_catalogue (files : CStr → Bytes) (s : Session) : ZipCatalogue :=
  ⟨s.pak.pk3_compression, Catalogue.of Entry.filename (zip_item files s.disk) s.pak.entries⟩

/-- The listing a commit works with, where every pass finds the same sources. -/
theorem zip_listing_eq_of (files : CStr → Bytes) (disk : Bytes) (es : List Entry) :
    zip_listing (fun _ => files) disk es =
      Catalogue.of Entry.filename (zip_item files disk) es := by
  refine List.ext_getElem? fun k => ?_
  simp only [zip_listing, Catalogue.of, List.getElem?_mapIdx, List.getElem?_map]

variable {df : Deflate} {format : Format} {files : CStr → Bytes} {s : Session} {disk : Bytes}
  {c : Call}

/-- While the sources stay as they are, an add sees what they hold. -/
theorem ZipAdded.quiet_source {method : UInt16} {entry_name path : CStr} {src : Bytes} {e : Entry}
    (h : ZipAdded df (Env.quiet files) method entry_name (some path) src e) : src = files path := by
  cases h with
  | source hview => exact (Option.some.inj hview).symm
  | captured _ hsource =>
    obtain ⟨first, second, h1, h2, h3⟩ := hsource path rfl
    obtain rfl := Option.some.inj h1
    obtain rfl := Option.some.inj h2
    rw [readExact_of_le (by omega), slice_full] at h3
    exact (Option.some.inj h3).symm

/-- An add appends what it is given. -/
theorem ZipState.added_listing {n : ℕ} {pak : Archive} {source_path : Option CStr}
    {entry_name : CStr} {src : Bytes} {e : Entry} (h : ZipState n pak)
    (ha : ZipAdded df (Env.quiet files) pak.pk3_compression entry_name source_path src e)
    (hpath : ∀ path, source_path = some path → files path = src) (disk : Bytes) :
    Catalogue.of Entry.filename (zip_item files disk) (pk3_link_pending_entry pak e).entries =
      Catalogue.add (Catalogue.of Entry.filename (zip_item files disk) pak.entries) entry_name
        (zip_given_item df pak.pk3_compression src) := by
  have hents : (pk3_link_pending_entry pak e).entries = pak.entries ++ [e] :=
    h.linked.link_entries e
  rw [hents, Catalogue.of_append]
  simp only [Catalogue.of, List.map_cons, List.map_nil, ha.length.1, ha.item hpath disk,
    Catalogue.add]

/-- **A call that succeeds does what it stands for.** -/
theorem ZipLive.step_catalogue (h : ZipLive format s disk)
    (hok : (s.step df (Env.quiet files) c).1 = .ok) :
    (s.step df (Env.quiet files) c).2.zip_catalogue files =
      (s.zip_catalogue files).call df files c := by
  have hdisk := h.disk_eq
  by_cases hc : c = .commit
  · subst hc
    have hstep : s.step df (Env.quiet files) .commit =
        (.ok, (s.step df (Env.quiet files) .commit).2) := Prod.ext hok rfl
    rcases h.commit_cases hstep with ⟨-, hs⟩ | ⟨disk', hfile, hcom⟩
    · rw [hs]
      rfl
    · have hdisk' : (s.step df (Env.quiet files) .commit).2.disk = disk' := by
        rw [Session.disk, hfile]
        rfl
      have hlist := hcom.listing fun _ => files
      rw [Session.zip_catalogue, hcom.compression, hdisk', ← zip_listing_eq_of, hlist,
        Session.zip_catalogue, hdisk, ← zip_listing_eq_of]
      rfl
  · have he := zip_call_ok df (Env.quiet files) s.disk h.state.zip hc hok
    have hlog := zip_call_log df (Env.quiet files) s.disk s.pak c h.state.zip hc
    have hdisk' : (s.step df (Env.quiet files) c).2.disk = s.disk := by
      change (FileOp.run s.files
        (pakka_call df (Env.quiet files) s.disk s.pak c).log .live).getD [] = _
      rw [hlog]
      rfl
    have hpak : (s.step df (Env.quiet files) c).2.pak =
        (pakka_call df (Env.quiet files) s.disk s.pak c).pak := rfl
    rw [Session.zip_catalogue, hdisk', hpak]
    generalize (pakka_call df (Env.quiet files) s.disk s.pak c).pak = pak' at he ⊢
    cases he with
    | add_file hname ha =>
      rw [h.state.added_listing ha (fun path hp => by
        obtain rfl := Option.some.inj hp
        exact ha.quiet_source.symm), ha.quiet_source]
      rfl
    | add_memory hname ha =>
      rw [h.state.added_listing ha (fun path hp => by cases hp)]
      rfl
    | name hn =>
      rw [hn.edits h.state.linked.tail (fun _ _ => rfl)
        (fun e he n => zip_item_copied (h.state.entries e he) files s.disk n)
        (fun _ src => zip_given_item df s.pak.pk3_compression src) files]
      cases hn with
      | copy =>
        rw [pak_link_copy_entry_eq]
        rfl
      | _ => rfl

/-- **A run of calls that succeed** does what they stand for, one after the other. -/
theorem ZipLive.run_catalogue (calls : List Call) {s s' : Session} {disk : Bytes}
    (h : ZipLive format s disk)
    (hrun : s.runOk df (calls.map fun c => (Env.quiet files, c)) = some s') :
    s'.zip_catalogue files = calls.foldl (ZipCatalogue.call df files) (s.zip_catalogue files) := by
  induction calls generalizing s disk with
  | nil =>
    obtain rfl := Option.some.inj hrun
    rfl
  | cons c calls ih =>
    rw [List.map_cons, Session.runOk] at hrun
    split_ifs at hrun with hok
    obtain ⟨disk', h'⟩ := h.step_ok hok
    rw [ih h' hrun, h.step_catalogue hok]
    rfl

/-- **ZIP archives refine ordered lists.** For every ZIP archive that opens or is created, and every
sequence of calls that succeed (nothing fails, the sources hold `files`, names are UTF-8 and no
length is the mark of a larger format), a commit that succeeds on a handle of fewer than 65535
entries publishes a file that opens with exactly the listing the calls stand for: the same entries
in order, with their names, methods, checksums, sizes and stored bytes. A close that succeeds then
leaves this at the archive path. What an add gives an entry has the added bytes for its content. -/
theorem zip_refines_catalogue (df : Deflate) (hdf : df.Correct) (files : CStr → Bytes)
    (s s₁ s₂ : Session) (calls : List Call) (hstart : Session.Started s)
    (hzip : pakka_format_is_zip s.pak.format = true)
    (hcalls : ∀ c ∈ calls, call_portable (Env.quiet files) c)
    (hrun : s.runOk df (calls.map fun c => (Env.quiet files, c)) = some s₁)
    (hcount : s₁.pak.entries.length < 0xFFFF)
    (hcommit : s₁.step df (Env.quiet files) .commit = (.ok, s₂)) :
    let final := (calls.foldl (ZipCatalogue.call df files) (s.zip_catalogue files)).listing
    ZipOpensWith (s₂.files .live) final ∧
      (∀ env, (s₂.close env).1 = .ok () →
        ZipOpensWith ((s₂.close env).2 s₂.archive_file) final) ∧
      ∀ method src, src.length ≤ UINT32_MAX →
        (zip_given_item df method src).content df = some src ∧
          (zip_given_item df method src).length.toNat = src.length ∧
          (zip_given_item df method src).compressed_size.toNat =
            (zip_given_item df method src).stored.length ∧
          (zip_given_item df method src).crc32 = crc32_of src := by
  intro final
  obtain ⟨disk, hlive⟩ := hstart.zip_live hzip
  obtain ⟨disk₁, hlive₁⟩ := hlive.runOk _ hrun
  have hportable := hlive.runOk_portable _ (hstart.portable hzip) (by
    intro p hp
    obtain ⟨c, hc, rfl⟩ := List.mem_map.mp hp
    exact hcalls c hc) hrun
  have hlisting : zip_listing (Env.quiet files).sources disk₁ s₁.pak.entries = final := by
    have hcat := congrArg ZipCatalogue.listing (hlive.run_catalogue calls hrun)
    refine Eq.trans ?_ hcat
    rw [Session.zip_catalogue, hlive₁.disk_eq, ← zip_listing_eq_of]
    rfl
  obtain ⟨hclean, -, hopens⟩ := hlive₁.commit_opens hportable (by omega) hcommit
  rw [hlisting] at hopens
  refine ⟨hopens, fun env hclose => ?_,
    fun method src hsrc => zip_given_item_content hdf method hsrc⟩
  rw [Session.close_clean hclean hclose]
  exact hopens

/-- The refinement at a created archive: an entry is added, copied and renamed. -/
theorem zip_refines_catalogue_copy :
    let a : CStr := ⟨ascii "a", by decide⟩
    let b : CStr := ⟨ascii "b", by decide⟩
    let c : CStr := ⟨ascii "c", by decide⟩
    let s₁ := created_pk3.run .storing
      ([.set_compression PK3_METHOD_DEFLATE, add_a, .copy a b, .rename a c].map
        fun x => (calm_env, x))
    let s₂ := (s₁.step .storing calm_env .commit).2
    ZipOpensWith (s₂.files .live)
      [(c, zip_given_item .storing PK3_METHOD_DEFLATE [1]),
        (b, zip_given_item .storing PK3_METHOD_DEFLATE [1])] := by
  intro a b c s₁ s₂
  have hportable : ∀ x ∈ [.set_compression PK3_METHOD_DEFLATE, add_a, .copy a b, .rename a c],
      call_portable (Env.quiet fun _ => []) x := by
    simp only [List.forall_mem_cons, List.not_mem_nil, IsEmpty.forall_iff, implies_true, and_true]
    have hutf8 : ∀ n : Bytes, n = ascii "a" ∨ n = ascii "b" ∨ n = ascii "c" →
        pakka_is_valid_utf8 n = true := by
      rintro n (rfl | rfl | rfl) <;> decide +kernel
    exact ⟨trivial, ⟨hutf8 _ (Or.inl rfl), by decide⟩, hutf8 _ (Or.inr (Or.inl rfl)),
      hutf8 _ (Or.inr (Or.inr rfl))⟩
  have h := (zip_refines_catalogue .storing Deflate.storing_correct (fun _ => []) created_pk3 s₁ s₂
    [.set_compression PK3_METHOD_DEFLATE, add_a, .copy a b, .rename a c] created_pk3_started
    (by decide) hportable (Session.runOk_eq_run (by decide +kernel)) (by decide +kernel)
    (Prod.ext (by decide +kernel) rfl)).1
  have hfinal : (([.set_compression PK3_METHOD_DEFLATE, add_a, .copy a b, .rename a c].foldl
      (ZipCatalogue.call .storing fun _ => []) (created_pk3.zip_catalogue fun _ => [])).listing) =
      [(c, zip_given_item .storing PK3_METHOD_DEFLATE [1]),
        (b, zip_given_item .storing PK3_METHOD_DEFLATE [1])] := by
    decide +kernel
  rw [← hfinal]
  exact h

end Pakka
