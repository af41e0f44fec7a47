/-
Archives of every format as ordered lists of names and contents.

A PAK-class entry is worth the bytes in the file, or what they decode to where the format stores
compressed entries; a ZIP entry is worth what it inflates to. Here both families get one meaning:
`archive_contents` is the catalogue of a handle, each name with its decoded content, however that is
stored and whether it is staged or on disk.

Over this meaning the calls make the same edits in every format, and a commit leaves a file that
opens with what the handle was worth (`InOrder.step`, `InOrder.commit_opens`,
`OpensHolding.loaded`). This is what two sessions that follow each other on one file can be compared
by: the first one ends with a file that opens with some contents, and the second one starts with
them. The processes that share an archive are built on it.

The refinements of the two families are imported and only translated: the stored form of an item is
dropped with `mapValues`, which commutes with the edits.
-/
import Pakka.ZipRefinement

set_option autoImplicit false

namespace Pakka

open ByteImage Logged

/-- The entries of a handle by name, each with its decoded content, where the sources hold
`files`. -/
def archive_contents (df : Deflate) (files : CStr → Bytes) (disk : Bytes) (pak : Archive) :
    Catalogue CStr (Option Bytes) :=
  if pakka_format_is_zip pak.format = true then
    (Catalogue.of Entry.filename (zip_item files disk) pak.entries).mapValues (ZipItem.content df)
  else (Catalogue.of Entry.filename (pak_item files disk) pak.entries).mapValues PakItem.content

/-- The edit a call makes of names and contents. -/
def content_edit (files : CStr → Bytes) : Call → Catalogue.Edit CStr (Option Bytes) :=
  call_edit (fun _ src => some src) files

/-- A file opens under a hint, in any mode, and then has these names and contents. -/
def OpensHolding (df : Deflate) (file : Option Bytes) (hint : Format)
    (contents : Catalogue CStr (Option Bytes)) : Prop :=
  ∃ disk, file = some disk ∧
    ∀ (path : CStr) (mode : OpenMode), path.strlen < OS_PATH_MAX →
      ∃ pak, pakka_open_ex path mode hint (some disk) = .ok pak ∧
        ∀ files, archive_contents df files disk pak = contents

/-- The commit of a handle leaves no more entries than the loader takes. -/
def commit_countable (pak : Archive) : Prop :=
  if pakka_format_is_zip pak.format = true then pak.entries.length ≠ 0xFFFF
  else pak.entries.length ≤ PAKFILE_MAX_ENTRIES

/-- A handle in order on a file, under the hint it was opened with. -/
inductive InOrder (hint : Format) (disk : Bytes) (pak : Archive) : Prop where
  | pak {geom : Geometry} (h : PakLive hint geom False (Session.opened disk pak) disk) :
      InOrder hint disk pak
  | zip {format : Format} (hhint : hint = .auto ∨ hint = .pk3 ∨ hint = .pk4)
      (h : ZipLive format (Session.opened disk pak) disk)
      (hportable : ∀ e ∈ pak.entries, ZipPortable e) : InOrder hint disk pak

variable {df : Deflate} {hint : Format} {disk : Bytes} {pak : Archive} {files : CStr → Bytes}
  {c : Call}

/-! ## Sizes

Sizes are recorded in 32 bits. An item that was taken is therefore known to be shorter than 2^32
bytes, and only for such items is the recorded length the length of the content.
-/

/-- The bytes a call is to add. -/
def call_data (files : CStr → Bytes) : Call → Bytes
  | .add_file source_path _ => files source_path
  | .add_memory _ data => data
  | _ => []

/-- An edit of items is the edit of contents, where items have the content they are given. -/
theorem call_edit_mapValues {β γ : Type} (f : β → γ) {given : CStr → Bytes → β}
    {given' : CStr → Bytes → γ} (h : ∀ n, f (given n (call_data files c)) =
      given' n (call_data files c)) :
    (call_edit given files c).mapValues f = call_edit given' files c := by
  cases c with
  | add_file source_path entry_name => exact congrArg (Catalogue.Edit.add _) (h _)
  | add_memory entry_name data => exact congrArg (Catalogue.Edit.add _) (h _)
  | _ => rfl

/-- A PAK-class archive takes no more than its sizes can say. -/
theorem PakEffect.data_le {pak' : Archive} {log : List (FileOp FileId)}
    (h : PakEffect (Env.quiet files) pak c log pak') : (call_data files c).length ≤ UINT32_MAX := by
  have hadd : ∀ {p n stream len log pak'},
      PakAdded (Env.quiet files) pak p n stream len log pak' → len ≤ UINT32_MAX := by
    intro p n stream len log pak' ha
    cases ha with
    | staged _ hlen _ => exact hlen
    | source _ _ hlen _ => exact hlen
    | appended hlen _ _ _ => exact hlen
  cases h with
  | add_file _ _ hlen ha =>
    obtain rfl := Option.some.inj hlen
    exact hadd ha
  | add_memory _ ha => exact hadd ha
  | name hn => cases hn <;> exact Nat.zero_le _

/-- So does a ZIP archive. -/
theorem ZipEffect.data_le {pak' : Archive} (h : ZipEffect df (Env.quiet files) pak c pak') :
    (call_data files c).length ≤ UINT32_MAX := by
  have hadd : ∀ {method n p src e}, ZipAdded df (Env.quiet files) method n p src e →
      src.length ≤ UINT32_MAX := by
    intro method n p src e ha
    cases ha with
    | source _ hlen _ => exact hlen
    | captured hlen _ _ => exact hlen
  cases h with
  | add_file _ ha =>
    rw [call_data, ← ha.quiet_source]
    exact hadd ha
  | add_memory _ ha => exact hadd ha
  | name hn => cases hn <;> exact Nat.zero_le _

/-! ## Steps

A session is followed from one call to the next. `InOrder` is what is needed of a handle for that:
the invariant of its family, which says among others that the file holds what the list says.
-/

/-- The session after a call, as one that was opened with what it has. -/
theorem PakLive.reopened {format : Format} {geom : Geometry} {t : Prop} {s : Session}
    (h : PakLive format geom t s disk) :
    PakLive format geom t (Session.opened s.disk s.pak) s.disk := by
  rw [h.disk_eq]
  exact ⟨rfl, h.format, h.live, h.state, h.published⟩

theorem ZipLive.reopened {format : Format} {s : Session} (h : ZipLive format s disk) :
    ZipLive format (Session.opened s.disk s.pak) s.disk := by
  rw [h.disk_eq]
  exact ⟨rfl, h.format, h.state, h.named, h.published⟩

/-- **A call that succeeds** leaves the handle in order and makes its edit of the contents. Nothing
fails here and the sources hold what they are said to hold; what happens under faults is the
business of the atomicity results. -/
theorem InOrder.step (h : InOrder hint disk pak) (hdf : df.Correct)
    (hportable : pakka_format_is_zip pak.format = true → call_portable (Env.quiet files) c)
    (hok : ((Session.opened disk pak).step df (Env.quiet files) c).1 = .ok) :
    let s' := ((Session.opened disk pak).step df (Env.quiet files) c).2
    InOrder hint s'.disk s'.pak ∧
      archive_contents df files s'.disk s'.pak =
        Catalogue.edit (archive_contents df files disk pak) (content_edit files c) := by
  intro s'
  cases h with
  | @pak geom hl =>
    obtain ⟨disk', hl'⟩ := hl.step_ok hok
    have hz : pakka_format_is_zip pak.format = false := not_zip_of_geometry hl.state.geometry
    have hz' : pakka_format_is_zip s'.pak.format = false := not_zip_of_geometry hl'.state.geometry
    refine ⟨.pak hl'.reopened, ?_⟩
    have hlist := hl.step_listing hok
    rw [archive_contents, archive_contents, hz, hz', if_neg (by simp), if_neg (by simp)]
    change (Session.listing files s').mapValues _ = _
    rw [hlist, Catalogue.edit_mapValues]
    refine congrArg (Catalogue.edit _) ?_
    by_cases hc : c = .commit
    · subst hc
      rfl
    · have hle := (pak_call_ok hz hc hok).data_le
      exact call_edit_mapValues _ fun n => (given_item_content hint n hle).1
  | @zip format hhint hl hp =>
    obtain ⟨disk', hl'⟩ := hl.step_ok hok
    have hz : pakka_format_is_zip pak.format = true := hl.state.zip
    have hz' : pakka_format_is_zip s'.pak.format = true := hl'.state.zip
    refine ⟨.zip hhint hl'.reopened (hl.step_portable hp (hportable hz) hok), ?_⟩
    have hlist := congrArg ZipCatalogue.listing (hl.step_catalogue hok)
    rw [archive_contents, archive_contents, if_pos hz, if_pos hz']
    change (s'.zip_catalogue files).listing.mapValues _ = _
    rw [hlist]
    change (Catalogue.edit (Session.zip_catalogue files (Session.opened disk pak)).listing
      (call_edit (fun _ src => zip_given_item df pak.pk3_compression src) files c)).mapValues _ = _
    rw [Catalogue.edit_mapValues]
    refine congrArg (Catalogue.edit _) ?_
    by_cases hc : c = .commit
    · subst hc
      rfl
    · have hle := (zip_call_ok df (Env.quiet files) _ hz hc hok).data_le
      exact call_edit_mapValues _ fun n => (zip_given_item_content hdf _ hle).1

/-- **A commit that succeeds** leaves a file that opens with the contents of the handle. -/
theorem InOrder.commit_opens (h : InOrder hint disk pak) (hmax : commit_countable pak)
    (hok : ((Session.opened disk pak).step df (Env.quiet files) .commit).1 = .ok) :
    OpensHolding df (((Session.opened disk pak).step df (Env.quiet files) .commit).2.files .live) hint
      (archive_contents df files disk pak) := by
  have hstep : (Session.opened disk pak).step df (Env.quiet files) .commit =
      (.ok, ((Session.opened disk pak).step df (Env.quiet files) .commit).2) := Prod.ext hok rfl
  cases h with
  | @pak geom hl =>
    have hz : pakka_format_is_zip pak.format = false := not_zip_of_geometry hl.state.geometry
    rw [commit_countable, hz, if_neg (by simp)] at hmax
    obtain ⟨-, disk', hfile, hopen⟩ := hl.commit_opens (fun _ hx => hx) hmax hstep
    refine ⟨disk', hfile, fun path mode hpath => ?_⟩
    obtain ⟨pak', hpak', hlist⟩ := hopen path mode hpath
    refine ⟨pak', hpak', fun files' => ?_⟩
    have hcls : IsPakClass hint := by
      have := hl.state.geometry
      rw [show (Session.opened disk pak).pak.format = hint from hl.format] at this
      exact Option.isSome_iff_exists.mpr ⟨_, this⟩
    obtain ⟨g, hg⟩ := Option.isSome_iff_exists.mp hcls
    have hz' : pakka_format_is_zip pak'.format = false := by
      obtain ⟨-, diroffset, dirlength, -, rfl⟩ := (open_pak_iff hg).mp hpak'
      exact not_zip_of_geometry hg
    have h1 := hlist fun _ => files'
    rw [pak_listing_eq_of] at h1
    rw [archive_contents, archive_contents, hz, hz', if_neg (by simp), if_neg (by simp), h1,
      ← pak_listing_eq_of]
    rfl
  | @zip format hhint hl hp =>
    have hz : pakka_format_is_zip pak.format = true := hl.state.zip
    rw [commit_countable, if_pos hz] at hmax
    obtain ⟨-, -, disk', hfile, hopen⟩ := hl.commit_opens hp hmax hstep
    refine ⟨disk', hfile, fun path mode hpath => ?_⟩
    obtain ⟨pak', hpak', hz', -, hlist⟩ := hopen path mode hint hpath hhint
    refine ⟨pak', hpak', fun files' => ?_⟩
    have h1 := hlist fun _ => files'
    rw [zip_listing_eq_of] at h1
    rw [archive_contents, archive_contents, if_pos hz, if_pos hz', h1, ← zip_listing_eq_of]
    rfl

/-- **A file that opens with some contents** gives a handle in order with these contents. -/
theorem OpensHolding.loaded {contents : Catalogue CStr (Option Bytes)} {path : CStr}
    {mode : OpenMode}
    (h : OpensHolding df (some disk) hint contents) (hhint : hint ≠ .auto)
    (hopen : pakka_open_ex path mode hint (some disk) = .ok pak) :
    InOrder hint disk pak ∧ ∀ files, archive_contents df files disk pak = contents := by
  obtain ⟨_, hd, hall⟩ := h
  obtain rfl := Option.some.inj hd
  have hpath : path.strlen < OS_PATH_MAX := by
    by_contra hlong
    unfold pakka_open_ex at hopen
    rw [if_pos (by omega)] at hopen
    cases hopen
  obtain ⟨pak', hpak', hcontents⟩ := hall path mode hpath
  obtain rfl := Except.ok.inj (hopen.symm.trans hpak')
  refine ⟨?_, hcontents⟩
  rcases open_format_class hopen with hz | hcls
  · exact .zip (open_zip_hint hopen hz) (ZipLive.opened hopen hz)
      ((Session.Started.opened hopen).portable hz)
  · have hcls' : IsPakClass pak.format := Option.isSome_iff_exists.mpr hcls
    obtain ⟨geom, hl⟩ := PakLive.opened hopen hcls'
    have hformat : pak.format = hint := by
      rcases open_pak_class_hint hcls' hopen with hh | ⟨hauto, -⟩
      · obtain ⟨g, hg⟩ := Option.isSome_iff_exists.mp hh
        obtain ⟨-, diroffset, dirlength, -, rfl⟩ := (open_pak_iff hg).mp hopen
        rfl
      · exact absurd hauto hhint
    rw [hformat] at hl
    exact .pak hl

end Pakka
