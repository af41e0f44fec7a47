/-
PAK-class archives as ordered lists.

The abstract archive is a catalogue: names with items, in order. Adding appends the given
content in the form the format stores it, deleting and renaming mean the first entry of a name,
copying appends what the first entry of a name has, and a commit changes nothing. A session
whose calls succeed follows these edits call by call, and what its last commit publishes opens
with their result.

Items are what the format stores, so the refinement is exact: the published file has these stored
bytes and no others. That they decode to what was added is a property of the item, and the statement
says it too.
-/
import Pakka.PakClose

set_option autoImplicit false

namespace Pakka

open ByteImage Logged

/-! ## Edits

The edit a call stands for, and what a given content becomes in the format.
-/

/-- The edit a call stands for, given what an add makes of its content. -/
def call_edit {β : Type} (given : CStr → Bytes → β) (files : CStr → Bytes) :
    Call → Catalogue.Edit CStr β
  | .add_file source_path entry_name => .add entry_name (given entry_name (files source_path))
  | .add_memory entry_name data => .add entry_name (given entry_name data)
  | .delete entry_name => .remove entry_name
  | .rename old_name new_name => .rename old_name new_name
  | .copy src_name dst_name => .copy src_name dst_name
  | .set_compression _ => .keep
  | .commit => .keep

/-- The logical content of an item: what is stored, or what it decodes to. -/
def PakItem.content (x : PakItem) : Option Bytes :=
  if x.dk_is_compressed then
    match pakka_dk_inflate x.stored x.length.toNat with
    | .ok out => some out
    | .error _ => none
  else some x.stored

/-- **An add stores its content**, whichever form it takes. -/
theorem given_item_content (format : Format) (entry_name : CStr) {src : Bytes}
    (h : src.length ≤ UINT32_MAX) :
    (given_item format entry_name src).content = some src ∧
      (given_item format entry_name src).length.toNat = src.length := by
  have hlen : (UInt32.ofNat src.length).toNat = src.length := by
    rw [UInt32.toNat_ofNat', Nat.mod_eq_of_lt (by simp only [UINT32_MAX] at h; omega)]
  unfold given_item
  cases hform : pak_stored_form format entry_name src with
  | none => exact ⟨rfl, hlen⟩
  | some enc =>
    obtain ⟨-, -, hinf⟩ := pak_stored_form_some hform
    refine ⟨?_, hlen⟩
    simp only [PakItem.content, if_true, hlen, hinf]

/-! ## Calls

One call is one edit.
-/

section

variable {β : Type} {val : Entry → β} {pak pak' : Archive} {c : Call}

/-- **The mutators that take the name of an existing entry are edits**, for whatever an entry is
worth, as long as neither a name nor a copy changes that. -/
theorem NameEffect.edits (h : NameEffect pak c pak') (htail : pak.tail = lastIndex pak.entries)
    (hname : ∀ e n, val { e with filename := n } = val e)
    (hcopy : ∀ e ∈ pak.entries, ∀ n, val (copied_entry e n) = val e)
    (given : CStr → Bytes → β) (files : CStr → Bytes) :
    Catalogue.of Entry.filename val pak'.entries =
      Catalogue.edit (Catalogue.of Entry.filename val pak.entries) (call_edit given files c) := by
  cases h with
  | delete hi => exact Catalogue.of_eraseIdx hi
  | same => exact (Catalogue.rename_self _ _).symm
  | rename hi => exact Catalogue.of_modify hi (fun _ => rfl) (fun e => hname e _)
  | @copy src_name dst_name src hsrc =>
    have hents : ∀ b, (pak_link_copy_entry pak (copied_entry src dst_name) b).entries =
        pak.entries ++ [copied_entry src dst_name] := by
      intro b
      unfold pak_link_copy_entry link_entry
      rw [htail]
      cases b <;> exact link_at_tail_last _ _
    have hfield : (copied_entry src dst_name).filename = dst_name := by
      unfold copied_entry
      split_ifs <;> rfl
    have hfind : Catalogue.find (Catalogue.of Entry.filename val pak.entries) src_name =
        some (val src) := Catalogue.find_of hsrc
    rw [hents, Catalogue.of_append]
    simp only [call_edit, Catalogue.edit, Catalogue.copy, hfind, Catalogue.add]
    congr 1
    simp only [Catalogue.of, List.map_cons, List.map_nil, hfield,
      hcopy src (find_entry_mem hsrc)]
  | set_compression => rfl

end

/-- A copy of an entry in order is worth what the entry is. -/
theorem pak_item_copied {pak : Archive} {geom : Geometry} {e : Entry}
    (h : PakEntryOk pak geom e) (sources : CStr → Bytes) (disk : Bytes) (n : CStr) :
    pak_item sources disk (copied_entry e n) = pak_item sources disk e := by
  cases hs : e.staged with
  | false =>
    have hc : copied_entry e n = { e with filename := n } := by
      rw [copied_entry, hs, if_neg (by simp)]
    rw [hc]
    rfl
  | true =>
    rw [copied_entry, if_pos hs]
    rcases h.one_stage with h1 | h1
    · cases hd : e.pending_data with
      | none => simp [Entry.staged, h1, hd] at hs
      | some d => simp [pak_item, pak_stored, h1, hd]
    · obtain ⟨path, hp⟩ : ∃ path, e.pending_source = some path := by
        simpa [Entry.staged, h1, Option.isSome_iff_exists] using hs
      simp [pak_item, pak_stored, h1, hp]

/-! ## Sessions

A run of calls is the fold of the edits, and the file of its last commit opens with the result.
-/

/-- The listing of a session whose sources hold `files`. -/
def Session.listing (files : CStr → Bytes) (s : Session) : Catalogue CStr PakItem :=
  Catalogue.of Entry.filename (pak_item files s.disk) s.pak.entries

/-- The listing a commit works with, where every pass finds the same sources. -/
theorem pak_listing_eq_of (files : CStr → Bytes) (disk : Bytes) (es : List Entry) :
    pak_listing (fun _ => files) disk es =
      Catalogue.of Entry.filename (pak_item files disk) es := by
  refine List.ext_getElem? fun k => ?_
  simp only [pak_listing, Catalogue.of, List.getElem?_mapIdx, List.getElem?_map]

variable {df : Deflate} {format : Format} {geom : Geometry} {files : CStr → Bytes} {s : Session}
  {disk : Bytes} {c : Call}

/-- An add appends what it is given. -/
theorem PakState.added_listing {pak pak' : Archive} {source_path : Option CStr}
    {entry_name : CStr} {src disk' : Bytes} {e : Entry} (h : PakState disk.length pak geom)
    (ho : AddOutcome (Env.quiet files) disk pak source_path entry_name src src.length disk' pak'
      geom e)
    (hpath : ∀ path, source_path = some path → files path = src) :
    Catalogue.of Entry.filename (pak_item files disk') pak'.entries =
      Catalogue.add (Catalogue.of Entry.filename (pak_item files disk) pak.entries) entry_name
        (given_item pak.format entry_name src) := by
  have hold : Catalogue.of Entry.filename (pak_item files disk') pak.entries =
      Catalogue.of Entry.filename (pak_item files disk) pak.entries :=
    Catalogue.of_congr fun x hx => h.item_congr (ho.same.mono (Nat.zero_le _) (Nat.le_refl _)) hx
  have hread : readExact src 0 src.length = some src := by
    rw [readExact_of_le (by omega), slice_full]
  have hnew := ho.item (fun _ => rfl) src hread files hpath
  rw [ho.entries, Catalogue.of_append, hold]
  simp only [Catalogue.of, List.map_cons, List.map_nil, ho.filename, hnew, Catalogue.add]

/-- **A call that succeeds makes the edit it stands for.** -/
theorem PakLive.step_listing (h : PakLive format geom False s disk)
    (hok : (s.step df (Env.quiet files) c).1 = .ok) :
    (s.step df (Env.quiet files) c).2.listing files =
      Catalogue.edit (s.listing files) (call_edit (given_item format) files c) := by
  have hdisk := h.disk_eq
  -- a commit keeps the listing; every other call makes its edit
  by_cases hc : c = .commit
  · subst hc
    obtain ⟨s', hs⟩ : ∃ s', s.step df (Env.quiet files) .commit = (.ok, s') :=
      ⟨_, Prod.ext hok rfl⟩
    rw [hs]
    rcases h.commit_cases hs with ⟨-, rfl⟩ | ⟨disk', hfile, hcom⟩
    · rfl
    · have hdisk' : s'.disk = disk' := by
        rw [Session.disk, hfile]
        rfl
      have hlist := hcom.listing fun _ => files
      rw [Session.listing, Session.listing, hdisk', hdisk, ← pak_listing_eq_of, hlist,
        ← pak_listing_eq_of]
      rfl
  · have he := pak_call_ok (not_zip_of_geometry h.state.geometry) hc hok
    have hpak : (s.step df (Env.quiet files) c).2.pak =
        (pakka_call df (Env.quiet files) s.disk s.pak c).pak := rfl
    have hfiles : (s.step df (Env.quiet files) c).2.disk =
        (FileOp.run s.files (pakka_call df (Env.quiet files) s.disk s.pak c).log .live).getD [] :=
      rfl
    rw [Session.listing, Session.listing, hpak, hfiles, hdisk]
    rw [hdisk] at he
    generalize pakka_call df (Env.quiet files) disk s.pak c = r at he ⊢
    obtain ⟨st, pak', log⟩ := r
    simp only at he ⊢
    cases he with
    | @add_file source_path entry_name stream len log pak' hname hstream hlen ha =>
      obtain rfl := Option.some.inj hstream
      obtain rfl := Option.some.inj hlen
      obtain ⟨disk', e, hrun, ho⟩ := h.state.added hname ha h.file
      rw [hrun, Option.getD_some, h.state.added_listing ho (fun path hp => by cases hp; rfl),
        h.format]
      rfl
    | add_memory hname ha =>
      obtain ⟨disk', e, hrun, ho⟩ := h.state.added hname ha h.file
      rw [hrun, Option.getD_some, h.state.added_listing ho (fun path hp => by cases hp), h.format]
      rfl
    | name hn =>
      rw [FileOp.run_nil, h.file, Option.getD_some]
      exact hn.edits h.state.tail (fun _ _ => rfl)
        (fun e he n => pak_item_copied (h.state.entries e he) files disk n) _ _

/-- **A run of calls that succeed** makes their edits in a row. -/
theorem PakLive.run_listing (calls : List Call) {s s' : Session} {disk : Bytes}
    (h : PakLive format geom False s disk)
    (hrun : s.runOk df (calls.map fun c => (Env.quiet files, c)) = some s') :
    (∃ disk', PakLive format geom False s' disk') ∧
      s'.listing files = Catalogue.edits (s.listing files)
        (calls.map (call_edit (given_item format) files)) := by
  induction calls generalizing s disk with
  | nil =>
    obtain rfl := Option.some.inj hrun
    exact ⟨⟨disk, h⟩, rfl⟩
  | cons c calls ih =>
    rw [List.map_cons, Session.runOk] at hrun
    split_ifs at hrun with hok
    obtain ⟨disk', h'⟩ := h.step_ok hok
    obtain ⟨hlive, hlist⟩ := ih h' hrun
    refine ⟨hlive, ?_⟩
    rw [hlist, h.step_listing hok]
    rfl

/-- **PAK-class archives refine ordered lists.** For each PAK-class format, for every archive
that opens or is created, in plain or atomic mode, and every sequence of calls that succeed
(nothing fails, the sources hold `files`), a commit that succeeds on a handle of no more entries
than the loader takes publishes a file that opens under the handle's format with exactly the
catalogue that the edits of the calls make of the first one; a close that succeeds then leaves
this at the archive path. What an add gives an entry has the added bytes for its content. -/
theorem pak_refines_catalogue (df : Deflate) (files : CStr → Bytes) (s s₁ s₂ : Session)
    (calls : List Call) (hstart : Session.Started s) (hcls : IsPakClass s.pak.format)
    (hrun : s.runOk df (calls.map fun c => (Env.quiet files, c)) = some s₁)
    (hmax : s₁.pak.entries.length ≤ PAKFILE_MAX_ENTRIES)
    (hcommit : s₁.step df (Env.quiet files) .commit = (.ok, s₂)) :
    let final := Catalogue.edits (s.listing files)
      (calls.map (call_edit (given_item s.pak.format) files))
    OpensWith (s₂.files .live) s.pak.format final ∧
      (∀ env, (s₂.close env).1 = .ok () →
        OpensWith ((s₂.close env).2 s₂.archive_file) s.pak.format final) ∧
      ∀ entry_name src, src.length ≤ UINT32_MAX →
        (given_item s.pak.format entry_name src).content = some src ∧
          (given_item s.pak.format entry_name src).length.toNat = src.length := by
  intro final
  obtain ⟨geom, disk, hlive⟩ := hstart.live hcls
  obtain ⟨⟨disk₁, hlive₁⟩, hlist⟩ := hlive.run_listing calls hrun
  have hlisting : pak_listing (Env.quiet files).sources disk₁ s₁.pak.entries = final := by
    refine Eq.trans ?_ hlist
    rw [Session.listing, hlive₁.disk_eq, ← pak_listing_eq_of]
    rfl
  have hopens := (hlive₁.commit_opens (fun _ hx => hx) hmax hcommit).2
  rw [hlisting] at hopens
  refine ⟨hopens, fun env hclose => ?_, fun name src hsrc => given_item_content _ name hsrc⟩
  rw [Session.close_clean (hlive₁.commit_clean hcommit) hclose]
  exact hopens

/-- The refinement at a created archive: an entry is added, copied and renamed. -/
theorem pak_refines_catalogue_copy :
    let a : CStr := ⟨ascii "a", by decide⟩
    let b : CStr := ⟨ascii "b", by decide⟩
    let c : CStr := ⟨ascii "c", by decide⟩
    let s₁ := created_pak.run .storing
      ([add_a, .copy a b, .rename a c].map fun x => (calm_env, x))
    let s₂ := (s₁.step .storing calm_env .commit).2
    OpensWith (s₂.files .live) .pak [(c, ⟨1, false, 0, [1]⟩), (b, ⟨1, false, 0, [1]⟩)] := by
  intro a b c s₁ s₂
  have h := (pak_refines_catalogue .storing (fun _ => []) created_pak s₁ s₂
    [add_a, .copy a b, .rename a c] created_pak_started (by decide)
    (Session.runOk_eq_run (by decide +kernel)) (by decide +kernel)
    (Prod.ext (by decide +kernel) rfl)).1
  have hfinal : Catalogue.edits (created_pak.listing fun _ => [])
      ([add_a, .copy a b, .rename a c].map (call_edit (given_item .pak) fun _ => [])) =
      [(c, ⟨1, false, 0, [1]⟩), (b, ⟨1, false, 0, [1]⟩)] := by
    decide +kernel
  rw [← hfinal]
  exact h

end Pakka
