/-
The staged view of an archive is the published view.

What an entry reads as before a commit is what it reads as after it, through the same handle and
through one that opens the archive again. Before the commit it may come from a source or a buffer,
after it from the bytes that the rebuild has copied, and for the new handle through rows or records
that were written and read back. All of these deliver the content of the item, and items are what a
commit and a reopen keep.

The comparison is between readers at two moments, and at either moment entry by entry: the entry at
a position before, and the entry at the same position after. The sources are assumed to be found by
the commit as their readers found them, and this is the only assumption on the outside.
-/
import Pakka.CanonicalRebuild
import Pakka.StagedReading

set_option autoImplicit false

namespace Pakka

open ByteImage Packing

/-! ## Entries that can be read

On disk with a content, or staged and still readable.
-/

/-- An entry of a handle that has its file, ready to be read, with its source in place if it has
one. -/
structure CanRead (df : Deflate) (sources : CStr → SourceView) (s : Session) (e : Entry) :
    Prop where
  live : s.pak.fp = true
  ready : EntryReady df s.disk.length s.pak e
  source : ∀ path, e.pending_source = some path → ∃ bs, read_pending sources e
    (if pakka_format_is_zip s.pak.format then e.pk3_compressed_size else e.length).toNat = .ok bs

variable {df : Deflate} {sources sources' : CStr → SourceView} {s s' : Session} {e e' : Entry}
  {env : Env} {c : Call} {format : Format} {geom : Geometry} {disk : Bytes} {k : ℕ}

/-- Entries on disk can be read. -/
theorem Reached.can_read_on_disk (h : Reached s) (hrec : Recorded df s.pak) (hfp : s.pak.fp = true)
    (he : e ∈ s.pak.entries) (hs : e.staged = false) : CanRead df sources s e := by
  refine ⟨hfp, h.ready hrec hfp he, ?_⟩
  intro path hp
  rw [(on_disk_none hs).1] at hp
  cases hp

/-- **Entries can be read before a commit that succeeds**, where its sources stay as they are. -/
theorem Reached.can_read (h : Reached s) (hrec : Recorded df s.pak) (hfp : s.pak.fp = true)
    (hok : (s.step df env .commit).1 = .ok) (hsources : ∀ i, env.view i = sources)
    (hk : s.pak.entries[k]? = some e) : CanRead df sources s e := by
  have he := List.mem_of_getElem? hk
  refine ⟨hfp, h.ready hrec hfp he, ?_⟩
  intro path hp
  have hs : e.staged = true := by
    rw [Entry.staged, hp]
    rfl
  have hd := hrec.dirty e he hs
  -- the commit has read the source
  obtain ⟨disk, p, hres, hrebuild⟩ : ∃ disk p, (pakka_commit env disk s.pak).res = .ok p ∧
      s.pak.needs_rebuild = true := by
    cases h with
    | lost hlost =>
      rw [hfp] at hlost
      cases hlost
    | pak hl =>
      obtain ⟨p, hres⟩ := hl.commit_res hd hok
      exact ⟨_, p, hres, hl.state.staged e he hs⟩
    | zip hl =>
      obtain ⟨p, hres⟩ := hl.commit_res hd hok
      exact ⟨_, p, hres, hl.state.rebuild hd⟩
  rw [← hsources k]
  exact (pakka_commit_copied hres hd hrebuild hk hp).readable hp

/-- A caller's cap does not matter for how a PAK-class entry reads. -/
theorem CanRead.pak_delivers (hnothing : df.NothingFromNothing) (h : CanRead df sources s e)
    (hz : pakka_format_is_zip s.pak.format = false) {cap : ℕ} {content : Bytes}
    (hcap : within_cap (pakka_set_max_decompressed_size s.pak cap) e) :
    Delivers df sources s.disk (pakka_set_max_decompressed_size s.pak cap) e content ↔
      (pak_item (streams_of sources) s.disk e).content = some content := by
  obtain ⟨hfp, hready, hread⟩ := h
  simp only [hz, Bool.false_eq_true, if_false] at hread
  cases hready with
  | pak hg hok hin hdec =>
    have hcapped : pakka_pak_geometry (pakka_set_max_decompressed_size s.pak cap).format =
        some _ := hg
    exact pak_delivers_iff hnothing hcapped (hok.mono rfl (Nat.le_refl _)) hin hdec hfp hcap hread
  | zip hz' =>
    rw [hz] at hz'
    cases hz'

/-- A caller's cap does not matter for how a ZIP entry reads. -/
theorem CanRead.zip_delivers (hnothing : df.NothingFromNothing) (h : CanRead df sources s e)
    (hz : pakka_format_is_zip s.pak.format = true) {cap : ℕ} {content : Bytes}
    (hcap : within_cap (pakka_set_max_decompressed_size s.pak cap) e) :
    Delivers df sources s.disk (pakka_set_max_decompressed_size s.pak cap) e content ↔
      (zip_item (streams_of sources) s.disk e).ReadsAs df content := by
  obtain ⟨hfp, hready, hread⟩ := h
  simp only [hz, if_true] at hread
  cases hready with
  | pak hg =>
    rw [not_zip_of_geometry hg] at hz
    cases hz
  | zip _ hok hrec =>
    have hcapped : pakka_format_is_zip (pakka_set_max_decompressed_size s.pak cap).format =
        true := hz
    exact zip_delivers_iff hnothing hcapped hok hrec hfp hcap hread

/-! ## Views

Two places to read from give the same view if every entry reads the same at both.
-/

/-- The entry at position `k` reads as `content`, under a cap that it does not exceed. -/
def ReadsAt (df : Deflate) (sources : CStr → SourceView) (s : Session) (cap k : ℕ)
    (content : Bytes) : Prop :=
  ∃ e, s.pak.entries[k]? = some e ∧ within_cap (pakka_set_max_decompressed_size s.pak cap) e ∧
    Delivers df sources s.disk (pakka_set_max_decompressed_size s.pak cap) e content

/-- At every position, and under every cap, `s'` reads as `s` does with these sources. -/
def SameView (df : Deflate) (sources : CStr → SourceView) (s s' : Session) : Prop :=
  ∀ sources' cap k content,
    ReadsAt df sources' s' cap k content ↔ ReadsAt df sources s cap k content

/-- Two entries have one item. -/
inductive OneItem (sources : CStr → SourceView) (s : Session) (e : Entry)
    (sources' : CStr → SourceView) (s' : Session) (e' : Entry) : Prop where
  | pak (hz : pakka_format_is_zip s.pak.format = false)
      (hz' : pakka_format_is_zip s'.pak.format = false)
      (hitem : pak_item (streams_of sources') s'.disk e' = pak_item (streams_of sources) s.disk e) :
      OneItem sources s e sources' s' e'
  | zip (hz : pakka_format_is_zip s.pak.format = true)
      (hz' : pakka_format_is_zip s'.pak.format = true)
      (hitem : zip_item (streams_of sources') s'.disk e' = zip_item (streams_of sources) s.disk e) :
      OneItem sources s e sources' s' e'

/-- The cap allows entries by their items. -/
theorem OneItem.within_cap_iff (h : OneItem sources s e sources' s' e') (cap : ℕ) :
    within_cap (pakka_set_max_decompressed_size s'.pak cap) e' ↔
      within_cap (pakka_set_max_decompressed_size s.pak cap) e := by
  have hformat : ∀ pak : Archive,
      (pakka_set_max_decompressed_size pak cap).format = pak.format := fun _ => rfl
  unfold within_cap
  rw [hformat, hformat]
  cases h with
  | pak hz hz' hitem =>
    have h1 : e'.length = e.length := congrArg PakItem.length hitem
    have h2 : e'.dk_is_compressed = e.dk_is_compressed :=
      congrArg PakItem.dk_is_compressed hitem
    have h3 : e'.dk_compressed_size = e.dk_compressed_size :=
      congrArg PakItem.dk_compressed_size hitem
    rw [hz, hz', h1, h2, h3]
    exact Iff.rfl
  | zip hz hz' hitem =>
    have h1 : e'.length = e.length := congrArg ZipItem.length hitem
    have h2 : e'.pk3_compressed_size = e.pk3_compressed_size :=
      congrArg ZipItem.compressed_size hitem
    rw [hz, hz', h1, h2]
    exact Iff.rfl

/-- **Entries with one item read the same.** -/
theorem OneItem.delivers_iff (hnothing : df.NothingFromNothing)
    (h : OneItem sources s e sources' s' e') (hread : CanRead df sources s e)
    (hread' : CanRead df sources' s' e') {cap : ℕ} {content : Bytes}
    (hcap : within_cap (pakka_set_max_decompressed_size s.pak cap) e) :
    Delivers df sources' s'.disk (pakka_set_max_decompressed_size s'.pak cap) e' content ↔
      Delivers df sources s.disk (pakka_set_max_decompressed_size s.pak cap) e content := by
  have hcap' := (h.within_cap_iff cap).mpr hcap
  cases h with
  | pak hz hz' hitem =>
    rw [hread.pak_delivers hnothing hz hcap, hread'.pak_delivers hnothing hz' hcap', hitem]
  | zip hz hz' hitem =>
    rw [hread.zip_delivers hnothing hz hcap, hread'.zip_delivers hnothing hz' hcap', hitem]

/-- **Lists with the same items read the same.** -/
theorem SameView.of_items (hnothing : df.NothingFromNothing)
    (hlen : s'.pak.entries.length = s.pak.entries.length)
    (hread : ∀ (k : ℕ) (e : Entry), s.pak.entries[k]? = some e → CanRead df sources s e)
    (hread' : ∀ sources', ∀ e ∈ s'.pak.entries, CanRead df sources' s' e)
    (hitem : ∀ sources' (k : ℕ) (e e' : Entry), s.pak.entries[k]? = some e →
      s'.pak.entries[k]? = some e' → OneItem sources s e sources' s' e') :
    SameView df sources s s' := by
  intro sources' cap k content
  constructor
  · rintro ⟨e', hk', hcap', hdelivers⟩
    obtain ⟨hlt, -⟩ := List.getElem?_eq_some_iff.mp hk'
    have hk := List.getElem?_eq_getElem (hlen ▸ hlt)
    have hone := hitem sources' k _ e' hk hk'
    have hcap := (hone.within_cap_iff cap).mp hcap'
    refine ⟨_, hk, hcap, ?_⟩
    exact (hone.delivers_iff hnothing (hread k _ hk)
      (hread' sources' e' (List.mem_of_getElem? hk')) hcap).mp hdelivers
  · rintro ⟨e, hk, hcap, hdelivers⟩
    obtain ⟨hlt, -⟩ := List.getElem?_eq_some_iff.mp hk
    have hk' := List.getElem?_eq_getElem (hlen.symm ▸ hlt)
    have hone := hitem sources' k e _ hk hk'
    refine ⟨_, hk', (hone.within_cap_iff cap).mpr hcap, ?_⟩
    exact (hone.delivers_iff hnothing (hread k e hk)
      (hread' sources' _ (List.mem_of_getElem? hk')) hcap).mpr hdelivers

/-- Handles that lost their files read nothing. -/
theorem SameView.of_lost (h : s.pak.fp = false) (h' : s'.pak.fp = false) :
    SameView df sources s s' := by
  have hnone : ∀ {s : Session} {sources cap k content}, s.pak.fp = false →
      ¬ ReadsAt df sources s cap k content := by
    rintro s sources cap k content hfp ⟨e, -, -, r, hopen, -⟩
    have hlive := live_of_open hopen
    change s.pak.fp = true at hlive
    rw [hfp] at hlive
    cases hlive
  intro sources' cap k content
  exact iff_of_false (hnone h') (hnone h)

/-! ## Items across a commit

Items are kept, so what they deliver is.
-/

/-- At every position `s'` lists the item that `s` lists there with these sources. -/
structure SameItems (sources : CStr → SourceView) (s s' : Session) : Prop where
  length : s'.pak.entries.length = s.pak.entries.length
  item : ∀ sources' (k : ℕ) (e e' : Entry), s.pak.entries[k]? = some e →
    s'.pak.entries[k]? = some e' → OneItem sources s e sources' s' e'

theorem SameItems.trans {s'' : Session} (h : SameItems sources s s')
    (h' : ∀ sources', SameItems sources' s' s'') : SameItems sources s s'' := by
  refine ⟨(h' sources).length.trans h.length, ?_⟩
  intro sources'' k e e'' hk hk''
  obtain ⟨hlt, -⟩ := List.getElem?_eq_some_iff.mp hk
  have hk' := List.getElem?_eq_getElem (h.length.symm ▸ hlt)
  have h1 := h.item sources k e _ hk hk'
  have h2 := (h' sources).item sources'' k _ e'' hk' hk''
  cases h1 with
  | pak hz hz' hitem =>
    cases h2 with
    | pak _ hz'' hitem' => exact .pak hz hz'' (hitem'.trans hitem)
    | zip hx =>
      rw [hz'] at hx
      cases hx
  | zip hz hz' hitem =>
    cases h2 with
    | pak hx =>
      rw [hz'] at hx
      cases hx
    | zip _ hz'' hitem' => exact .zip hz hz'' (hitem'.trans hitem)

/-- Entries on disk have the item they have. -/
theorem SameItems.of_on_disk (h : ∀ e ∈ s.pak.entries, e.staged = false) :
    SameItems sources s s := by
  refine ⟨rfl, ?_⟩
  intro sources' k e e' hk hk'
  obtain rfl := Option.some.inj (hk.symm.trans hk')
  obtain ⟨hn1, hn2⟩ := on_disk_none (h e (List.mem_of_getElem? hk))
  cases hz : pakka_format_is_zip s.pak.format with
  | false => exact .pak hz hz (by simp only [pak_item, pak_stored, hn1, hn2])
  | true => exact .zip hz hz (by simp only [zip_item, zip_stored, hn1, hn2])

/-- What a clean handle lists is on disk. -/
theorem Recorded.on_disk (h : Recorded df s.pak) (hd : s.pak.dirty = false) :
    ∀ e ∈ s.pak.entries, e.staged = false := by
  intro e he
  by_contra hs
  have := h.dirty e he (by simpa using hs)
  rw [hd] at this
  cases this

/-- What a commit that succeeds leaves of a session. -/
structure Kept (sources : CStr → SourceView) (s s' : Session) : Prop where
  live : s'.pak.fp = true
  clean : s'.pak.dirty = false
  items : SameItems sources s s'

/-- **A commit that succeeds keeps the items**, where the sources stay as they are. -/
theorem Reached.commit_kept (h : Reached s) (hrec : Recorded df s.pak) (hfp : s.pak.fp = true)
    (hok : (s.step df env .commit).1 = .ok) (hsources : ∀ i, env.view i = sources) :
    Kept sources s (s.step df env .commit).2 := by
  have hstep : s.step df env .commit = (.ok, (s.step df env .commit).2) := Prod.ext hok rfl
  have hstreams : ∀ k, env.sources k = streams_of sources := by
    intro k
    rw [← hsources k]
    rfl
  generalize (s.step df env .commit).2 = s' at hstep ⊢
  have hunchanged : s.pak.dirty = false → Kept sources s s := fun hd =>
    ⟨hfp, hd, .of_on_disk (hrec.on_disk hd)⟩
  cases h with
  | lost hlost =>
    rw [hfp] at hlost
    cases hlost
  -- the committed row has the item of the staged entry, with its bytes in the new file
  | pak hl =>
    rcases hl.commit_cases hstep with ⟨hd, rfl⟩ | ⟨disk', hfile, hcom⟩
    · exact hunchanged hd
    refine ⟨hcom.live, hcom.clean, hcom.length_eq, ?_⟩
    intro sources' k e e' hk hk'
    have hz := not_zip_of_geometry hl.state.geometry
    obtain ⟨x, hx, -, hs, hitem⟩ := hcom.entry hk
    obtain rfl := Option.some.inj (hk'.symm.trans hx)
    obtain ⟨hn1, hn2⟩ := on_disk_none hs
    have hdisk' : s'.disk = disk' := by
      rw [Session.disk, hfile]
      rfl
    rw [hstreams] at hitem
    refine .pak hz (hcom.format ▸ hz) ?_
    rw [hdisk', hl.disk_eq, ← hitem]
    simp only [pak_item, pak_stored, hn1, hn2]
  | zip hl =>
    rcases hl.commit_cases hstep with ⟨hd, rfl⟩ | ⟨disk', hfile, hcom⟩
    · exact hunchanged hd
    have hlen := congrArg List.length hcom.names
    rw [List.length_map, List.length_map] at hlen
    refine ⟨hcom.live, hcom.clean, hlen, ?_⟩
    intro sources' k e e' hk hk'
    have hz := hl.state.zip
    have hrow := congrArg (fun l => l[k]?) (hcom.listing fun _ => streams_of sources')
    simp only [zip_listing, List.getElem?_mapIdx, hk, hk', Option.map_some] at hrow
    have hitem := (Prod.mk.inj (Option.some.inj hrow)).2
    have hdisk' : s'.disk = disk' := by
      rw [Session.disk, hfile]
      rfl
    refine .zip hz (hcom.format ▸ hz) ?_
    rw [hdisk', hl.disk_eq, hitem, hstreams]

/-! ## Items across a reopen

The loader's entries have the items that were committed.
-/

/-- **A published PAK-class archive that is opened again** has the items of its handle. -/
theorem PakPublished.same_items {path : CStr} {mode : OpenMode} {hint : Format} {fresh : Archive}
    (hg : pakka_pak_geometry s.pak.format = some geom) (h : PakPublished s.disk s.pak geom)
    (hopen : pakka_open_ex path mode hint (some s.disk) = .ok fresh)
    (hformat : fresh.format = s.pak.format) :
    SameItems sources s (Session.opened s.disk fresh) := by
  have hcls : IsPakClass fresh.format := Option.isSome_iff_exists.mpr ⟨geom, hformat ▸ hg⟩
  have hents : fresh.entries = s.pak.entries.map pak_row_entry := by
    obtain ⟨geom', diroffset, dirlength, hg', hd, heq⟩ :=
      open_pak_class (open_pak_class_hint hcls hopen) hopen
    have hpath : CStr.empty.strlen < OS_PATH_MAX := by decide
    -- whatever the hint was, the archive also opens under its format
    obtain ⟨p, hp, hpents⟩ := h.reopens hg hpath mode
    rw [← hformat] at hp
    rw [(open_pak_iff hg').mpr ⟨hpath, diroffset, dirlength, hd, rfl⟩] at hp
    rw [← hpents, ← Except.ok.inj hp, ← heq]
  have hz := not_zip_of_geometry hg
  refine ⟨?_, ?_⟩
  · change fresh.entries.length = _
    rw [hents, List.length_map]
  · intro sources' k e e' hk hk'
    change fresh.entries[k]? = some e' at hk'
    rw [hents, List.getElem?_map, hk] at hk'
    obtain rfl := Option.some.inj hk'
    obtain ⟨hn1, hn2⟩ := on_disk_none (h.on_disk e (List.mem_of_getElem? hk))
    refine .pak hz (hformat.symm ▸ hz) ?_
    simp only [pak_item, pak_stored, hn1, hn2]
    rfl

/-- A file has one directory. -/
theorem ZipDirectory.unique {h h' : Eocd} {cdr cdr' : Bytes} {l l' : List Listed}
    {es es' : List Entry} (hd : ZipDirectory disk h cdr l es)
    (hd' : ZipDirectory disk h' cdr' l' es') : es = es' := by
  have hpath : CStr.empty.strlen < OS_PATH_MAX := by decide
  have hhint : Format.pk3 = .auto ∨ Format.pk3 = .pk3 ∨ Format.pk3 = .pk4 := by decide
  obtain ⟨p, hp, -, -, hents⟩ := hd.opens .read hpath hhint
  obtain ⟨p', hp', -, -, hents'⟩ := hd'.opens .read hpath hhint
  rw [hp] at hp'
  rw [← hents, ← hents', Except.ok.inj hp']

/-- **A published ZIP archive that is opened again** has the items of its handle. -/
theorem ZipPublished.same_items {path : CStr} {mode : OpenMode} {hint : Format} {fresh : Archive}
    (hz : pakka_format_is_zip s.pak.format = true) (h : ZipPublished s.disk s.pak)
    (hopen : pakka_open_ex path mode hint (some s.disk) = .ok fresh)
    (hzip : pakka_format_is_zip fresh.format = true) :
    SameItems sources s (Session.opened s.disk fresh) := by
  obtain ⟨hd, cdr, l, es, hdir, heq⟩ := open_zip_directory hopen hzip
  have hents : fresh.entries = es := by
    rw [heq]
    rfl
  -- the payloads of the two lists are in the same places
  have hrows : ∀ f g, (zip_listing f s.disk fresh.entries).map Prod.snd =
      (zip_listing g s.disk s.pak.entries).map Prod.snd := by
    intro f g
    cases h with
    | read hread =>
      rw [hents, hdir.unique hread]
      exact congrArg _ (zip_listing_on_disk (fun e he => (hread.opened_entry e he).not_staged) f g)
    | @written xs himage hfile hwritten =>
      rw [hfile] at hdir
      rw [hents, himage.entries hdir, hwritten, hfile, himage.listing_loaded,
        himage.listing_committed, List.map_map, List.map_map]
      rfl
  refine ⟨?_, ?_⟩
  · change fresh.entries.length = _
    have hlen := congrArg List.length (hrows (fun _ _ => []) fun _ _ => [])
    simpa only [zip_listing, List.length_map, List.length_mapIdx] using hlen
  · intro sources' k e e' hk hk'
    change fresh.entries[k]? = some e' at hk'
    have hrow := congrArg (fun l => l[k]?)
      (hrows (fun _ => streams_of sources') fun _ => streams_of sources)
    simp only [zip_listing, List.getElem?_map, List.getElem?_mapIdx, hk, hk', Option.map_some]
      at hrow
    exact .zip hz hzip (Option.some.inj hrow)

/-! ## Sessions that write in commits only

In atomic mode and for ZIP archives nothing is written between commits.
-/

/-- A session in which nothing but a commit writes to the file: on a ZIP archive, or on a PAK-class
one that is open for atomic commits. A clean handle of such a session is always published. -/
inductive Publishing (s : Session) : Prop where
  | lost (h : s.pak.fp = false) : Publishing s
  | pak {format : Format} {geom : Geometry} {disk : Bytes} (ha : s.pak.atomic_commit = true)
      (h : PakLive format geom False s disk) : Publishing s
  | zip {format : Format} {disk : Bytes} (h : ZipLive format s disk) : Publishing s

theorem Publishing.reached (h : Publishing s) : Reached s := by
  cases h with
  | lost hfp => exact .lost hfp
  | pak _ hl => exact .pak hl
  | zip hl => exact .zip hl

/-- A commit leaves how the handle commits, or loses its file. -/
theorem PakLive.commit_keeps_atomic {t : Prop} (h : PakLive format geom t s disk)
    (ha : s.pak.atomic_commit = true) : (s.step df env .commit).2.pak.fp = false ∨
      (s.step df env .commit).2.pak.atomic_commit = true := by
  change (Step.of (pakka_commit env s.disk s.pak)).pak.fp = false ∨
    (Step.of (pakka_commit env s.disk s.pak)).pak.atomic_commit = true
  rw [h.disk_eq]
  cases hd : s.pak.dirty with
  | false =>
    right
    rw [pakka_commit_clean hd]
    exact ha
  | true =>
    cases pak_commit_outcome env h.state h.live hd with
    | @done pak' disk' hres =>
      right
      rw [Step.of_ok hres]
      change pak'.atomic_commit = true
      have hw : s.pak.writable = true := by
        by_contra hw
        unfold pakka_commit at hres
        rw [if_neg (by simp [hd]), if_pos (Or.inl hw)] at hres
        cases hres
      rw [pakka_commit_eq_rebuild env (not_zip_of_geometry h.state.geometry) h.live
        ⟨hw, hd, Or.inr (Or.inr ha)⟩] at hres
      obtain ⟨offsets, acc, b, -, rfl, -⟩ := pakka_commit_rebuild_packed h.state hres
      exact ha
    | kept hres _ _ hpak =>
      right
      obtain ⟨d, l, rfl⟩ := hpak
      rw [Step.of_error hres]
      exact ha
    | lost hres _ hlost =>
      left
      rw [Step.of_error hres]
      exact hlost

/-- One call on a PAK-class handle that is open for atomic commits. -/
theorem PakLive.step_atomic (h : PakLive format geom False s disk)
    (ha : s.pak.atomic_commit = true) : Publishing (s.step df env c).2 := by
  have hz := not_zip_of_geometry h.state.geometry
  have hatomic : (s.step df env c).2.pak.fp = false ∨
      (s.step df env c).2.pak.atomic_commit = true := by
    by_cases hc : c = .commit
    · subst hc
      exact h.commit_keeps_atomic ha
    right
    change (pakka_call df env s.disk s.pak c).pak.atomic_commit = true
    by_cases hok : (pakka_call df env s.disk s.pak c).status = .ok
    · rw [(pak_call_ok hz hc hok).atomic]
      exact ha
    · rw [pakka_call_failed hc hok]
      exact ha
  -- a call on a clean handle writes nothing, so it tears nothing
  have hnt : ¬ torn_step df s False env c := by
    rintro ⟨hd, -, hx | htears⟩
    · exact hx
    have hlog : (pakka_call df env s.disk s.pak c).log = [] := by
      by_cases hc : c = .commit
      · subst hc
        rw [pakka_call, pakka_commit_clean hd]
        rfl
      · exact (pak_call_log df env s.disk s.pak c hz hc).2 ha
    rw [hlog] at htears
    exact Tears.not_nil _ htears
  rcases hatomic with hlost | ha'
  · exact .lost hlost
  have hrun : PakRun format geom False s := Or.inr ⟨disk, h⟩
  rcases hrun.step df env c with ⟨hlost, -⟩ | ⟨disk', h'⟩
  · exact .lost hlost
  · exact .pak ha' (h'.mono hnt)

/-- **One call**, whatever fails. -/
theorem Publishing.step (df : Deflate) (env : Env) (c : Call) (h : Publishing s) :
    Publishing (s.step df env c).2 := by
  cases h with
  | lost hfp =>
    obtain ⟨method, hs⟩ := lost_step df env c hfp
    rw [hs]
    exact .lost hfp
  | pak ha hl => exact hl.step_atomic ha
  | zip hl =>
    rcases hl.step df env c with ⟨disk', hl'⟩ | ⟨-, hlost⟩
    · exact .zip hl'
    · exact .lost hlost

/-- **Any run**, whatever fails. -/
theorem Publishing.run (calls : List (Env × Call)) {s : Session} (h : Publishing s) :
    Publishing (s.run df calls) := by
  induction calls generalizing s with
  | nil => exact h
  | cons p calls ih => exact ih (h.step df _ _)

theorem Session.Started.publishing (h : Session.Started s)
    (hkind : pakka_format_is_zip s.pak.format = true ∨ s.pak.atomic_commit = true) :
    Publishing s := by
  rcases h.format_class with hz | hcls
  · obtain ⟨disk, hl⟩ := h.zip_live hz
    exact .zip hl
  · obtain ⟨geom, disk, hl⟩ := h.live hcls
    exact .pak (hkind.resolve_left (by simp [not_zip_of_geometry hl.state.geometry])) hl

/-! ## The published view

The same view before the commit, after it, and through a new handle.
-/

/-- What the loader takes: no more entries than its limit from a PAK-class archive; from a ZIP
archive readable names that stay distinct, and no mark of a larger format. -/
def Loadable (pak : Archive) : Prop :=
  if pakka_format_is_zip pak.format then
    (∀ e ∈ pak.entries, ZipReadable e) ∧ pak.entries.length ≠ 0xFFFF ∧
      (pak.entries.map fun e => zip_name_read e.filename).Nodup
  else pak.entries.length ≤ PAKFILE_MAX_ENTRIES

/-- The formats are the same PAK-class format, or both of them are ZIP formats. -/
def same_kind (a b : Format) : Prop :=
  a = b ∨ pakka_format_is_zip a = true ∧ pakka_format_is_zip b = true

/-- The file of `s'` opens again under the format of `s`, and through every handle it opens with it
reads as `s` does with these sources. -/
structure ReopensAs (df : Deflate) (sources : CStr → SourceView) (s s' : Session) : Prop where
  opens : ∀ (path : CStr) (mode : OpenMode), path.strlen < OS_PATH_MAX →
    ∃ fresh, pakka_open_ex path mode s.pak.format (s'.files .live) = .ok fresh ∧
      same_kind fresh.format s.pak.format
  view : ∀ (path : CStr) (mode : OpenMode) (hint : Format) (fresh : Archive),
    pakka_open_ex path mode hint (s'.files .live) = .ok fresh →
      same_kind fresh.format s.pak.format → SameView df sources s (Session.opened s'.disk fresh)

/-- Handles that are opened read the items they list. -/
theorem SameItems.fresh_view (hnothing : df.NothingFromNothing) {path : CStr} {mode : OpenMode}
    {hint : Format} {fresh : Archive} (hopen : pakka_open_ex path mode hint (some disk) = .ok fresh)
    (hread : ∀ (k : ℕ) (e : Entry), s.pak.entries[k]? = some e → CanRead df sources s e)
    (h : SameItems sources s (Session.opened disk fresh)) :
    SameView df sources s (Session.opened disk fresh) := by
  have hstart : Session.Started (Session.opened disk fresh) := .opened hopen
  have hfp : fresh.fp = true := by
    rcases hstart.format_class with hz | hcls
    · obtain ⟨_, _, _, _, -, rfl⟩ := open_zip_directory hopen hz
      rfl
    · exact (open_pak_fresh hcls hopen).live
  refine .of_items hnothing h.length hread ?_ h.item
  intro sources' e he
  exact hstart.reached.can_read_on_disk (.of_on_disk hstart.on_disk) hfp he (hstart.on_disk e he)

/-- **A PAK-class archive reopens with its view**, if it has no more entries than the loader
takes. -/
theorem PakLive.reopens_as (hnothing : df.NothingFromNothing)
    (h : PakLive format geom False s' disk) (hkept : Kept sources s s')
    (hread : ∀ (k : ℕ) (e : Entry), s.pak.entries[k]? = some e → CanRead df sources s e)
    (hformat : s'.pak.format = s.pak.format)
    (hmax : s.pak.entries.length ≤ PAKFILE_MAX_ENTRIES) : ReopensAs df sources s s' := by
  have hg := h.state.geometry
  have hz := not_zip_of_geometry hg
  have hpub := h.published hkept.clean id (hkept.items.length ▸ hmax)
  have haccepted := hpub.accepted hg
  refine ⟨?_, ?_⟩
  · intro path mode hpath
    obtain ⟨fresh, hopen, -⟩ := haccepted path mode hpath
    refine ⟨fresh, ?_, Or.inl ?_⟩
    · rw [h.file, ← hformat]
      exact hopen
    · rw [← hformat]
      exact (open_pak_state hg hopen).1
  · intro path mode hint fresh hopen hkind
    rw [h.file] at hopen
    rw [h.disk_eq]
    have hsame : fresh.format = s'.pak.format := by
      rcases hkind with hx | ⟨-, hx⟩
      · exact hx.trans hformat.symm
      · rw [← hformat, hz] at hx
        cases hx
    rw [← h.disk_eq] at hopen hpub ⊢
    have hitems := hkept.items.trans fun _ => hpub.same_items hg hopen hsame
    exact hitems.fresh_view hnothing hopen hread

/-- **A ZIP archive reopens with its view**, if the loader takes its list. -/
theorem ZipLive.reopens_as (hnothing : df.NothingFromNothing) (h : ZipLive format s' disk)
    (hkept : Kept sources s s')
    (hread : ∀ (k : ℕ) (e : Entry), s.pak.entries[k]? = some e → CanRead df sources s e)
    (hformat : s'.pak.format = s.pak.format) {names : List CStr}
    (haccepted : ZipAcceptedAs (s'.files .live) names) : ReopensAs df sources s s' := by
  have hz := h.state.zip
  have hz' : pakka_format_is_zip s.pak.format = true := hformat ▸ hz
  have hpub := h.published hkept.clean
  have hhint : s.pak.format = .auto ∨ s.pak.format = .pk3 ∨ s.pak.format = .pk4 := by
    cases hf : s.pak.format <;> simp_all [pakka_format_is_zip]
  refine ⟨?_, ?_⟩
  · intro path mode hpath
    obtain ⟨fresh, hopen, -⟩ := haccepted path mode s.pak.format hpath hhint
    refine ⟨fresh, hopen, Or.inr ⟨?_, hz'⟩⟩
    rw [h.file] at hopen
    rcases open_format_class hopen with hzip | ⟨geom, hg⟩
    · exact hzip
    exfalso
    have hcls : IsPakClass fresh.format := Option.isSome_iff_exists.mpr ⟨geom, hg⟩
    rcases open_pak_class_hint hcls hopen with hx | ⟨hx, -⟩
    · obtain ⟨geom', hg'⟩ := Option.isSome_iff_exists.mp hx
      rw [not_zip_of_geometry hg'] at hz'
      cases hz'
    · rw [hx] at hz'
      cases hz'
  · intro path mode hint fresh hopen hkind
    rw [h.file] at hopen
    have hzip : pakka_format_is_zip fresh.format = true := by
      rcases hkind with hx | ⟨hx, -⟩
      · rw [hx]
        exact hz'
      · exact hx
    rw [← h.disk_eq] at hopen hpub
    have hitems := hkept.items.trans fun _ => hpub.same_items hz hopen hzip
    exact hitems.fresh_view hnothing hopen hread

/-- **The staged view is the published view.** Take a handle after any calls on a ZIP archive, or on
a PAK-class archive that is open for atomic commits, each call succeeding or failing, and a commit
that succeeds and finds the sources of staged entries as their readers do. Whatever an entry reads
as before the commit, the entry at its position reads as after it through the same handle. And if
the handle has its file and the loader takes what it lists, the published file opens again and reads
the same through every handle it opens with. -/
theorem staged_view_published (df : Deflate) (s₀ : Session) (calls : List (Env × Call)) (env : Env)
    (sources : CStr → SourceView) (hdf : df.Correct) (hnothing : df.NothingFromNothing)
    (hstart : Session.Started s₀)
    (hkind : pakka_format_is_zip s₀.pak.format = true ∨ s₀.pak.atomic_commit = true)
    (hsources : ∀ i, env.view i = sources)
    (hok : ((s₀.run df calls).step df env .commit).1 = .ok) :
    let s := s₀.run df calls
    let s' := (s.step df env .commit).2
    SameView df sources s s' ∧
      (s.pak.fp = true → Loadable s.pak → ReopensAs df sources s s') := by
  intro s s'
  have hrun : Publishing s := (hstart.publishing hkind).run calls
  have hreached : Reached s := hrun.reached
  have hrec : Recorded df s.pak :=
    Recorded.run hdf calls (.of_on_disk hstart.on_disk) hstart.reached
  have hstep : s.step df env .commit = (.ok, s') := Prod.ext hok rfl
  cases hfp : s.pak.fp with
  | false =>
    -- no entry is read before the commit or after it
    refine ⟨.of_lost hfp ?_, fun hx => by cases hx⟩
    obtain ⟨method, hs⟩ := lost_step df env .commit hfp
    change (s.step df env .commit).2.pak.fp = false
    rw [hs]
    exact hfp
  | true =>
    have hkept : Kept sources s s' := hreached.commit_kept hrec hfp hok hsources
    have hread : ∀ (k : ℕ) (e : Entry), s.pak.entries[k]? = some e → CanRead df sources s e :=
      fun _ _ hk => hreached.can_read hrec hfp hok hsources hk
    have hread' : ∀ sources', ∀ e ∈ s'.pak.entries, CanRead df sources' s' e := fun _ e he =>
      hreached.step.can_read_on_disk (hrec.step hdf hreached) hkept.live he
        ((hrec.step hdf hreached).on_disk hkept.clean e he)
    refine ⟨.of_items hnothing hkept.items.length hread hread' hkept.items.item, ?_⟩
    intro _ hloads
    cases hrun with
    | lost hlost =>
      rw [hfp] at hlost
      cases hlost
    | pak _ hl =>
      obtain ⟨disk', hl'⟩ := hl.step_ok hok
      unfold Loadable at hloads
      rw [not_zip_of_geometry hl.state.geometry, if_neg (by simp)] at hloads
      exact hl'.reopens_as hnothing hkept hread (hl'.format.trans hl.format.symm) hloads
    | zip hl =>
      obtain ⟨disk', hl'⟩ := hl.step_ok hok
      unfold Loadable at hloads
      rw [if_pos hl.state.zip] at hloads
      obtain ⟨hreadable, hcount, hnodup⟩ := hloads
      exact hl'.reopens_as hnothing hkept hread (hl'.format.trans hl.format.symm)
        (hl.commit_accepted hstep hreadable hcount hnodup)

/-! ## A limit of the loader only

More lumps than the loader takes can be staged, read and committed, and the file is refused from
then on.
-/

/-- The file of an IWAD archive without lumps. -/
def empty_wad : Bytes := pak_header (init_pak_header (create_initial .iwad))

/-- An empty lump that is staged. -/
def staged_lump : Entry := { filename := lump_name, pending_data := some [] }

/-- That archive, opened for atomic commits, with `n` empty lumps of one name staged. -/
def staged_wad (n : ℕ) : Session :=
  Session.opened empty_wad
    { opened_pak .read_write_atomic .iwad ⟨ascii "IWAD", 8, 16, false⟩ empty_wad 12 0 with
      entries := List.replicate n staged_lump
      tail := lastIndex (List.replicate n staged_lump)
      num_entries := UInt32.ofNat n
      dirty := decide (0 < n)
      needs_rebuild := decide (0 < n) }

theorem staged_wad_started : Session.Started (staged_wad 0) :=
  .opened (rfl : pakka_open_ex CStr.empty .read_write_atomic .iwad (some empty_wad) =
    .ok (staged_wad 0).pak)

/-- One more lump is always staged. -/
theorem staged_wad_step (df : Deflate) (n : ℕ) :
    (staged_wad n).step df calm_env (.add_memory lump_name []) = (.ok, staged_wad (n + 1)) := by
  have hcall : pakka_add_memory df calm_env (staged_wad n).pak lump_name [] =
      ⟨[], .ok (staged_wad (n + 1)).pak⟩ := by
    have hlink : pak_link_staged_entry (staged_wad n).pak staged_lump =
        (staged_wad (n + 1)).pak := by
      unfold pak_link_staged_entry link_entry staged_wad Session.opened
      simp only [link_at_tail_last, ofNat_succ, List.replicate_succ']
      simp only [Nat.zero_lt_succ, decide_true, Archive.mk.injEq, true_and, and_true]
      exact tail_after_link_last _ _
    rw [← hlink]
    rfl
  unfold Session.step
  rw [pakka_call, hcall]
  rfl

/-- Any number of lumps can be staged. -/
theorem staged_wad_runOk (n : ℕ) (df : Deflate) :
    (staged_wad 0).runOk df (List.replicate n (calm_env, .add_memory lump_name [])) =
      some (staged_wad n) := by
  rw [Session.runOk_replicate (staged_wad_step df), Nat.zero_add]

/-- Their commit succeeds as long as the directory fits below 2^32. -/
theorem staged_wad_commit {n : ℕ} (h0 : 0 < n) (hn : n ≤ 2 ^ 27) (df : Deflate) :
    ((staged_wad n).step df calm_env .commit).1 = .ok := by
  have hcalm : ∀ p, calm_env.faults.fails p = false := fun _ => rfl
  have hcls : IsPakClass (staged_wad 0).pak.format := by decide
  obtain ⟨geom, disk₀, hlive₀⟩ := staged_wad_started.live hcls
  obtain ⟨disk, hlive⟩ := hlive₀.runOk _ (staged_wad_runOk n df)
  have hg := hlive.state.geometry
  have hgeom : geom = ⟨ascii "IWAD", 8, 16, false⟩ := (Option.some.inj hg).symm
  have hmem : ∀ e ∈ (staged_wad n).pak.entries, e = staged_lump := fun e he =>
    List.eq_of_mem_replicate he
  have hfit : rebuilt_end calm_env geom (staged_wad n).pak.entries ≤ UINT32_MAX := by
    have hlen : (staged_wad n).pak.entries.length = n := List.length_replicate
    unfold rebuilt_end
    rw [room_eq_zero (fun e he => by rw [hmem e he]; rfl), hlen, hgeom]
    simp only [PAKFILE_HEADER_SIZE, UINT32_MAX]
    omega
  obtain ⟨pak', hres⟩ := pakka_commit_rebuild_calm hcalm hlive.state
    (fun e he => by rw [hmem e he]; rfl) hfit
  have hreb : commit_rebuilds (staged_wad n).pak := ⟨rfl, decide_eq_true h0, Or.inr (Or.inr rfl)⟩
  rw [← pakka_commit_eq_rebuild calm_env (not_zip_of_geometry hg) hlive.live hreb] at hres
  unfold Session.step
  rw [pakka_call, hlive.disk_eq, Step.of_ok hres]

/-- Every staged lump reads as nothing. -/
theorem staged_wad_reads {n k : ℕ} (hk : k < n) (df : Deflate) (sources : CStr → SourceView) :
    ReadsAt df sources (staged_wad n) 0 k [] := by
  refine ⟨staged_lump, List.getElem?_replicate_of_lt hk, ?_, ?_⟩
  · intro hx
    cases hx
  · refine ⟨{ next_offset := 0, remaining := 0 }, rfl, ?_⟩
    intro lens
    exact Yields.run rfl lens (.done rfl rfl)

/-- One lump more than the loader takes: it reads as nothing while it is staged, and is not there
for any handle that opens what its commit has published. -/
theorem staged_wad_not_reopened :
    let s := staged_wad 1048577
    Session.Started (staged_wad 0) ∧ (staged_wad 0).pak.atomic_commit = true ∧
      (staged_wad 0).runOk .storing
        (List.replicate 1048577 (calm_env, .add_memory lump_name [])) = some s ∧
      (s.step .storing calm_env .commit).1 = .ok ∧
      ReadsAt .storing (calm_env.view 0) s 0 1048576 [] ∧
      ¬ ReopensAs .storing (calm_env.view 0) s (s.step .storing calm_env .commit).2 := by
  intro s
  have hreads : ReadsAt .storing (calm_env.view 0) s 0 1048576 [] :=
    staged_wad_reads (by omega) _ _
  refine ⟨staged_wad_started, rfl, staged_wad_runOk _ _,
    staged_wad_commit (by omega) (by omega) _, hreads, ?_⟩
  intro h
  obtain ⟨fresh, hopen, hkind⟩ := h.opens CStr.empty .read (by decide)
  obtain ⟨e, hk, -⟩ := (h.view _ _ _ fresh hopen hkind (calm_env.view 0) 0 1048576 []).mpr hreads
  -- the loader would have had to take one entry too many
  have hg : pakka_pak_geometry s.pak.format = some ⟨ascii "IWAD", 8, 16, false⟩ := rfl
  have hle := open_pak_length_le hg hopen
  obtain ⟨hlt, -⟩ := List.getElem?_eq_some_iff.mp hk
  exact absurd (Nat.lt_of_lt_of_le hlt hle) (by decide)

/-- One lump of three bytes. -/
theorem staged_view_published_lump :
    let s := (staged_wad 0).run .storing [(calm_env, .add_memory lump_name [1, 2, 3])]
    let s' := (s.step .storing calm_env .commit).2
    SameView .storing (calm_env.view 0) s s' ∧ ReopensAs .storing (calm_env.view 0) s s' := by
  intro s s'
  have h := staged_view_published .storing (staged_wad 0)
    [(calm_env, .add_memory lump_name [1, 2, 3])] calm_env (calm_env.view 0)
    Deflate.storing_correct Deflate.storing_nothing_from_nothing staged_wad_started (Or.inr rfl)
    (fun _ => rfl) (by decide +kernel)
  have hloads : Loadable s.pak := by
    have hz : pakka_format_is_zip s.pak.format = false := by decide +kernel
    rw [Loadable, hz, if_neg (by simp)]
    decide +kernel
  exact ⟨h.1, h.2 (by decide +kernel) hloads⟩

end Pakka
