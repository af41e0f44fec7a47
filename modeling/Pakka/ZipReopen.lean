/-
Which committed ZIP archives open again, and under which names.

A name is written as it is and marked as UTF-8 when it is; the loader reads what is not UTF-8 as
CP437. So a file opens with the names its handle lists when they are UTF-8. Two marks of a larger
format are left to avoid: a directory of 65535 records and a length of 2^32 - 1.

Calls that keep to such names and lengths are portable, and a session of portable calls ends in a
file that opens. Other calls are accepted by the library all the same, and what becomes of a name
that is no UTF-8 is shown at the end.
-/
import Pakka.ZipSession
import Pakka.PakReopen

set_option autoImplicit false

namespace Pakka

open ByteImage Logged

/-! ## Opening

What a file shows.
-/

/-- A file opens as a ZIP archive, under every hint that allows it and in any mode, with this
listing. -/
def ZipOpensWith (file : Option Bytes) (listing : Catalogue CStr ZipItem) : Prop :=
  ∃ disk, file = some disk ∧ ∀ (path : CStr) (mode : OpenMode) (hint : Format),
    path.strlen < OS_PATH_MAX → (hint = .auto ∨ hint = .pk3 ∨ hint = .pk4) →
      ∃ pak, pakka_open_ex path mode hint (some disk) = .ok pak ∧
        pakka_format_is_zip pak.format = true ∧ pak.num_entries.toNat = listing.length ∧
        ∀ sources, zip_listing sources disk pak.entries = listing

/-- A file opens as a ZIP archive, under every hint that allows it and in any mode, with these
names in this order. -/
def ZipAcceptedAs (file : Option Bytes) (names : List CStr) : Prop :=
  ∀ (path : CStr) (mode : OpenMode) (hint : Format), path.strlen < OS_PATH_MAX →
    (hint = .auto ∨ hint = .pk3 ∨ hint = .pk4) →
      ∃ pak, pakka_open_ex path mode hint file = .ok pak ∧
        pak.num_entries.toNat = names.length ∧ pak.entries.map Entry.filename = names

/-- Names of a listing. -/
theorem names_zip_listing (sources : ℕ → CStr → Bytes) (disk : Bytes) (es : List Entry) :
    Catalogue.names (zip_listing sources disk es) = es.map Entry.filename := by
  unfold Catalogue.names zip_listing
  refine List.ext_getElem? fun k => ?_
  simp only [List.getElem?_map, List.getElem?_mapIdx]
  cases es[k]? <;> rfl

/-- A directory opens. -/
theorem ZipDirectory.opens {disk : Bytes} {h : Eocd} {cdr : Bytes} {l : List Listed}
    {es : List Entry} (hd : ZipDirectory disk h cdr l es) {path : CStr} (mode : OpenMode)
    {hint : Format} (hpath : path.strlen < OS_PATH_MAX)
    (hhint : hint = .auto ∨ hint = .pk3 ∨ hint = .pk4) :
    ∃ pak, pakka_open_ex path mode hint (some disk) = .ok pak ∧
      pakka_format_is_zip pak.format = true ∧ pak.num_entries.toNat = es.length ∧
      pak.entries = es := by
  have heq : opened_zip mode hint (zip_format path hint) disk h es =
      opened_zip mode hint (zip_format path hint) disk h es := rfl
  obtain ⟨hopen, hzip⟩ := (open_zip_iff hhint).mpr ⟨hpath, h, cdr, l, es, hd, heq⟩
  exact ⟨_, hopen, hzip, hd.count, rfl⟩

/-! ## Published archives

Names and sizes that the loader takes back.
-/

/-- An entry whose name is UTF-8 and whose length is not the mark of a larger format. -/
structure ZipPortable (e : Entry) : Prop where
  utf8 : pakka_is_valid_utf8 e.filename.bytes = true
  length : e.length ≠ 0xFFFFFFFF

/-- Opened entries are portable. -/
theorem ZipDirectory.portable {disk : Bytes} {h : Eocd} {cdr : Bytes} {l : List Listed}
    {es : List Entry} (hd : ZipDirectory disk h cdr l es) : ∀ e ∈ es, ZipPortable e := by
  intro e he
  refine ⟨(hd.opened_entry e he).name.utf8, ?_⟩
  obtain ⟨skipped, hw⟩ := hd.walk
  obtain ⟨hck, -, hlist, -⟩ := hw.records
  obtain ⟨i, hi, rfl⟩ := List.mem_iff_getElem.mp he
  have hdesc := described_validated hlist hd.entries
  have hip := hdesc.length_eq ▸ hi
  have hget := hdesc.get hip hi
  simp only [List.get_eq_getElem] at hget
  rw [hget.usize]
  exact (hck _ (List.mem_filter.mp (List.getElem_mem hip)).1).no_zip64.2.1

/-- **A published archive of portable entries opens with the listing of its handle.** -/
theorem ZipPublished.opens_with {disk : Bytes} {pak : Archive} {n : ℕ}
    (h : ZipPublished disk pak) (hstate : ZipState n pak)
    (hportable : ∀ e ∈ pak.entries, ZipPortable e) (hcount : pak.entries.length ≠ 0xFFFF)
    (sources : ℕ → CStr → Bytes) :
    ZipOpensWith (some disk) (zip_listing sources disk pak.entries) := by
  have hlen : ∀ (sources : ℕ → CStr → Bytes) (es : List Entry),
      (zip_listing sources disk es).length = es.length := fun _ _ => List.length_mapIdx
  cases h with
  | read hd =>
    refine ⟨disk, rfl, fun path mode hint hpath hhint => ?_⟩
    obtain ⟨pak', hopen, hzip, hnum, hents⟩ := hd.opens mode hpath hhint
    refine ⟨pak', hopen, hzip, by rw [hnum, hlen], fun sources' => ?_⟩
    rw [hents]
    exact zip_listing_on_disk (fun e he => (hd.opened_entry e he).not_staged) _ _
  | @written xs himage hfile hents =>
    subst hfile
    have hmem : ∀ x ∈ xs, { x.1 with pending_source := none, pending_data := none } ∈
        pak.entries := by
      intro x hx
      rw [hents]
      exact List.mem_map_of_mem (List.mem_map_of_mem hx)
    have hname : ∀ x ∈ xs, zip_name_read x.1.filename = x.1.filename := fun x hx =>
      zip_name_read_utf8 (hportable _ (hmem x hx)).utf8 (himage.named x hx).name_fits
    have hxs : xs.length = pak.entries.length := by
      rw [hents, drop_pending, List.length_map, List.length_map]
    obtain ⟨cdr, l, hd⟩ := himage.directory
      (fun x hx => ZipReadable.of_utf8 (hportable _ (hmem x hx)).utf8
        (himage.named x hx).name_fits (hportable _ (hmem x hx)).length)
      (by rw [hxs]; exact hcount) (by
        have hnodup := hstate.linked.nodup (zip_not_wad hstate.zip)
        rw [hents, drop_pending, List.map_map, List.map_map] at hnodup
        rw [List.map_congr_left hname]
        exact hnodup)
    refine ⟨_, rfl, fun path mode hint hpath hhint => ?_⟩
    obtain ⟨pak', hopen, hzip, hnum, hents'⟩ := hd.opens mode hpath hhint
    refine ⟨pak', hopen, hzip, ?_, fun sources' => ?_⟩
    · rw [hnum, hlen, ← hxs, List.length_map]
    · rw [hents', hents, himage.listing_loaded, himage.listing_committed]
      refine List.map_congr_left fun x hx => ?_
      rw [hname x hx]
      rfl

/-- **A published archive of readable entries opens with the names the loader reads**, as long as
these stay distinct. -/
theorem ZipPublished.accepted {disk : Bytes} {pak : Archive} (h : ZipPublished disk pak)
    (hread : ∀ e ∈ pak.entries, ZipReadable e) (hcount : pak.entries.length ≠ 0xFFFF)
    (hnodup : (pak.entries.map fun e => zip_name_read e.filename).Nodup) :
    ZipAcceptedAs (some disk) (pak.entries.map fun e => zip_name_read e.filename) := by
  intro path mode hint hpath hhint
  cases h with
  | read hd =>
    obtain ⟨pak', hopen, -, hnum, hents⟩ := hd.opens mode hpath hhint
    have hnames : pak.entries.map (fun e => zip_name_read e.filename) =
        pak.entries.map Entry.filename := by
      refine List.map_congr_left fun e he => ?_
      have ho := hd.opened_entry e he
      exact zip_name_read_utf8 ho.name.utf8 ho.name.fits
    refine ⟨pak', hopen, by rw [hnum, List.length_map], ?_⟩
    rw [hents, hnames]
  | @written xs himage hfile hents =>
    subst hfile
    rw [hents] at hread hcount hnodup ⊢
    rw [drop_pending, List.map_map, List.map_map] at hnodup
    rw [drop_pending, List.length_map, List.length_map] at hcount
    have hxread : ∀ x ∈ xs, ZipReadable x.1 := by
      intro x hx
      have := hread _ (List.mem_map_of_mem (List.mem_map_of_mem hx))
      exact ⟨this.decodes, this.length⟩
    obtain ⟨cdr, l, hd⟩ := himage.directory hxread hcount hnodup
    obtain ⟨pak', hopen, -, hnum, hents'⟩ := hd.opens mode hpath hhint
    rw [drop_pending, List.map_map, List.map_map]
    refine ⟨pak', hopen, ?_, ?_⟩
    · rw [hnum, List.length_map, List.length_map]
    · rw [hents', List.map_map]
      rfl

/-! ## Portable calls

Calls that give no entry a name or a size outside of these.
-/

/-- A call that gives no entry a name outside of UTF-8, or a length that marks a larger format. -/
def call_portable (env : Env) : Call → Prop
  | .add_file source_path entry_name => pakka_is_valid_utf8 entry_name.bytes = true ∧
      ∀ src, (env.view 0 source_path).stream = some src → src.length ≠ UINT32_MAX
  | .add_memory entry_name data =>
    pakka_is_valid_utf8 entry_name.bytes = true ∧ data.length ≠ UINT32_MAX
  | .rename _ new_name => pakka_is_valid_utf8 new_name.bytes = true
  | .copy _ dst_name => pakka_is_valid_utf8 dst_name.bytes = true
  | _ => True

variable {df : Deflate} {format : Format} {s : Session} {disk : Bytes} {env : Env} {c : Call}

/-- What an add records of its source's length. -/
theorem ZipAdded.length {method : UInt16} {entry_name : CStr} {source_path : Option CStr}
    {src : Bytes} {e : Entry} (h : ZipAdded df env method entry_name source_path src e) :
    e.filename = entry_name ∧ e.length.toNat = src.length ∧
      ∀ path, source_path = some path →
        ∃ first, (env.view 0 path).stream = some first ∧ first.length = src.length := by
  cases h with
  | source hview hlen hplain =>
    refine ⟨rfl, ofNat_toNat_of_le hlen, ?_⟩
    rintro path hp
    obtain rfl := Option.some.inj hp
    exact ⟨_, hview, rfl⟩
  | @captured _ _ enc hlen hsource henc =>
    have hfields : (pk3_stash (pk3_new_entry entry_name (crc32_of src) src.length) src enc).filename =
        entry_name ∧ (pk3_stash (pk3_new_entry entry_name (crc32_of src) src.length) src
          enc).length = UInt32.ofNat src.length := by
      cases enc <;> exact ⟨rfl, rfl⟩
    refine ⟨hfields.1, by rw [hfields.2]; exact ofNat_toNat_of_le hlen, ?_⟩
    intro path hp
    obtain ⟨first, second, h1, -, h3⟩ := hsource path hp
    exact ⟨first, h1, (readExact_eq_some.mp h3).2.symm⟩

/-- **Portable calls keep entries portable.** -/
theorem zip_portable_effect {pak pak' : Archive} {n : ℕ} (h : ZipState n pak)
    (hportable : ∀ e ∈ pak.entries, ZipPortable e) (hc : call_portable env c)
    (he : ZipEffect df env pak c pak') : ∀ e ∈ pak'.entries, ZipPortable e := by
  have hadd : ∀ {name source src e}, pakka_is_valid_utf8 name.bytes = true →
      src.length ≠ UINT32_MAX → ZipAdded df env pak.pk3_compression name source src e →
      ∀ x ∈ (pk3_link_pending_entry pak e).entries, ZipPortable x := by
    intro name source src e hutf8 hne ha x hx
    change x ∈ (link_entry pak e).entries at hx
    rw [h.linked.link_entries, List.mem_append, List.mem_singleton] at hx
    rcases hx with hx | rfl
    · exact hportable x hx
    · obtain ⟨hname, hlen, -⟩ := ha.length
      refine ⟨hname ▸ hutf8, fun hmark => hne ?_⟩
      rw [← hlen, hmark]
      rfl
  cases he with
  | add_file hname ha =>
    obtain ⟨-, -, hfirst⟩ := ha.length
    obtain ⟨first, hview, hlen⟩ := hfirst _ rfl
    exact hadd hc.1 (hlen ▸ hc.2 first hview) ha
  | add_memory hname ha => exact hadd hc.1 hc.2 ha
  | name hn =>
    have hutf8 : ∀ m, c.new_name = some m → pakka_is_valid_utf8 m.bytes = true := by
      intro m hm
      cases hn with
      | same => exact Option.some.inj hm ▸ hc
      | rename => exact Option.some.inj hm ▸ hc
      | copy => exact Option.some.inj hm ▸ hc
      | delete => cases hm
      | set_compression => cases hm
    refine hn.forall_entries h.linked hportable ?_ ?_
    · intro e he m hm _
      exact ⟨hutf8 m hm, (hportable e he).length⟩
    · intro e he m hm _
      have hlen := (hportable e he).length
      unfold copied_entry
      split_ifs <;> exact ⟨hutf8 m hm, hlen⟩

/-- What is kept by placing an entry and by dropping what it was staged from holds after a commit
as it did before. -/
theorem ZipCommitted.forall_entries {P : Entry → Prop} {pak pak' : Archive} {disk' : Bytes}
    (h : ZipCommitted env disk pak disk' pak') (hP : ∀ e ∈ pak.entries, P e)
    (hplace : ∀ e cur, P e → P (pk3_place_entry e cur))
    (hdrop : ∀ e, P e → P { e with pending_source := none, pending_data := none }) :
    ∀ e ∈ pak'.entries, P e := by
  intro e he
  rw [h.entries] at he
  obtain ⟨y, hy, rfl⟩ := List.mem_map.mp he
  obtain ⟨x, hx, rfl⟩ := List.mem_map.mp hy
  exact hdrop _ (zip_place_forall hP hplace x hx)

/-- A commit keeps entries portable. -/
theorem ZipCommitted.portable {pak pak' : Archive} {disk' : Bytes}
    (h : ZipCommitted env disk pak disk' pak') (hportable : ∀ e ∈ pak.entries, ZipPortable e) :
    ∀ e ∈ pak'.entries, ZipPortable e :=
  h.forall_entries hportable (fun _ _ hp => ⟨hp.utf8, hp.length⟩) fun _ hp => ⟨hp.utf8, hp.length⟩

/-- A commit keeps entries readable. -/
theorem ZipCommitted.readable {pak pak' : Archive} {disk' : Bytes}
    (h : ZipCommitted env disk pak disk' pak') (hread : ∀ e ∈ pak.entries, ZipReadable e) :
    ∀ e ∈ pak'.entries, ZipReadable e :=
  h.forall_entries hread (fun _ _ hp => ⟨hp.decodes, hp.length⟩)
    fun _ hp => ⟨hp.decodes, hp.length⟩

/-- A commit keeps names. -/
theorem ZipCommitted.names {pak pak' : Archive} {disk' : Bytes}
    (h : ZipCommitted env disk pak disk' pak') :
    pak'.entries.map Entry.filename = pak.entries.map Entry.filename := by
  have := congrArg Catalogue.names (h.listing fun _ _ => [])
  rwa [names_zip_listing, names_zip_listing] at this

/-- A portable call that succeeds. -/
theorem ZipLive.step_portable (h : ZipLive format s disk)
    (hportable : ∀ e ∈ s.pak.entries, ZipPortable e) (hc : call_portable env c)
    (hok : (s.step df env c).1 = .ok) : ∀ e ∈ (s.step df env c).2.pak.entries, ZipPortable e := by
  by_cases hcommit : c = .commit
  · subst hcommit
    have hstep : s.step df env .commit = (.ok, (s.step df env .commit).2) := Prod.ext hok rfl
    rcases h.commit_cases hstep with ⟨-, hs⟩ | ⟨disk', -, hcom⟩
    · rw [hs]
      exact hportable
    · exact hcom.portable hportable
  · exact zip_portable_effect h.state hportable hc (zip_call_ok _ _ _ h.state.zip hcommit hok)

/-- A run of portable calls that all succeed. -/
theorem ZipLive.runOk_portable (calls : List (Env × Call)) {s s' : Session} {disk : Bytes}
    (h : ZipLive format s disk) (hportable : ∀ e ∈ s.pak.entries, ZipPortable e)
    (hcalls : ∀ p ∈ calls, call_portable p.1 p.2) (hrun : s.runOk df calls = some s') :
    ∀ e ∈ s'.pak.entries, ZipPortable e := by
  induction calls generalizing s disk with
  | nil =>
    obtain rfl := Option.some.inj hrun
    exact hportable
  | cons p calls ih =>
    obtain ⟨env, c⟩ := p
    rw [Session.runOk] at hrun
    split_ifs at hrun with hok
    obtain ⟨disk', h'⟩ := h.step_ok hok
    exact ih h' (h.step_portable hportable (hcalls _ List.mem_cons_self) hok)
      (fun q hq => hcalls q (List.mem_cons_of_mem _ hq)) hrun

/-- **A session starts with portable entries.** -/
theorem Session.Started.portable (h : Session.Started s)
    (hzip : pakka_format_is_zip s.pak.format = true) : ∀ e ∈ s.pak.entries, ZipPortable e := by
  cases h with
  | opened hopen =>
    obtain ⟨hd, cdr, l, es, hdir, rfl⟩ := open_zip_directory hopen hzip
    exact hdir.portable
  | created hcreate =>
    obtain ⟨-, hnil⟩ := ZipLive.created hcreate hzip
    intro e he
    exact absurd he (List.eq_nil_iff_forall_not_mem.mp hnil e)

/-! ## Commits

A commit after such calls.
-/

/-- **A commit that succeeds** on portable entries leaves a file with the listing of before. -/
theorem ZipLive.commit_opens {s' : Session} (h : ZipLive format s disk)
    (hportable : ∀ e ∈ s.pak.entries, ZipPortable e) (hcount : s.pak.entries.length ≠ 0xFFFF)
    (hc : s.step df env .commit = (.ok, s')) :
    s'.pak.dirty = false ∧ s'.pak.entries.map Entry.filename = s.pak.entries.map Entry.filename ∧
      ZipOpensWith (s'.files .live) (zip_listing env.sources disk s.pak.entries) := by
  rcases h.commit_cases hc with ⟨hd, rfl⟩ | ⟨disk', hfile, hcom⟩
  · refine ⟨hd, rfl, ?_⟩
    rw [h.file]
    exact (h.published hd).opens_with h.state hportable hcount env.sources
  · have hlist := hcom.listing env.sources
    have hnames := hcom.names
    have hlen : s'.pak.entries.length = s.pak.entries.length := by
      have := congrArg List.length hnames
      rwa [List.length_map, List.length_map] at this
    refine ⟨hcom.clean, hnames, ?_⟩
    rw [hfile, ← hlist]
    exact (ZipPublished.written hcom.image hcom.file hcom.entries).opens_with hcom.state
      (hcom.portable hportable) (by rw [hlen]; exact hcount) env.sources

/-- **A commit that succeeds** on readable entries leaves a file that opens with their names as
the loader reads them. -/
theorem ZipLive.commit_accepted {s' : Session} (h : ZipLive format s disk)
    (hc : s.step df env .commit = (.ok, s')) (hread : ∀ e ∈ s.pak.entries, ZipReadable e)
    (hcount : s.pak.entries.length ≠ 0xFFFF)
    (hnodup : (s.pak.entries.map fun e => zip_name_read e.filename).Nodup) :
    ZipAcceptedAs (s'.files .live) (s.pak.entries.map fun e => zip_name_read e.filename) := by
  rcases h.commit_cases hc with ⟨hd, rfl⟩ | ⟨disk', hfile, hcom⟩
  · rw [h.file]
    exact (h.published hd).accepted hread hcount hnodup
  · have hnames := congrArg (List.map zip_name_read) hcom.names
    rw [List.map_map, List.map_map] at hnames
    have hlen := congrArg List.length hcom.names
    rw [List.length_map, List.length_map] at hlen
    rw [hfile]
    change ZipAcceptedAs _ (s.pak.entries.map (zip_name_read ∘ Entry.filename))
    rw [← hnames]
    refine (ZipPublished.written hcom.image hcom.file hcom.entries).accepted
      (hcom.readable hread) (by rw [hlen]; exact hcount) ?_
    change (s'.pak.entries.map (zip_name_read ∘ Entry.filename)).Nodup
    rw [hnames]
    exact hnodup

/-- **Every ZIP commit can be opened again.** After any calls that succeed, the file that a
successful commit leaves is accepted in every mode and under every hint that allows ZIP, with as
many entries as the handle lists and their names in this order, each as the loader reads it: a
name in UTF-8 as it is, any other one as CP437. What the loader reads has to fit and to be
distinct, and the count and the lengths must not be marks of a larger format. -/
theorem zip_commit_accepted (df : Deflate) (s s₁ s₂ : Session) (calls : List (Env × Call))
    (env : Env) (hstart : Session.Started s) (hzip : pakka_format_is_zip s.pak.format = true)
    (hrun : s.runOk df calls = some s₁) (hcommit : s₁.step df env .commit = (.ok, s₂))
    (hread : ∀ e ∈ s₁.pak.entries, ZipReadable e) (hcount : s₁.pak.entries.length ≠ 0xFFFF)
    (hnodup : (s₁.pak.entries.map fun e => zip_name_read e.filename).Nodup) :
    ZipAcceptedAs (s₂.files .live) (s₁.pak.entries.map fun e => zip_name_read e.filename) := by
  obtain ⟨disk, hlive⟩ := hstart.zip_live hzip
  obtain ⟨disk₁, hlive₁⟩ := hlive.runOk calls hrun
  exact hlive₁.commit_accepted hcommit hread hcount hnodup

/-! ## A name in another encoding

A name with a byte that is no UTF-8 is accepted, committed, and read back as another one.
-/

/-- A created PK3 archive. -/
def created_pk3 : Session :=
  Session.created (pakka_create calm_env CStr.empty .pk3 false)
    { create_initial .pk3 with max_decompressed := PK3_DEFAULT_MAX_DECOMPRESSED }

theorem created_pk3_started : Session.Started created_pk3 :=
  .created (rfl : (pakka_create calm_env CStr.empty .pk3 false).res =
    .ok { create_initial .pk3 with max_decompressed := PK3_DEFAULT_MAX_DECOMPRESSED })

/-- Adding an empty entry whose name is one byte that is no UTF-8. -/
def add_high_byte : Call := .add_memory ⟨[0x80], by decide⟩ []

/-- The archive with that entry is accepted, under the name that CP437 has for the byte. -/
theorem zip_commit_accepted_high_byte :
    let s := created_pk3.run .storing [(calm_env, add_high_byte)]
    ZipAcceptedAs ((s.step .storing calm_env .commit).2.files .live)
      (s.pak.entries.map fun e => zip_name_read e.filename) ∧
      (s.pak.entries.map fun e => zip_name_read e.filename) = [⟨[0xC3, 0x87], by decide⟩] := by
  intro s
  have hone : s.pak.entries.map (fun e => (e.filename, e.length)) =
      [(⟨[0x80], by decide⟩, 0)] := by
    decide +kernel
  have hread : ∀ e ∈ s.pak.entries, ZipReadable e := by
    intro e he
    have hmem := List.mem_map_of_mem (f := fun e : Entry => (e.filename, e.length)) he
    rw [hone, List.mem_singleton, Prod.mk.injEq] at hmem
    refine ⟨⟨[0xC3, 0x87], ?_⟩, ?_⟩
    · rw [hmem.1]
      decide +kernel
    · rw [hmem.2]
      decide
  exact ⟨zip_commit_accepted .storing created_pk3 s _ [(calm_env, add_high_byte)] calm_env
    created_pk3_started (by decide) (Session.runOk_eq_run (by decide +kernel))
    (Prod.ext (by decide +kernel) rfl) hread (by decide +kernel) (by decide +kernel),
    by decide +kernel⟩

/-- So it is not accepted under the name the handle lists. -/
theorem high_byte_name_not_kept :
    let s := created_pk3.run .storing [(calm_env, add_high_byte)]
    Session.Started created_pk3 ∧ pakka_format_is_zip created_pk3.pak.format = true ∧
      created_pk3.runOk .storing [(calm_env, add_high_byte)] = some s ∧
      (s.step .storing calm_env .commit).1 = .ok ∧
      ¬ ZipAcceptedAs ((s.step .storing calm_env .commit).2.files .live)
        (s.pak.entries.map Entry.filename) := by
  intro s
  refine ⟨created_pk3_started, by decide, Session.runOk_eq_run (by decide +kernel),
    by decide +kernel, fun h => ?_⟩
  obtain ⟨pak, hopen, -, hnames⟩ := h CStr.empty .read .pk3 (by decide) (Or.inr (Or.inl rfl))
  have hread : (pakka_open_ex CStr.empty .read .pk3
      ((s.step .storing calm_env .commit).2.files .live)).map
        (fun pak => pak.entries.map Entry.filename) = .ok [⟨[0xC3, 0x87], by decide⟩] := by
    decide +kernel
  rw [hopen] at hread
  have hkept : s.pak.entries.map Entry.filename = [⟨[0x80], by decide⟩] := by decide +kernel
  rw [hkept] at hnames
  change Except.ok (pak.entries.map Entry.filename) = _ at hread
  rw [hnames] at hread
  exact absurd hread (by decide)

end Pakka
