/-
Which committed PAK-class archives open again.

A commit that succeeds publishes a file the loader takes, as long as the handle lists no more
than `PAKFILE_MAX_ENTRIES` entries. The loader has that limit and the mutators and the directory
writer do not, so one entry more is committed as well, and the file is refused from then on.

The limit is not a matter of the layout: a file with more entries is as well formed as one with
fewer. So the condition can be neither dropped nor weakened, and the last part of the module gives a
session that shows it.
-/
import Pakka.PakSession

set_option autoImplicit false

namespace Pakka

open ByteImage Logged

/-! ## Acceptance

A file that opens lists no more entries than the loader takes.
-/

/-- A file opens under a format, in any mode, with these names in this order. -/
def AcceptedAs (file : Option Bytes) (format : Format) (names : List CStr) : Prop :=
  ∀ (path : CStr) (mode : OpenMode), path.strlen < OS_PATH_MAX →
    ∃ pak, pakka_open_ex path mode format file = .ok pak ∧
      pak.num_entries.toNat = names.length ∧ pak.entries.map Entry.filename = names

/-- The loader takes no more than its limit. -/
theorem open_pak_length_le {path : CStr} {mode : OpenMode} {format : Format} {geom : Geometry}
    {file : Option Bytes} {pak : Archive} (hg : pakka_pak_geometry format = some geom)
    (h : pakka_open_ex path mode format file = .ok pak) :
    pak.entries.length ≤ PAKFILE_MAX_ENTRIES := by
  cases file with
  | none =>
    simp only [pakka_open_ex, ite_error_eq_ok, except_bind_eq_ok, orError_eq_ok] at h
    obtain ⟨-, disk, hn, -⟩ := h
    cases hn
  | some disk =>
    obtain ⟨-, diroffset, dirlength, hd, rfl⟩ := (open_pak_iff hg).mp h
    simp only [opened_pak, length_pak_row_entries]
    exact hd.header.count_le

theorem AcceptedAs.length_le {file : Option Bytes} {format : Format} {geom : Geometry}
    {names : List CStr} (hg : pakka_pak_geometry format = some geom)
    (h : AcceptedAs file format names) : names.length ≤ PAKFILE_MAX_ENTRIES := by
  obtain ⟨pak, hopen, -, hnames⟩ := h CStr.empty .read (by decide)
  rw [← hnames, List.length_map]
  exact open_pak_length_le hg hopen

/-- A published archive is accepted. -/
theorem PakPublished.accepted {disk : Bytes} {pak : Archive} {geom : Geometry}
    (hg : pakka_pak_geometry pak.format = some geom) (h : PakPublished disk pak geom) :
    AcceptedAs (some disk) pak.format (pak.entries.map Entry.filename) := by
  intro path mode hpath
  obtain ⟨pak', hopen, hents⟩ := h.reopens hg hpath mode
  have hcls : IsPakClass pak.format := Option.isSome_iff_exists.mpr ⟨geom, hg⟩
  obtain ⟨-, diroffset, dirlength, hd, rfl⟩ := (open_pak_iff hg).mp hopen
  have hcount := (opened_pak_loaded hg hd : LoadedPak disk (opened_pak mode _ _ _ _ _)).count
  refine ⟨_, hopen, ?_, ?_⟩
  · rw [← hcount, hents, List.length_map, List.length_map]
  · rw [hents, List.map_map]
    rfl

/-! ## Commits

What is committed has the names of the handle, in order.
-/

/-- Names of a listing. -/
theorem names_pak_listing (sources : ℕ → CStr → Bytes) (disk : Bytes) (es : List Entry) :
    Catalogue.names (pak_listing sources disk es) = es.map Entry.filename := by
  unfold Catalogue.names pak_listing
  refine List.ext_getElem? fun k => ?_
  simp only [List.getElem?_map, List.getElem?_mapIdx]
  cases es[k]? <;> rfl

/-- A commit that succeeds found nothing to do, or published the handle. -/
theorem PakLive.commit_cases {df : Deflate} {format : Format} {geom : Geometry} {t : Prop}
    {env : Env} {s s' : Session} {disk : Bytes} (h : PakLive format geom t s disk)
    (hc : s.step df env .commit = (.ok, s')) :
    (s.pak.dirty = false ∧ s' = s) ∨
      ∃ disk', s'.files .live = some disk' ∧ PakCommitted env disk s.pak disk' s'.pak geom := by
  have hok : (s.step df env .commit).1 = .ok := by rw [hc]
  have hs' : (s.step df env .commit).2 = s' := by rw [hc]
  cases hd : s.pak.dirty with
  | false =>
    left
    have hstep : s.step df env .commit = (.ok, s) := by
      unfold Session.step
      rw [pakka_call, pakka_commit_clean hd]
      rfl
    rw [hstep] at hs'
    exact ⟨rfl, hs'.symm⟩
  | true =>
    right
    obtain ⟨disk', hfile, hcom⟩ := (h.commit df env).2 hok hd
    rw [hs'] at hfile hcom
    exact ⟨disk', hfile, hcom⟩

/-- A commit that succeeds leaves a clean handle. -/
theorem PakLive.commit_clean {df : Deflate} {format : Format} {geom : Geometry} {t : Prop}
    {env : Env} {s s' : Session} {disk : Bytes} (h : PakLive format geom t s disk)
    (hc : s.step df env .commit = (.ok, s')) : s'.pak.dirty = false := by
  rcases h.commit_cases hc with ⟨hd, rfl⟩ | ⟨disk', hfile, hcom⟩
  · exact hd
  · exact hcom.clean

/-- A commit that succeeds on a live handle keeps the names, and publishes as far as the loader
goes. -/
theorem PakLive.commit_names {df : Deflate} {format : Format} {geom : Geometry} {env : Env}
    {s s' : Session} {disk : Bytes} (h : PakLive format geom False s disk)
    (hc : s.step df env .commit = (.ok, s')) :
    ∃ disk', s'.files .live = some disk' ∧ s'.pak.format = format ∧
      s'.pak.entries.map Entry.filename = s.pak.entries.map Entry.filename ∧
      (s.pak.entries.length ≤ PAKFILE_MAX_ENTRIES → PakPublished disk' s'.pak geom) := by
  rcases h.commit_cases hc with ⟨hd, rfl⟩ | ⟨disk', hfile, hcom⟩
  · exact ⟨disk, h.file, h.format, rfl, h.published hd (fun hx => hx)⟩
  · have hnames : s'.pak.entries.map Entry.filename = s.pak.entries.map Entry.filename := by
      have := congrArg Catalogue.names (hcom.listing fun _ _ => [])
      rwa [names_pak_listing, names_pak_listing] at this
    refine ⟨disk', hfile, hcom.format.trans h.format, hnames, fun hmax => hcom.published ?_⟩
    have := congrArg List.length hnames
    rw [List.length_map, List.length_map] at this
    omega

/-! ## A limit of the reader only

A WAD with one lump more than the limit, added one by one. Lump names may repeat there, so the run
is short to describe.
-/

/-- The name of a lump. -/
def lump_name : CStr := ⟨ascii "A", by decide⟩

/-- An environment in which nothing fails. -/
def calm_env : Env := Env.quiet fun _ => []

/-- A created IWAD archive with `n` empty lumps of one name. -/
def crowded (n : ℕ) : Session :=
  { files := FileOp.run (fun _ => none) (pakka_create calm_env CStr.empty .iwad false).log
    pak := { init_pak_header (create_initial .iwad) with
      entries := List.replicate n { filename := lump_name, offset := 12 }
      tail := lastIndex (List.replicate n { filename := lump_name, offset := 12 })
      num_entries := UInt32.ofNat n
      dirty := decide (0 < n) } }

theorem crowded_started : Session.Started (crowded 0) :=
  .created (rfl : (pakka_create calm_env CStr.empty .iwad false).res =
    .ok (init_pak_header (create_initial .iwad)))

/-- WAD names may repeat, so one more lump is always taken. -/
theorem crowded_step (n : ℕ) (df : Deflate) :
    (crowded n).step df calm_env (.add_memory lump_name []) = (.ok, crowded (n + 1)) := by
  have hcall : pakka_add_memory df calm_env (crowded n).pak lump_name [] =
      ⟨[], .ok (crowded (n + 1)).pak⟩ := by
    have hlink : pak_link_appended_entry (crowded n).pak
        { filename := lump_name, offset := 12 } 12 0 = (crowded (n + 1)).pak := by
      unfold pak_link_appended_entry link_entry crowded
      simp only [link_at_tail_last, ofNat_succ, List.replicate_succ']
      simp only [Nat.zero_lt_succ, decide_true, Archive.mk.injEq, true_and, and_true]
      exact ⟨tail_after_link_last _ _, rfl⟩
    rw [← hlink]
    rfl
  unfold Session.step
  rw [pakka_call, hcall]
  rfl

/-- Any number of lumps can be added. -/
theorem crowded_runOk (n : ℕ) (df : Deflate) :
    (crowded 0).runOk df (List.replicate n (calm_env, .add_memory lump_name [])) =
      some (crowded n) := by
  rw [Session.runOk_replicate (crowded_step · df), Nat.zero_add]

/-- Without faults the row loop succeeds. -/
theorem write_pak_rows_calm {env : Env} (hcalm : ∀ p, env.faults.fails p = false) (f : FileId)
    (geom : Geometry) (es : List Entry) (pak : Archive) (i pos : ℕ) :
    Completes (write_pak_rows env f geom pak i pos es) := by
  induction es generalizing pak i pos with
  | nil => exact completes_pure _
  | cons e es ih =>
    rw [write_pak_rows]
    apply (completes_writeAt (hcalm _)).bind
    intro _ _
    exact ih _ _ _

/-- Without faults a directory is written as long as it fits below 2^32. -/
theorem write_pak_directory_calm {env : Env} (hcalm : ∀ p, env.faults.fails p = false)
    {f : FileId} {pak : Archive} {geom : Geometry} (hg : pakka_pak_geometry pak.format = some geom)
    (hfit : pak.entries.length = 0 ∨
      pak.payload_end + pak.num_entries.toNat * geom.dir_entry_size ≤ UINT32_MAX) :
    Completes (write_pak_directory env f pak) := by
  have hhead : ∀ p : Archive, Completes (write_pak_header env f p) :=
    fun p => completes_writeAt (hcalm _)
  unfold write_pak_directory
  rw [hg]
  apply Completes.bind ⟨geom, rfl⟩
  intro geom' hgeom
  obtain rfl : geom = geom' := Except.ok.inj hgeom
  by_cases h0 : pak.entries.length = 0
  · rw [if_pos h0]
    apply (completes_call (hcalm _)).bind
    intro _ _
    apply (hhead _).bind
    intro _ _
    exact completes_pure _
  · rw [if_neg h0, if_neg (by have := hfit.resolve_left h0; omega)]
    apply (completes_call (hcalm _)).bind
    intro _ _
    apply (write_pak_rows_calm hcalm f geom _ _ _ _).bind
    intro p _
    apply (completes_call (hcalm _)).bind
    intro _ _
    apply (hhead p).bind
    intro _ _
    exact completes_pure _

/-- Without faults an in-place commit succeeds as long as the directory fits below 2^32. -/
theorem pakka_commit_in_place_calm {env : Env} (hcalm : ∀ p, env.faults.fails p = false)
    {pak : Archive} {geom : Geometry} (hg : pakka_pak_geometry pak.format = some geom)
    (hfit : pak.entries.length = 0 ∨
      pak.payload_end + pak.num_entries.toNat * geom.dir_entry_size ≤ UINT32_MAX) :
    Completes (pakka_commit_in_place env pak) := by
  unfold pakka_commit_in_place
  apply (write_pak_directory_calm hcalm hg hfit).bind
  intro p _
  apply (completes_call (hcalm _)).bind
  intro _ _
  exact completes_pure _

/-- The commit of that many lumps goes by their count. -/
theorem crowded_commit_ok {n : ℕ} (h0 : 0 < n)
    (hfit : 12 + (crowded n).pak.num_entries.toNat * 16 ≤ UINT32_MAX) :
    ∃ pak', (pakka_commit calm_env (crowded n).disk (crowded n).pak).res = .ok pak' := by
  have hg : pakka_pak_geometry (crowded n).pak.format = some ⟨ascii "IWAD", 8, 16, false⟩ := rfl
  have hcalm : ∀ p, calm_env.faults.fails p = false := fun _ => rfl
  obtain ⟨pak', hres⟩ := pakka_commit_in_place_calm hcalm hg (Or.inr hfit)
  have hcommit : pakka_commit calm_env (crowded n).disk (crowded n).pak =
      pakka_commit_in_place calm_env (crowded n).pak := by
    unfold pakka_commit
    rw [if_neg (by simp [crowded, h0])]
    rfl
  exact ⟨pak', by rw [hcommit, hres]⟩

/-- The directory writer takes as many rows as its words can count. -/
theorem crowded_commit {n : ℕ} (h0 : 0 < n) (hn : n ≤ 2 ^ 27) (df : Deflate) :
    ((crowded n).step df calm_env .commit).1 = .ok := by
  have hsize : (crowded n).pak.num_entries.toNat = n := by
    change (UInt32.ofNat n).toNat = n
    rw [UInt32.toNat_ofNat', Nat.mod_eq_of_lt (by omega)]
  obtain ⟨pak', hres⟩ := crowded_commit_ok h0 (by
    simp only [hsize, UINT32_MAX]
    omega)
  unfold Session.step
  rw [pakka_call, Step.of_ok hres]

/-- One lump more than the loader takes: every add and the commit succeed, and the file is not
accepted. -/
theorem crowded_wad_not_accepted :
    ∃ s₁ s₂ : Session, Session.Started (crowded 0) ∧ IsPakClass (crowded 0).pak.format ∧
      (crowded 0).runOk .storing
          (List.replicate 1048577 (calm_env, .add_memory lump_name [])) = some s₁ ∧
        s₁.step .storing calm_env .commit = (.ok, s₂) ∧
        ¬ AcceptedAs (s₂.files .live) (crowded 0).pak.format
          (s₁.pak.entries.map Entry.filename) := by
  have hok := crowded_commit (n := 1048577) (by omega) (by omega) .storing
  refine ⟨crowded 1048577, ((crowded 1048577).step .storing calm_env .commit).2, crowded_started,
    by decide, crowded_runOk _ _, Prod.ext hok rfl, fun h => ?_⟩
  have hg : pakka_pak_geometry (crowded 0).pak.format = some ⟨ascii "IWAD", 8, 16, false⟩ := rfl
  have hle := h.length_le hg
  have hlen : ∀ n, (crowded n).pak.entries.length = n := fun n => List.length_replicate
  rw [List.length_map, hlen] at hle
  exact absurd hle (by decide)

end Pakka
