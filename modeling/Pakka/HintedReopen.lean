/-
What opens again under the hint of its session.

A session is opened under a hint, or created with one, and the hint may be `auto`. A commit or a
close publishes under the format of the handle, which is what the hint resolved to; whether the
file opens under the hint again is another question. For an explicit hint the two formats agree.
Under `auto` the loader goes by the magic, and where the magic is `PACK` it probes the directory
as rows of 64 bytes and as rows of 72 and takes the layout that passes. A directory can pass as
both: nine rows of Quake's are as long as eight of Daikatana's, and names and numbers can be chosen
so that both readings are in range. Such a file is refused as ambiguous, although every call that
made it succeeded.

So the two results about reopening have two conditions each. The first is the limit that the
loader has and the writer does not, or the directory that a failed add tore. The second is that
under `auto` the file is not an archive of the other layout as well (`Unmistakable`). For the
commit both conditions together are exactly what acceptance needs.
-/
import Pakka.AutoProbe
import Pakka.PakClose
import Pakka.ZipLoadSpec

set_option autoImplicit false

namespace Pakka

open ByteImage Logged

variable {disk : Bytes} {format hint : Format} {geom : Geometry} {path : CStr} {mode : OpenMode}

/-! ## The hint of a session -/

/-- How a session starts under a hint: by opening a file under it, or by creating an archive with
it. -/
inductive Session.StartedUnder (hint : Format) : Session → Prop where
  | opened {path : CStr} {mode : OpenMode} {disk : Bytes} {pak : Archive}
      (h : pakka_open_ex path mode hint (some disk) = .ok pak) :
      StartedUnder hint (Session.opened disk pak)
  | created {env : Env} {path : CStr} {pak : Archive}
      (h : (pakka_create env path hint false).res = .ok pak) :
      StartedUnder hint (Session.created (pakka_create env path hint false) pak)

theorem Session.StartedUnder.started {s : Session} (h : Session.StartedUnder hint s) :
    Session.Started s := by
  cases h with
  | opened hopen => exact .opened hopen
  | created hcreate => exact .created hcreate

/-- A PAK-class session has the format of its hint, unless the hint is `auto`. -/
theorem Session.StartedUnder.hint_eq {s : Session} (h : Session.StartedUnder hint s)
    (hcls : IsPakClass s.pak.format) (hauto : hint ≠ .auto) : hint = s.pak.format := by
  cases h with
  | @opened path mode disk pak hopen =>
    have hhint := (open_pak_class_hint hcls hopen).resolve_right fun hx => hauto hx.1
    obtain ⟨geom, hg⟩ := Option.isSome_iff_exists.mp hhint
    obtain ⟨-, _, _, -, heq⟩ := (open_pak_iff hg).mp hopen
    exact (congrArg Archive.format heq).symm
  | @created env path pak hcreate =>
    have hformat := created_format hcreate
    rw [pakka_create_format, if_neg hauto] at hformat
    exact hformat.symm

/-! ## From the format of a file to an `auto` hint

An `auto` open reads the format off the magic and probes only behind `PACK`. What it settles on is
opened as under that format, so a file that opens under its format opens under `auto` as soon as
the probe finds one layout only, or there is no directory to probe.
-/

/-- The format an `auto` hint reads from a signature, before it probes. -/
def signature_format (format : Format) : Format := if format = .daikatana then .pak else format

/-- **An `auto` open that settles on a format** opens what is there under it. -/
theorem open_auto_of_settled {diroffset dirlength : UInt32} (mode : OpenMode)
    (hg : pakka_pak_geometry format = some geom) (hpath : path.strlen < OS_PATH_MAX)
    (hd : PakDirectory disk format geom diroffset dirlength)
    (hsettle : settle_pak_format disk .auto (signature_format format) diroffset dirlength =
      .ok format) :
    pakka_open_ex path mode .auto (some disk) =
      .ok (with_auto (opened_pak mode format geom disk diroffset dirlength)) := by
  have hhdr := hd.header
  have hin := hhdr.in_file
  have hfits := hhdr.fits
  have hoff := hhdr.diroffset_ge
  have h12 : PAKFILE_HEADER_SIZE = 12 := rfl
  obtain ⟨-, hcount⟩ := row_count_eq hg dirlength
  have hwhole : dirlength.toNat / geom.dir_entry_size * geom.dir_entry_size =
      dirlength.toNat := Nat.div_mul_cancel (Nat.dvd_of_mod_eq_zero hhdr.whole_rows)
  have hsig : readExact disk 0 4 = some geom.signature := by
    rw [readExact_of_le (by omega), hhdr.signature]
  -- the magic names the format, but for the two that share one
  have hformat : pak_format_of_signature .auto geom.signature = .ok (signature_format format) ∧
      read_pak_header disk (signature_format format) = .ok (diroffset, dirlength) := by
    have hwords := hhdr.words
    cases format <;> first
      | (cases hg; done)
      | (obtain rfl := Option.some.inj hg
         exact ⟨by decide, hwords⟩)
  simp only [pakka_open_ex, ite_error_eq_ok, not_le, except_bind_eq_ok, orError_eq_ok,
    Option.some.injEq, exists_eq_left', except_pure_eq_ok]
  refine ⟨hpath, { open_initial mode .auto with
      format := format, signature := geom.signature, diroffset := diroffset
      dirlength := dirlength, file_size := disk.length
      num_entries := UInt32.ofNat (dirlength.toNat / geom.dir_entry_size) }, ?_,
      with_auto (opened_pak mode format geom disk diroffset dirlength), ?_, (), ?_, rfl⟩
  · simp only [load_pakfile, except_bind_eq_ok, orError_eq_ok]
    refine ⟨_, hsig, ?_⟩
    rw [not_zip_magic hg, if_neg (by simp)]
    simp only [load_pak_class, except_bind_eq_ok, ite_error_eq_ok]
    refine ⟨signature_format format, hformat.1, (diroffset, dirlength), hformat.2, ?_, ?_, format,
      hsettle, ?_⟩
    · simp only
      omega
    · simp only
      omega
    · exact (load_pak_geometry_ok (by exact hg)).mpr ⟨hhdr.whole_rows, hhdr.count_le, rfl⟩
  · simp only [load_entries, not_zip_of_geometry hg, Bool.false_eq_true, if_false]
    refine (load_directory_ok (by exact hg) rfl rfl
      (by simp only [hcount, hwhole]; exact hin)).mpr ?_
    simp only [hcount]
    exact ⟨hd.in_range, rfl⟩
  · exact (validate_no_duplicates_ok
      (by simp only [with_auto, opened_pak, hcount, length_pak_row_entries])).mpr hd.nodup

/-- **An archive that is not mistaken for another**: if it has entries, its file is not an archive
of the other format with the magic `PACK` at the same time. -/
def Unmistakable {α : Type} (file : Option Bytes) (format : Format) (listing : List α) : Prop :=
  IsPack format → listing ≠ [] → ∀ disk, file = some disk → ∀ path mode,
    ¬ DirectoryAccepted path mode (other_pack format) disk

/-- An empty directory reads the same in both formats. -/
theorem PakDirectory.empty_pack {diroffset : UInt32} (hp : IsPack format)
    (hg : pakka_pak_geometry format = some geom)
    (hd : PakDirectory disk format geom diroffset 0) :
    PakDirectory disk .pak ⟨ascii "PACK", 56, 64, false⟩ diroffset 0 := by
  have hheader := hd.header
  have hmagic : slice disk 0 4 = ascii "PACK" ∧ read_pak_header disk .pak = .ok (diroffset, 0) := by
    have hwords := hheader.words
    have hsig := hheader.signature
    rcases hp with rfl | rfl <;> obtain rfl := Option.some.inj hg <;> exact ⟨hsig, hwords⟩
  refine ⟨⟨hmagic.1, hheader.fits, hmagic.2, hheader.diroffset_ge, hheader.in_file, rfl,
    Nat.zero_le _⟩, ?_, fun _ => List.nodup_nil⟩
  intro e he
  cases he

/-- A directory of one of the two formats stands behind their magic. -/
theorem PakDirectory.pack_file {diroffset dirlength : UInt32} (hp : IsPack format)
    (hg : pakka_pak_geometry format = some geom)
    (hd : PakDirectory disk format geom diroffset dirlength) : PackFile disk diroffset dirlength := by
  have hheader := hd.header
  have hwords := hheader.words
  rcases hp with rfl | rfl <;> obtain rfl := Option.some.inj hg <;>
    exact ⟨hheader.signature, hwords⟩

/-- **What opens under its format opens under an `auto` hint**, with the same entries, unless the
other layout passes too. -/
theorem open_auto_of_open {pak : Archive} (hg : pakka_pak_geometry format = some geom)
    (hopen : pakka_open_ex path mode format (some disk) = .ok pak)
    (hother : IsPack format → pak.entries ≠ [] →
      ¬ DirectoryAccepted path mode (other_pack format) disk) :
    ∃ pak', pakka_open_ex path mode .auto (some disk) = .ok pak' ∧ pak'.entries = pak.entries ∧
      pak'.num_entries = pak.num_entries := by
  obtain ⟨hpath, diroffset, dirlength, hd, rfl⟩ := (open_pak_iff hg).mp hopen
  by_cases hp : IsPack format
  · have hsig : signature_format format = .pak := by
      rcases hp with rfl | rfl <;> rfl
    by_cases h0 : dirlength = 0
    · -- without a directory an `auto` hint means Quake
      subst h0
      have hprobe : settle_pak_format disk .auto (signature_format .pak) diroffset 0 = .ok .pak := by
        unfold settle_pak_format probe_pack_format
        rw [if_pos (by simp [signature_format]), if_pos rfl]
      refine ⟨_, open_auto_of_settled mode rfl hpath (hd.empty_pack hp hg) hprobe, ?_, ?_⟩
      · simp [with_auto, opened_pak, pak_row_entries, pak_rows]
      · simp [with_auto, opened_pak]
    · have hsome : (opened_pak mode format geom disk diroffset dirlength).entries ≠ [] := by
        intro hnil
        have hlen := congrArg List.length hnil
        rw [opened_pak, length_pak_row_entries, List.length_nil] at hlen
        have hwhole := Nat.div_mul_cancel (Nat.dvd_of_mod_eq_zero hd.header.whole_rows)
        rw [hlen, Nat.zero_mul] at hwhole
        exact h0 (UInt32.toNat_inj.mp hwhole.symm)
      have hprobe := (probe_pack_format_eq path mode (hd.pack_file hp hg) h0
        hd.header.diroffset_ge hd.header.in_file).1 hp (open_pack_accepted hp hopen).2.2
        (hother hp hsome)
      have hsettle : settle_pak_format disk .auto (signature_format format) diroffset dirlength =
          .ok format := by
        unfold settle_pak_format
        rw [hsig, if_pos (by simp)]
        exact hprobe
      exact ⟨_, open_auto_of_settled mode hg hpath hd hsettle, rfl, rfl⟩
  · have hsettle : settle_pak_format disk .auto (signature_format format) diroffset dirlength =
        .ok format := by
      rw [signature_format, if_neg fun hx => hp (Or.inr hx)]
      unfold settle_pak_format
      rw [if_neg]
      rintro ⟨hx, -⟩
      exact hp hx
    exact ⟨_, open_auto_of_settled mode hg hpath hd hsettle, rfl, rfl⟩

theorem OpensWith.auto {file : Option Bytes} {listing : Catalogue CStr PakItem}
    (h : OpensWith file format listing) (hg : pakka_pak_geometry format = some geom)
    (hother : Unmistakable file format listing) : OpensWith file .auto listing := by
  obtain ⟨disk, rfl, hopens⟩ := h
  refine ⟨disk, rfl, fun path mode hpath => ?_⟩
  obtain ⟨pak, hopen, hlisting⟩ := hopens path mode hpath
  obtain ⟨pak', hauto, hentries, -⟩ := open_auto_of_open hg hopen fun hp hne => by
    refine hother hp ?_ disk rfl path mode
    rintro rfl
    have hlen := congrArg List.length (hlisting fun _ _ => [])
    rw [pak_listing, List.length_mapIdx, List.length_nil] at hlen
    exact hne (List.eq_nil_of_length_eq_zero hlen)
  refine ⟨pak', hauto, fun sources => ?_⟩
  rw [hentries]
  exact hlisting sources

theorem AcceptedAs.auto {file : Option Bytes} {names : List CStr} (h : AcceptedAs file format names)
    (hg : pakka_pak_geometry format = some geom) (hother : Unmistakable file format names) :
    AcceptedAs file .auto names := by
  intro path mode hpath
  obtain ⟨pak, hopen, hcount, hnames⟩ := h path mode hpath
  obtain ⟨disk, rfl⟩ : ∃ disk, file = some disk := by
    cases file with
    | none =>
      simp only [pakka_open_ex, ite_error_eq_ok, except_bind_eq_ok, orError_eq_ok] at hopen
      obtain ⟨-, disk, hn, -⟩ := hopen
      cases hn
    | some disk => exact ⟨disk, rfl⟩
  obtain ⟨pak', hauto, hentries, hnum⟩ := open_auto_of_open hg hopen fun hp hne => by
    refine hother hp ?_ disk rfl path mode
    rintro rfl
    exact hne (List.map_eq_nil_iff.mp hnames)
  exact ⟨pak', hauto, by rw [hnum, hcount], by rw [hentries, hnames]⟩

/-! ## What an `auto` open accepts

The other way round, a file that an `auto` open accepts keeps the limit of the loader, whatever the
format it settles on, and is not an archive of both layouts.
-/

/-- An `auto` open takes no more entries than the limit. -/
theorem AcceptedAs.length_le_of_auto {names : List CStr} (h : AcceptedAs (some disk) .auto names) :
    names.length ≤ PAKFILE_MAX_ENTRIES := by
  obtain ⟨pak, hopen, -, hnames⟩ := h CStr.empty .read (by decide)
  rw [← hnames, List.length_map]
  rcases open_format_class hopen with hzip | ⟨geom, hg⟩
  · -- a ZIP archive counts its entries in 16 bits
    obtain ⟨_, _, _, es, hd, rfl⟩ := open_zip_directory hopen hzip
    have hlt := hd.length_lt
    show es.length ≤ PAKFILE_MAX_ENTRIES
    have h1M : PAKFILE_MAX_ENTRIES = 1048576 := rfl
    omega
  · have hle := open_pak_length_le hg (open_auto_pak hopen (Option.isSome_iff_exists.mpr ⟨geom, hg⟩))
    exact hle

/-- **A published archive that an `auto` open accepts is not mistakable.** -/
theorem PakPublished.unmistakable {pak : Archive} {names : List CStr}
    (hg : pakka_pak_geometry pak.format = some geom) (hpub : PakPublished disk pak geom)
    (h : AcceptedAs (some disk) .auto names) :
    Unmistakable (some disk) pak.format pak.entries := by
  intro hp hne disk' hdisk path mode hacc
  obtain rfl := Option.some.inj hdisk
  obtain ⟨hfile, hdir, hself⟩ : PackFile disk pak.diroffset pak.dirlength ∧ pak.dirlength ≠ 0 ∧
      (CStr.empty.strlen < OS_PATH_MAX →
        DirectoryAccepted CStr.empty .read pak.format disk) := hpub.pack_file hp hg hne
  have hheader := hpub.directory.header
  obtain ⟨geom', hp', hg'⟩ : ∃ geom', IsPack (other_pack pak.format) ∧
      pakka_pak_geometry (other_pack pak.format) = some geom' := by
    rcases hp with hf | hf <;> rw [hf]
    · exact ⟨_, Or.inr rfl, rfl⟩
    · exact ⟨_, Or.inl rfl, rfl⟩
  -- whether a layout passes does not depend on the path or the mode
  have hprobe := (probe_pak_layout_iff path mode hfile hp' hg' hheader.diroffset_ge
    hheader.in_file).mpr hacc
  have hother := (probe_pak_layout_iff CStr.empty .read hfile hp' hg' hheader.diroffset_ge
    hheader.in_file).mp hprobe
  have hboth : DirectoryAccepted CStr.empty .read .pak disk ↔
      DirectoryAccepted CStr.empty .read .daikatana disk := by
    have hself := hself (by decide)
    rcases hp with hf | hf <;> rw [hf] at hself hother
    · exact iff_of_true hself hother
    · exact iff_of_true hother hself
  obtain ⟨st, herr⟩ := pakka_open_ex_auto_error hfile hdir hboth
  obtain ⟨pak', hopen, -⟩ := h CStr.empty .read (by decide)
  rw [hopen] at herr
  cases herr

/-! ## Commits and closes -/

/-- **A committed PAK-class archive opens again under the hint of its session exactly when** it has
no more entries than the loader takes and, under an `auto` hint, is not an archive of the other
layout as well. Whatever the format, the mode and the calls before, as long as each succeeded: the
published file is accepted with as many entries and the same names if and only if both hold. -/
theorem pak_commit_accepted_iff (df : Deflate) (hint : Format) (s s₁ s₂ : Session)
    (calls : List (Env × Call)) (env : Env) (hstart : Session.StartedUnder hint s)
    (hcls : IsPakClass s.pak.format) (hrun : s.runOk df calls = some s₁)
    (hcommit : s₁.step df env .commit = (.ok, s₂)) :
    AcceptedAs (s₂.files .live) hint (s₁.pak.entries.map Entry.filename) ↔
      s₁.pak.entries.length ≤ PAKFILE_MAX_ENTRIES ∧
        (hint = .auto → Unmistakable (s₂.files .live) s.pak.format s₁.pak.entries) := by
  obtain ⟨geom, disk, hlive⟩ := hstart.started.live hcls
  obtain ⟨disk₁, hlive₁⟩ := hlive.runOk calls hrun
  obtain ⟨disk₂, hfile, hformat, hnames, hpub⟩ := hlive₁.commit_names hcommit
  have hg : pakka_pak_geometry s₂.pak.format = some geom := hformat ▸ hlive.geometry
  have hnil : s₂.pak.entries = [] ↔ s₁.pak.entries = [] := by
    rw [← List.map_eq_nil_iff, hnames, List.map_eq_nil_iff]
  rw [hfile]
  constructor
  · intro h
    have hmax : s₁.pak.entries.length ≤ PAKFILE_MAX_ENTRIES := by
      by_cases hauto : hint = .auto
      · subst hauto
        simpa only [List.length_map] using h.length_le_of_auto
      · rw [hstart.hint_eq hcls hauto] at h
        simpa only [List.length_map] using h.length_le hlive.geometry
    refine ⟨hmax, ?_⟩
    rintro rfl
    have hother := (hpub hmax).unmistakable hg h
    intro hp hne
    rw [← hformat] at hp ⊢
    exact hother hp fun hx => hne (hnil.mp hx)
  · rintro ⟨hmax, hother⟩
    have hacc := (hpub hmax).accepted hg
    rw [hformat, hnames] at hacc
    by_cases hauto : hint = .auto
    · rw [hauto]
      refine hacc.auto hlive.geometry fun hp hne => hother hauto hp ?_
      intro hx
      rw [hx] at hne
      exact hne rfl
    · rwa [hstart.hint_eq hcls hauto]

/-- Commits of a WAD with one lump are accepted. -/
theorem pak_commit_accepted_one_lump :
    AcceptedAs (((crowded 1).step .storing calm_env .commit).2.files .live) .iwad [lump_name] ↔
      (1 : ℕ) ≤ PAKFILE_MAX_ENTRIES ∧ (Format.iwad = .auto →
        Unmistakable (((crowded 1).step .storing calm_env .commit).2.files .live) .iwad
          (crowded 1).pak.entries) :=
  pak_commit_accepted_iff .storing .iwad (crowded 0) (crowded 1) _
    [(calm_env, .add_memory lump_name [])] calm_env
    (.created (rfl : (pakka_create calm_env CStr.empty .iwad false).res =
      .ok (init_pak_header (create_initial .iwad)))) (by decide)
    (crowded_runOk 1 .storing) (Prod.ext (crowded_commit (by decide) (by decide) .storing) rfl)

end Pakka
