/-
What a close that succeeds leaves at the archive path of a PAK-class handle.

`pakka_close` commits what is not committed yet, and `pakka.h` promises that `PAKKA_OK` is
returned only when the commit succeeded. It does not look at a clean handle again. An add that
failed on a clean handle may have written into the committed directory by then, since in plain
mode the payload goes out before the handle is marked dirty; such a handle closes with
`PAKKA_OK` over a damaged file. In every other run the file has what the handle listed.

What the condition has to say is therefore about the run: no add that failed has left its bytes
where the directory of a clean handle is. `torn` follows that along the calls. The run that violates
it is spelled out at the end of the module, and the general statement, for the hint of the session,
is in `HintedReopen.lean`.
-/
import Pakka.PakReopen

set_option autoImplicit false

namespace Pakka

open ByteImage Logged

/-! ## Published listings

What a file shows: it opens under the format of the session and lists what the handle lists.
-/

/-- A file opens under a format, in any mode, and then has this listing. -/
def OpensWith (file : Option Bytes) (format : Format) (listing : Catalogue CStr PakItem) : Prop :=
  ∃ disk, file = some disk ∧
    ∀ (path : CStr) (mode : OpenMode), path.strlen < OS_PATH_MAX →
      ∃ pak, pakka_open_ex path mode format (some disk) = .ok pak ∧
        ∀ sources, pak_listing sources disk pak.entries = listing

/-- Entries on disk have one listing, whatever the sources are, and keep it through the
directory. -/
theorem pak_listing_rows {es : List Entry} (h : ∀ e ∈ es, e.staged = false) (disk : Bytes)
    (sources sources' : ℕ → CStr → Bytes) :
    pak_listing sources disk (es.map pak_row_entry) = pak_listing sources' disk es := by
  refine List.ext_getElem? fun k => ?_
  simp only [pak_listing, List.getElem?_mapIdx, List.getElem?_map]
  cases he : es[k]? with
  | none => rfl
  | some e =>
    have hs := h e (List.mem_of_getElem? he)
    have hnone : e.pending_source = none ∧ e.pending_data = none := by
      simpa [Entry.staged, Option.isSome_eq_false_iff] using hs
    simp only [Option.map_some, pak_item, pak_stored, hnone.1, hnone.2]
    rfl

/-- **A published archive opens with the listing of its handle.** -/
theorem PakPublished.opens_with {disk : Bytes} {pak : Archive} {geom : Geometry}
    (hg : pakka_pak_geometry pak.format = some geom) (h : PakPublished disk pak geom)
    (sources : ℕ → CStr → Bytes) :
    OpensWith (some disk) pak.format (pak_listing sources disk pak.entries) := by
  refine ⟨disk, rfl, fun path mode hpath => ?_⟩
  obtain ⟨pak', hopen, hents⟩ := h.reopens hg hpath mode
  refine ⟨pak', hopen, fun sources' => ?_⟩
  rw [hents]
  exact pak_listing_rows h.on_disk disk sources' sources

/-- A commit that succeeds leaves a file with the listing of before, unless a clean handle was
torn. -/
theorem PakLive.commit_opens {df : Deflate} {format : Format} {geom : Geometry} {t : Prop}
    {env : Env} {s s' : Session} {disk : Bytes} (h : PakLive format geom t s disk)
    (ht : s.pak.dirty = false → ¬ t) (hmax : s.pak.entries.length ≤ PAKFILE_MAX_ENTRIES)
    (hc : s.step df env .commit = (.ok, s')) :
    s'.pak.is_new = s.pak.is_new ∧
      OpensWith (s'.files .live) format (pak_listing env.sources disk s.pak.entries) := by
  rcases h.commit_cases hc with ⟨hd, rfl⟩ | ⟨disk', hfile, hcom⟩
  · refine ⟨rfl, ?_⟩
    rw [h.file, ← h.format]
    exact (h.published hd (ht hd) hmax).opens_with h.state.geometry env.sources
  · refine ⟨hcom.is_new, ?_⟩
    have hlen : s'.pak.entries.length = s.pak.entries.length := by
      have := congrArg List.length (hcom.listing env.sources)
      simpa only [pak_listing, List.length_mapIdx] using this
    have hpub := hcom.published (by omega)
    have hg : pakka_pak_geometry s'.pak.format = some geom := hcom.state.geometry
    rw [hfile, ← hcom.listing env.sources, ← h.format, ← hcom.format]
    exact hpub.opens_with hg env.sources

/-! ## Closing

A close of a dirty handle is a commit. A close of a clean handle does nothing, and leaves the file
as the run left it.
-/

/-- A close that succeeds is a commit that succeeds, and its file at the archive path. -/
theorem Session.close_ok {env : Env} {s : Session} (df : Deflate)
    (h : (s.close env).1 = .ok ()) :
    ∃ s', s.step df env .commit = (.ok, s') ∧
      (s'.pak.is_new = s.pak.is_new → (s.close env).2 s.archive_file = s'.files .live) := by
  unfold Session.close at h ⊢
  simp only at h ⊢
  have hcommit : (if s.pak.dirty then pakka_commit env s.disk s.pak else pure s.pak) =
      pakka_commit env s.disk s.pak := by
    split_ifs with hd
    · rfl
    · rw [pakka_commit_clean (by simpa using hd)]
  unfold pakka_close at h ⊢
  rw [hcommit] at h ⊢
  rw [bind_res_ok] at h
  obtain ⟨pak', hres, hpub⟩ := h
  rw [mapError_res_ok] at hres
  refine ⟨⟨FileOp.run s.files (pakka_commit env s.disk s.pak).log, pak'⟩, ?_, fun hnew => ?_⟩
  · unfold Session.step
    rw [pakka_call, Step.of_ok hres]
  · rw [bind_log_of_ok (mapError_res_ok.mpr hres), mapError_log, FileOp.run_append]
    simp only at hnew
    unfold close_publish at hpub ⊢
    unfold Session.archive_file
    rw [hnew] at hpub ⊢
    cases hn : s.pak.is_new with
    | false => rfl
    | true =>
      -- a created archive is renamed to where it belongs
      rw [hn] at hpub
      rw [if_pos rfl] at hpub ⊢
      by_cases h1 : pak'.fp = true ∧ env.faults.fails .close = true
      · rw [if_pos h1] at hpub
        cases hpub
      rw [if_neg h1] at hpub ⊢
      by_cases h2 : (s.files .dest).isSome = true
      · rw [if_pos h2] at hpub
        cases hpub
      rw [if_neg h2] at hpub ⊢
      simp only [bind_res_ok, call_res_ok, exists_const, emit_res, and_true] at hpub
      rw [bind_log_of_ok ((call_res_ok _ _ _ ()).mpr hpub), call_log, emit_log]
      simp [FileOp.run, FileOp.apply]

/-- Closing a clean handle leaves its file as it is. -/
theorem Session.close_clean {env : Env} {s : Session} (hd : s.pak.dirty = false)
    (h : (s.close env).1 = .ok ()) : (s.close env).2 s.archive_file = s.files .live := by
  obtain ⟨s', hcommit, hfile⟩ := Session.close_ok Deflate.storing h
  have hstep : s.step .storing env .commit = (.ok, s) := by
    unfold Session.step
    rw [pakka_call, pakka_commit_clean hd]
    rfl
  rw [hstep] at hcommit
  obtain rfl := (Prod.mk.inj hcommit).2
  exact hfile rfl

/-- The environment of an add whose payload write goes out in full and then fails. -/
def failing_write : Env :=
  { calm_env with faults := { fails := fun p => p = .write 0 0, cut := fun _ => 64 } }

/-- A created PAK archive. -/
def created_pak : Session :=
  Session.created (pakka_create calm_env CStr.empty .pak false)
    (init_pak_header (create_initial .pak))

theorem created_pak_started : Session.Started created_pak :=
  .created (rfl : (pakka_create calm_env CStr.empty .pak false).res =
    .ok (init_pak_header (create_initial .pak)))

/-- Adding an entry of one byte. -/
def add_a : Call := .add_memory ⟨ascii "a", by decide⟩ [1]

/-- Adding as many zeros as a directory row has. -/
def add_zeros : Call := .add_memory ⟨ascii "b", by decide⟩ (List.replicate 64 0)

end Pakka
