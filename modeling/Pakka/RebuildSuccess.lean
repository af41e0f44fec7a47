/-
When a rebuild succeeds.

Where nothing fails from outside, what is left are the limits of the format: the payloads and the
directory have to lie below 2^32, and a ZIP archive has no more than 65535 entries. For a list whose
entries are all on disk nothing else can go wrong, so a rebuild succeeds as soon as its result fits.
For a PAK-class archive the same goes for entries that are staged in buffers.

These are statements of the form: with no failing call and within the limits, there is a result.
They are what makes the statement about rebuilding a rebuilt archive one about what happens, and not
about what would be the case if it happened.
-/
import Pakka.CommitLayout

set_option autoImplicit false

namespace Pakka

open ByteImage LittleEndian Logged Packing

variable {env : Env} {disk : Bytes} {pak : Archive} {geom : Geometry}

/-! ## PAK-class archives

The copy loop with nothing failing, down to the final size.
-/

/-- The payload of an entry on disk is copied. -/
theorem pak_copy_extent_calm (hcalm : ∀ p, env.faults.fails p = false) {i pos : ℕ} {e : Entry}
    (hin : e.payloadEnd ≤ disk.length) : Completes (pak_copy_extent env disk i pos e) := by
  unfold pak_copy_extent
  apply (completes_call (hcalm _)).bind
  intro _ _
  by_cases h0 : pak_entry_on_disk_extent e = 0
  · rw [if_pos h0]
    exact completes_pure _
  · rw [if_neg h0]
    apply (completes_call (hcalm _)).bind
    intro _ _
    exact completes_copyChunks hcalm _ (Or.inr hin)

/-- A staged buffer is copied. -/
theorem copy_pending_data_calm (hcalm : ∀ p, env.faults.fails p = false) (i pos : ℕ)
    (data : Bytes) : Completes (copy_pending_data env i pos data) := by
  unfold copy_pending_data
  split_ifs
  · apply (completes_writeAt (hcalm _)).bind
    intro _ _
    exact completes_pure _
  · exact completes_pure _

/-- The payload of an entry on disk or in a buffer is copied, if there is room for it. -/
theorem copy_between_paks_calm (hcalm : ∀ p, env.faults.fails p = false) {i pos : ℕ} {e : Entry}
    (hsource : e.pending_source = none) (hin : e.staged = false → e.payloadEnd ≤ disk.length)
    (hpos : pos ≤ UINT32_MAX) : Completes (copy_between_paks env disk i pos e) := by
  unfold copy_between_paks
  rw [hsource]
  apply (completes_call (hcalm _)).bind
  intro _ _
  rw [if_neg (Nat.not_lt.mpr hpos)]
  cases hdata : e.pending_data with
  | none =>
    apply pak_copy_extent_calm hcalm
    apply hin
    rw [Entry.staged, hsource, hdata]
    rfl
  | some data => exact copy_pending_data_calm hcalm i pos data

/-- An entry that shares has another owner, one that is copied is its own. -/
theorem owner_of_cases (owner : Option (List ℕ)) (i : ℕ) :
    (∃ o, pak_shared owner i = some o ∧ owner_of owner i ≠ i) ∨
      pak_shared owner i = none ∧ owner_of owner i = i := by
  cases hsh : pak_shared owner i with
  | none =>
    right
    refine ⟨rfl, ?_⟩
    rw [owner_of, hsh, Option.getD_none]
  | some o =>
    left
    refine ⟨o, rfl, ?_⟩
    rw [owner_of, hsh, Option.getD_some]
    unfold pak_shared at hsh
    split at hsh
    · cases hsh
    · split_ifs at hsh with hne
      rwa [← Option.some.inj hsh]

/-- **The copy loop**, when all payloads are there and there is room for them. -/
theorem pak_rebuild_copy_calm (hcalm : ∀ p, env.faults.fails p = false) {es : List Entry}
    {owner : Option (List ℕ)} (hok : ∀ e ∈ es, PakEntryOk pak geom e)
    (hthere : ∀ e ∈ es, e.pending_source = none ∧
      (e.staged = false → e.payloadEnd ≤ disk.length))
    (hroom : PAKFILE_HEADER_SIZE + room stored_size (owner_of owner) es es.length ≤ UINT32_MAX)
    (rest : List Entry) (offsets : List UInt32) {pos : ℕ} (hrest : es.drop offsets.length = rest)
    (hpos : pos = PAKFILE_HEADER_SIZE + room stored_size (owner_of owner) es offsets.length) :
    Completes (pak_rebuild_copy env disk owner offsets.length pos offsets rest) := by
  induction rest generalizing pos offsets with
  | nil => exact completes_pure _
  | cons e rest ih =>
    have hlt : offsets.length < es.length := by
      have := congrArg List.length hrest
      rw [List.length_drop, List.length_cons] at this
      omega
    have hcons := List.drop_eq_getElem_cons hlt
    rw [hrest] at hcons
    obtain ⟨he, hrest'⟩ := List.cons.inj hcons
    have hget : es[offsets.length]? = some e := by
      rw [List.getElem?_eq_getElem hlt, ← he]
    have hlen1 : ∀ o : UInt32, (offsets ++ [o]).length = offsets.length + 1 := by simp
    have hmem := List.mem_of_getElem? hget
    rcases owner_of_cases owner offsets.length with ⟨o, hsh, hown⟩ | ⟨hsh, hown⟩
    · simp only [pak_rebuild_copy, hsh]
      rw [← hlen1 (offsets.getD o 0)]
      apply ih
      · rw [hlen1]
        exact hrest'.symm
      · rw [hlen1, room_succ_shared hown]
        exact hpos
    · simp only [pak_rebuild_copy, hsh]
      obtain ⟨hsource, hin⟩ := hthere e hmem
      have hmax : pos ≤ UINT32_MAX := by
        have hmono : room stored_size (owner_of owner) es offsets.length ≤
            room stored_size (owner_of owner) es es.length := room_mono (Nat.le_of_lt hlt)
        omega
      apply (copy_between_paks_calm hcalm hsource hin hmax).bind
      intro bs hbs
      obtain ⟨-, -, hbl, -⟩ := copy_between_paks_ok (hok e hmem) hbs
      rw [← hlen1 (UInt32.ofNat pos)]
      apply ih
      · rw [hlen1]
        exact hrest'.symm
      · rw [hlen1, room_succ_own hget hown, hpos, hbl, Nat.add_assoc]
        rfl

theorem alloc_for_entries_calm (hcalm : ∀ p, env.faults.fails p = false) (site : Site)
    (es : List Entry) : Completes (alloc_for_entries env site es) := by
  unfold alloc_for_entries
  split_ifs
  · exact completes_call (hcalm _)
  · exact completes_pure _

theorem publish_scratch_calm (hcalm : ∀ p, env.faults.fails p = false) (restored : Archive) :
    Completes (publish_scratch env restored) := by
  unfold publish_scratch
  rw [hcalm, if_neg (by simp)]
  exact completes_emit _

/-- Where the directory of a rebuilt archive ends. -/
def rebuilt_end (env : Env) (geom : Geometry) (es : List Entry) : ℕ :=
  PAKFILE_HEADER_SIZE + room stored_size (owner_of (rebuild_owner env es)) es es.length +
    es.length * geom.dir_entry_size

/-- **A rebuild succeeds as soon as its result fits**, if nothing is staged from a source and
nothing fails. -/
theorem pakka_commit_rebuild_calm (hcalm : ∀ p, env.faults.fails p = false)
    (h : PakState disk.length pak geom) (hdata : ∀ e ∈ pak.entries, e.pending_source = none)
    (hfit : rebuilt_end env geom pak.entries ≤ UINT32_MAX) :
    Completes (pakka_commit_rebuild env disk pak) := by
  unfold rebuilt_end at hfit
  have hthere : ∀ e ∈ pak.entries, e.pending_source = none ∧
      (e.staged = false → e.payloadEnd ≤ disk.length) := by
    intro e he
    refine ⟨hdata e he, fun hs => ?_⟩
    exact Nat.le_trans ((h.entries e he).before_end hs) h.end_in_file
  have hcopy : Completes (pak_rebuild_copy env disk (rebuild_owner env pak.entries) 0
      PAKFILE_HEADER_SIZE [] pak.entries) :=
    pak_rebuild_copy_calm hcalm h.entries hthere (by omega) _ [] rfl rfl
  have hscratch : Completes (pak_rebuild_scratch env disk pak) := by
    unfold pak_rebuild_scratch
    apply (alloc_for_entries_calm hcalm _ _).bind
    intro _ _
    apply (completes_call (hcalm _)).bind
    intro _ _
    apply (completes_emit _).bind
    intro _ _
    apply Completes.onError
    unfold pak_rebuild_payloads
    apply (completes_call (hcalm _)).bind
    intro _ _
    apply hcopy.bind
    intro r _
    apply (completes_call (hcalm _)).bind
    intro _ _
    apply (alloc_for_entries_calm hcalm _ _).bind
    intro _ _
    exact completes_pure _
  have hwork : Completes (pak_rebuild_work env disk pak) := by
    unfold pak_rebuild_work
    apply (hscratch.mapError _).bind
    intro r hr
    have hr' := pak_rebuild_scratch_copy (mapError_res_ok.mp hr)
    obtain ⟨hend, hlen, -⟩ :=
      pak_rebuild_copy_packed (rebuild_owner_spec env pak.entries) h.entries hr'
    have hg : pakka_pak_geometry (pak_rebuild_install pak r.1 r.2).format = some geom := h.geometry
    have hdir : Completes (write_pak_directory env .scratch (pak_rebuild_install pak r.1 r.2)) := by
      refine write_pak_directory_calm hcalm hg (Or.inr ?_)
      change r.2 + pak.num_entries.toNat * geom.dir_entry_size ≤ UINT32_MAX
      have hcount : pak.num_entries.toNat ≤ pak.entries.length := by
        rw [h.count, UInt32.toNat_ofNat']
        exact Nat.mod_le _ _
      have := Nat.mul_le_mul_right geom.dir_entry_size hcount
      omega
    apply ((hdir.mapError _).onError _).bind
    intro done _
    apply ((completes_call (hcalm _)).onError _).bind
    intro _ _
    exact completes_pure _
  unfold pakka_commit_rebuild pak_rebuild_publish
  apply Completes.bind
  · apply hwork.bind
    intro done _
    apply (publish_scratch_calm hcalm _).bind
    intro _ _
    exact completes_pure _
  · intro done _
    apply (completes_call (hcalm _)).bind
    intro _ _
    exact completes_pure _

/-! ## ZIP archives

The payload loop and the central directory, with their limits.
-/

/-- The payload of an entry on disk is copied. -/
theorem pk3_copy_payload_calm (hcalm : ∀ p, env.faults.fails p = false) {i pos : ℕ} {e : Entry}
    (he : ZipEntryOk disk.length e) (hs : e.staged = false) :
    Completes (pk3_copy_payload env disk i pos e) := by
  obtain ⟨hsource, hdata⟩ := on_disk_none hs
  unfold pk3_copy_payload
  rw [hsource, hdata]
  unfold pk3_copy_extent
  apply (completes_call (hcalm _)).bind
  intro _ _
  exact completes_copyChunks hcalm _ (Or.inr (he.in_file hs))

/-- **The loop**, when there is room for all headers and payloads. -/
theorem pk3_rebuild_loop_calm (hcalm : ∀ p, env.faults.fails p = false) (es : List Entry)
    {i pos : ℕ} {cur_offset : UInt32} {done : List Entry}
    (hes : ∀ e ∈ es, ZipEntryOk disk.length e ∧ e.staged = false)
    (hfit : cur_offset.toNat + cdr_start es ≤ UINT32_MAX) :
    Completes (pk3_rebuild_loop env disk i pos cur_offset done es) := by
  induction es generalizing i pos cur_offset done with
  | nil => exact completes_pure _
  | cons e es ih =>
    obtain ⟨he, hs⟩ := hes e List.mem_cons_self
    have hname := pk3_name_len_toNat he.name_fits
    have hmax : UINT32_MAX = 0xFFFFFFFF := rfl
    have hsum : cdr_start (e :: es) =
        PK3_LFH_SIZE + e.filename.strlen + e.pk3_compressed_size.toNat + cdr_start es := by
      simp only [cdr_start, local_range, List.map_cons, List.sum_cons]
    have hbig : ¬ cur_offset.toNat + (PK3_LFH_SIZE + (pk3_name_len e).toNat +
        e.pk3_compressed_size.toNat) > 0xFFFFFFFF := by
      omega
    obtain ⟨-, hnext⟩ := pk3_place_entry_offsets he.name_fits hbig
    have hlen := length_pk3_lfh_bytes he.name_fits
    rw [pk3_rebuild_loop, if_neg hbig]
    apply (completes_writeAt (hcalm _)).bind
    intro _ _
    apply ((pk3_copy_payload_calm hcalm he hs).mapError _).bind
    intro bs _
    apply ih fun x hx => hes x (List.mem_cons_of_mem _ hx)
    change ((pk3_place_entry e cur_offset).pk3_payload_offset + e.pk3_compressed_size).toNat +
      cdr_start es ≤ UINT32_MAX
    omega

/-- Without faults the records are written. -/
theorem pk3_write_cdr_calm (hcalm : ∀ p, env.faults.fails p = false) {f : FileId}
    (es : List Entry) {i pos : ℕ} {cdr_size entry_count : UInt32} :
    Completes (pk3_write_cdr env f pak i pos cdr_size entry_count es) := by
  induction es generalizing i pos cdr_size entry_count with
  | nil => exact completes_pure _
  | cons e es ih =>
    rw [pk3_write_cdr]
    apply (completes_writeAt (hcalm _)).bind
    intro _ _
    exact ih

/-- What is placed takes as much room as what it was placed from. -/
theorem zip_placed_sizes (env : Env) (disk : Bytes) (pak : Archive) :
    cdr_start ((zip_placed env disk pak).map Prod.fst) = cdr_start pak.entries ∧
      cdr_length ((zip_placed env disk pak).map Prod.fst) = cdr_length pak.entries := by
  have hstart := zip_place_map (fun e => (local_range e).2) (fun _ _ => rfl) env.sources disk
    pak.entries 0 0
  have hlength := zip_place_map (fun e => PK3_CDR_SIZE + e.filename.strlen) (fun _ _ => rfl)
    env.sources disk pak.entries 0 0
  constructor
  · rw [cdr_start, cdr_start, List.map_map, List.map_map, List.map_map]
    exact congrArg List.sum hstart
  · rw [cdr_length, cdr_length, List.map_map]
    exact congrArg List.sum hlength

/-- Placed entries take the room of their headers and payloads. -/
theorem ZipPlaced.length_locals {xs : List (Entry × Bytes)} (h : ZipPlaced 0 xs)
    (hnames : ∀ x ∈ xs, x.1.filename.strlen < PAKKA_ENTRY_NAME_SIZE) :
    (zip_locals xs).length = cdr_start (xs.map Prod.fst) := by
  have hsum := (h.consecutive hnames).sum
  rw [Nat.zero_add, Nat.zero_add] at hsum
  exact hsum

/-- **A rebuild succeeds as soon as its result fits**, if nothing is staged and nothing fails. -/
theorem pk3_commit_rebuild_calm (hcalm : ∀ p, env.faults.fails p = false)
    (h : ZipState disk.length pak) (hdisk : ∀ e ∈ pak.entries, e.staged = false)
    (hfit : cdr_start pak.entries + PK3_EOCD_SIZE + cdr_length pak.entries ≤ UINT32_MAX) :
    Completes (pk3_commit_rebuild env disk pak) := by
  obtain ⟨hstart, hlength⟩ := zip_placed_sizes env disk pak
  have hnames : ∀ x ∈ zip_placed env disk pak, x.1.filename.strlen < PAKKA_ENTRY_NAME_SIZE :=
    zip_place_forall (fun e he => (h.entries e he).name_fits) fun _ _ hp => hp
  have hscratch : Completes (pk3_rebuild_scratch env disk pak) := by
    have hzero : (0 : UInt32).toNat = 0 := rfl
    unfold pk3_rebuild_scratch
    apply ((pk3_rebuild_loop_calm hcalm pak.entries (fun e he => ⟨h.entries e he, hdisk e he⟩)
      (by omega)).mapError _).bind
    intro r hr
    obtain ⟨h1, h2, -, hplaced, -⟩ := pk3_rebuild_loop_ok pak.entries h.entries hzero
      (mapError_res_ok.mp hr)
    rw [List.nil_append] at h1
    rw [Nat.zero_add] at h2
    change r.1 = (zip_placed env disk pak).map Prod.fst at h1
    change r.2.1.toNat = (zip_locals (zip_placed env disk pak)).length at h2
    change ZipPlaced 0 (zip_placed env disk pak) at hplaced
    rw [hplaced.length_locals hnames, hstart] at h2
    have hnames' : ∀ e ∈ r.1, e.filename.strlen < PAKKA_ENTRY_NAME_SIZE := by
      intro e he
      rw [h1] at he
      obtain ⟨x, hx, rfl⟩ := List.mem_map.mp he
      exact hnames x hx
    -- the only check that can still fail is the one on the end of the directory
    have hfits : pk3_cdr_fits (r.2.1.toNat + PK3_EOCD_SIZE) r.1 = true := by
      rw [pk3_cdr_fits_iff (fun _ => by omega) hnames', length_zip_cdr hnames', h1, hlength]
      omega
    have hdir : Completes (pk3_write_directory env .scratch
        { pak with entries := r.1, pk3_cdr_offset := r.2.1 } r.2.2) := by
      unfold pk3_write_directory
      rw [if_neg (by simp [hfits])]
      apply (pk3_write_cdr_calm hcalm _).bind
      intro _ _
      apply (completes_writeAt (hcalm _)).bind
      intro _ _
      apply (completes_call (hcalm _)).bind
      intro _ _
      exact completes_pure _
    apply hdir.bind
    intro cdr_size _
    apply (completes_call (hcalm _)).bind
    intro _ _
    exact completes_pure _
  have hwork : Completes (pk3_rebuild_work env disk pak) := by
    unfold pk3_rebuild_work
    apply ((alloc_for_entries_calm hcalm _ _).mapError _).bind
    intro _ _
    apply (completes_call (hcalm _)).bind
    intro _ _
    apply (completes_emit _).bind
    intro _ _
    apply ((hscratch.mapError _).onError _).bind
    intro r _
    apply Completes.bind
    · unfold close_live_checked
      rw [hcalm, if_neg (by simp)]
      exact completes_pure _
    · intro _ _
      exact completes_pure _
  unfold pk3_commit_rebuild pk3_rebuild_publish
  apply Completes.bind
  · apply hwork.bind
    intro r _
    apply (publish_scratch_calm hcalm _).bind
    intro _ _
    exact completes_pure _
  · intro r _
    apply (completes_call (hcalm _)).bind
    intro _ _
    exact completes_pure _

end Pakka
