/-
Rebuilding what was rebuilt.

A rebuild of an unmodified list brings an archive into a form that a further rebuild keeps to the
byte. The first rebuild may change much: offsets, the sharing of payloads, extra fields, comments,
timestamps. The second changes nothing. What the writer puts out of an entry is what the loader
keeps of it: names are decoded once and then written as they are, flags follow from the name,
timestamps and attributes are constant. The offsets are those of packing, and packing what is packed
changes nothing, though entries without bytes may change their owner.

A list is unmodified when no call changed it, but a handle with no changes does not rebuild. So the
handles here are marked the way a call may leave them, by renaming an entry and renaming it back.

The proof has the same two halves for both families: what a rebuild writes as a function of the
list, and the list that is read back from it. The file is then the same because the function only
depends on what is read back.
-/
import Pakka.RebuildSuccess

set_option autoImplicit false

namespace Pakka

open ByteImage LittleEndian Logged Packing

/-! ## Rebuilds of unmodified lists

What makes a handle rebuild differs between the formats. `Publishes` abstracts from it: the commit
succeeds and leaves a given file at the path.
-/

/-- A handle with its list as it is, marked for a commit the way a call may leave it. -/
def marked (pak : Archive) (needs_rebuild : Bool) : Archive :=
  { pak with dirty := true, needs_rebuild := needs_rebuild }

/-- The commit of the handle runs the rebuild of its format. -/
def RunsRebuild (pak : Archive) : Prop :=
  pak.writable = true ∧ pak.dirty = true ∧ (pak.needs_rebuild = true ∨
    pakka_format_is_zip pak.format = false ∧ pak.atomic_commit = true)

/-- The commit of `pak`, whose file is `a`, succeeds and publishes `b`. -/
def Publishes (env : Env) (a : Bytes) (pak : Archive) (b : Bytes) : Prop :=
  ∃ pak', (pakka_commit env a pak).res = .ok pak' ∧
    ∀ fs, fs .live = some a → FileOp.run fs (pakka_commit env a pak).log .live = some b

variable {env env' : Env} {a b b' : Bytes} {pak pak' : Archive} {geom : Geometry}

theorem RunsRebuild.commit_rebuilds (h : RunsRebuild pak) : commit_rebuilds pak := by
  obtain ⟨hw, hd, hr⟩ := h
  refine ⟨hw, hd, ?_⟩
  rcases hr with hr | ⟨-, hr⟩
  · exact Or.inr (Or.inl hr)
  · exact Or.inr (Or.inr hr)

/-- A marked handle is in order. -/
theorem PakState.marked {n : ℕ} (h : PakState n pak geom)
    (hdisk : ∀ e ∈ pak.entries, e.staged = false) (needs_rebuild : Bool) :
    PakState n (marked pak needs_rebuild) geom := by
  refine ⟨h.geometry, h.signature, h.tail, h.count, h.payload_end_ge, h.end_in_file, h.nodup, ?_, ?_⟩
  · intro e he
    exact (h.entries e he).mono rfl (Nat.le_refl _)
  · intro e he hs
    rw [hdisk e he] at hs
    cases hs

/-! ## PAK-class archives

A rebuild writes the payloads one behind the other, each key once, and the directory behind them.
Read back, the entries have the old sizes at the places of packing. An entry that shared the place
of another shares it again, since keys are ranges of the file and two entries of one key are again
at one range. Entries without bytes have no key that counts and may be given to another owner, at
the same offset.
-/

/-- What a rebuild writes: the payloads in `acc`, packed, at the offsets of their entries, and the
directory behind. -/
structure PakPacked (env : Env) (a : Bytes) (pak : Archive) (geom : Geometry)
    (offsets : List UInt32) (acc : Bytes) (b : Bytes) : Prop where
  length : offsets.length = pak.entries.length
  placed : AllPlaced env a acc pak.entries offsets
  packed : Packed (owner_of (rebuild_owner env pak.entries)) pak.entries offsets
  filled : acc.length =
    room stored_size (owner_of (rebuild_owner env pak.entries)) pak.entries pak.entries.length
  fits : pak.entries ≠ [] → PAKFILE_HEADER_SIZE + acc.length +
    pak.num_entries.toNat * geom.dir_entry_size ≤ UINT32_MAX
  file : b = pak_file (pak_rebuild_install pak offsets (PAKFILE_HEADER_SIZE + acc.length)) geom
    (overwrite [] PAKFILE_HEADER_SIZE acc)

/-- **A rebuild packs.** -/
theorem pakka_commit_rebuild_packed (h : PakState a.length pak geom)
    (hc : (pakka_commit_rebuild env a pak).res = .ok pak') :
    ∃ offsets acc b, PakPacked env a pak geom offsets acc b ∧
      pak' = finished (with_directory
        (pak_rebuild_install pak offsets (PAKFILE_HEADER_SIZE + acc.length)) geom) ∧
      ∀ fs, FileOp.run fs (pakka_commit_rebuild env a pak).log .live = some b := by
  obtain ⟨done, hwork, rfl, hlog⟩ := pakka_commit_rebuild_work hc
  obtain ⟨offsets, acc, hscr, hlen, hplaced, rfl, hfit, hrun⟩ := pak_rebuild_work_writes h hwork
  obtain ⟨hend, -, hpacked⟩ := pak_rebuild_copy_packed (rebuild_owner_spec env pak.entries) h.entries
    (pak_rebuild_scratch_copy hscr)
  refine ⟨offsets, acc, _, ⟨hlen, hplaced, hpacked, Nat.add_left_cancel hend, ?_, rfl⟩, rfl, ?_⟩
  · intro hne
    apply hfit
    intro hnil
    have := congrArg List.length hnil
    simp only [pak_rebuild_install, List.length_zipWith, hlen, Nat.min_self, List.length_nil] at this
    exact hne (List.length_eq_zero_iff.mp this)
  · intro fs
    rw [hlog]
    exact run_publish (hrun fs)

/-- The written file only depends on what the directory records. -/
theorem pak_file_congr {q q' : Archive} (c : Bytes) (hformat : q'.format = q.format)
    (hsig : q'.signature = q.signature) (hend : q'.payload_end = q.payload_end)
    (hrows : q'.entries.map pak_row_entry = q.entries.map pak_row_entry) :
    pak_file q' geom c = pak_file q geom c := by
  have hlen := congrArg List.length hrows
  rw [List.length_map, List.length_map] at hlen
  have hnil : q'.entries = [] ↔ q.entries = [] := by
    rw [← List.length_eq_zero_iff, ← List.length_eq_zero_iff, hlen]
  have hdir : pak_directory q'.format geom q'.entries = pak_directory q.format geom q.entries := by
    have hrow : ∀ es : List Entry, pak_directory q.format geom es =
        pak_directory q.format geom (es.map pak_row_entry) := by
      intro es
      unfold pak_directory
      rw [List.map_map]
      rfl
    rw [hformat, hrow, hrow q.entries, hrows]
  have hoffset : (with_directory q' geom).diroffset = (with_directory q geom).diroffset := by
    by_cases h0 : q.entries = []
    · simp only [with_directory, if_pos h0, if_pos (hnil.mpr h0)]
    · simp only [with_directory, if_neg h0, if_neg (mt hnil.mp h0), hend]
  have hlength : (with_directory q' geom).dirlength = (with_directory q geom).dirlength := by
    simp only [with_directory, hlen]
  have hheader : pak_header (with_directory q' geom) = pak_header (with_directory q geom) := by
    have hf : (with_directory q' geom).format = (with_directory q geom).format := hformat
    have hs : (with_directory q' geom).signature = (with_directory q geom).signature := hsig
    unfold pak_header
    rw [hoffset, hlength, hf, hs]
  rw [pak_file, pak_file, hend, hdir, hheader]

/-- The handle that a rebuild with these offsets leaves. -/
def rebuilt (pak : Archive) (geom : Geometry) (offsets : List UInt32) (acc : Bytes) : Archive :=
  finished
    (with_directory (pak_rebuild_install pak offsets (PAKFILE_HEADER_SIZE + acc.length)) geom)

/-- The list of a rebuilt handle is the old one at the new offsets. -/
theorem PakPacked.rebuilt_entry {offsets : List UInt32} {acc : Bytes}
    (h : PakPacked env a pak geom offsets acc b) {i : ℕ} {e x : Entry}
    (he : pak.entries[i]? = some e)
    (hx : (rebuilt pak geom offsets acc).entries[i]? = some x) :
    ∃ o, offsets[i]? = some o ∧
      x = { e with offset := o, pending_source := none, pending_data := none } := by
  rw [rebuilt, ← with_directory_finished] at hx
  change (finished (pak_rebuild_install pak offsets _)).entries[i]? = some x at hx
  rcases finished_install_getElem? (PAKFILE_HEADER_SIZE + acc.length) i h.length with
    ⟨-, hnone⟩ | ⟨e', o, he', ho, hi⟩
  · rw [he] at hnone
    cases hnone
  · obtain rfl := Option.some.inj (he.symm.trans he')
    exact ⟨o, ho, Option.some.inj (hx.symm.trans hi)⟩

/-- Entries that share have payloads of one size. -/
theorem stored_size_of_rebuild_key {x y : Entry} {k : UInt32 × UInt32}
    (hx : rebuild_key env x = some k) (hy : rebuild_key env y = some k) :
    stored_size x = stored_size y := by
  unfold rebuild_key at hx hy
  split_ifs at hx hy with hdedup
  rw [stored_size_of_key hx, stored_size_of_key hy]

/-- The list of a published archive as it is read back: the old sizes, at the places of packing. -/
structure Reloaded (env : Env) (a : Bytes) (pak : Archive) (b : Bytes) (offsets : List UInt32)
    (i : ℕ) (e x : Entry) : Prop where
  at_place : ∃ o, offsets[i]? = some o ∧ x.offset = o
  on_disk : x.staged = false
  extent : pak_entry_on_disk_extent x = pak_entry_on_disk_extent e
  row : ∀ o, pak_row_entry { x with offset := o } = pak_row_entry { e with offset := o }
  stored : ∀ sources, pak_stored sources b x = pak_stored (env.sources i) a e

theorem PakPacked.reloaded {offsets : List UInt32} {acc : Bytes}
    (h : PakPacked env a pak geom offsets acc b)
    (hcom : PakCommitted env a pak b (rebuilt pak geom offsets acc) geom) {i : ℕ} {e x : Entry}
    (he : pak.entries[i]? = some e)
    (hx : ((rebuilt pak geom offsets acc).entries.map pak_row_entry)[i]? = some x) :
    Reloaded env a pak b offsets i e x := by
  rw [List.getElem?_map, Option.map_eq_some_iff] at hx
  obtain ⟨y, hy, rfl⟩ := hx
  obtain ⟨o, ho, hyo⟩ := h.rebuilt_entry he hy
  obtain ⟨y', hy', -, hs, hitem⟩ := hcom.entry he
  obtain rfl := Option.some.inj (hy.symm.trans hy')
  obtain ⟨hn1, hn2⟩ := on_disk_none hs
  refine ⟨⟨o, ho, by rw [hyo]; rfl⟩, rfl, by rw [hyo]; rfl, fun _ => by rw [hyo]; rfl, ?_⟩
  intro sources
  have hstored : pak_stored (env.sources i) b y = pak_stored (env.sources i) a e :=
    congrArg PakItem.stored hitem
  rw [← hstored, pak_stored, pak_stored, hn1, hn2]
  rfl

/-- **A packed archive is packed the same way again.** -/
theorem PakPacked.again {offsets : List UInt32} {acc : Bytes} {q : Archive}
    (h : PakPacked env a pak geom offsets acc b)
    (hcom : PakCommitted env a pak b (rebuilt pak geom offsets acc) geom)
    (hq : q.entries = (rebuilt pak geom offsets acc).entries.map pak_row_entry)
    (hmap : env'.faults.fails .dedup = false) :
    q.entries.length = pak.entries.length ∧
      room stored_size (owner_of (rebuild_owner env' q.entries)) q.entries q.entries.length =
        acc.length ∧
      ∀ i < pak.entries.length,
        place stored_size (owner_of (rebuild_owner env' q.entries)) q.entries i =
          place stored_size (owner_of (rebuild_owner env pak.entries)) pak.entries i := by
  have hreload : ∀ {i : ℕ} {e x : Entry}, pak.entries[i]? = some e → q.entries[i]? = some x →
      Reloaded env a pak b offsets i e x := by
    intro i e x he hx
    rw [hq] at hx
    exact h.reloaded hcom he hx
  have hlen : q.entries.length = pak.entries.length := by
    rw [hq, List.length_map]
    exact hcom.length_eq
  have hkey : rebuild_key env' = range_key := by
    funext e
    rw [rebuild_key, hmap, if_neg (by simp)]
  have howner := rebuild_owner_spec env' q.entries
  rw [hkey] at howner
  have hsize : ∀ {i : ℕ} {e x : Entry}, pak.entries[i]? = some e → q.entries[i]? = some x →
      stored_size x = stored_size e :=
    fun he hx => congrArg UInt32.toNat (hreload he hx).extent
  -- entries share a range in the new file exactly if they shared a place in it
  obtain ⟨hroom, hplace⟩ := (rebuild_owner_spec env pak.entries).again howner
    (fun _ _ _ => stored_size_of_rebuild_key) hlen hsize (by
      intro i j e f x y he hf hx hy
      obtain ⟨⟨o, ho, hxo⟩, hxs, hxe, -, -⟩ := hreload he hx
      obtain ⟨⟨p, hp, hyp⟩, hys, hye, -, -⟩ := hreload hf hy
      have hplaces : o = p ↔
          place stored_size (owner_of (rebuild_owner env pak.entries)) pak.entries i =
            place stored_size (owner_of (rebuild_owner env pak.entries)) pak.entries j := by
        rw [← UInt32.toNat_inj, h.packed i o ho, h.packed j p hp]
        exact Nat.add_left_cancel_iff
      have hsizes : stored_size e = stored_size f ↔
          pak_entry_on_disk_extent e = pak_entry_on_disk_extent f := UInt32.toNat_inj
      rw [← hplaces, hsizes]
      constructor
      · rintro ⟨k, hxk, hyk⟩
        obtain ⟨-, hx1, hx2⟩ := range_key_eq_some.mp hxk
        obtain ⟨-, hy1, hy2⟩ := range_key_eq_some.mp hyk
        exact ⟨by rw [← hxo, ← hyp, hx1, hy1], by rw [← hxe, ← hye, hx2, hy2]⟩
      · rintro ⟨hop, hef⟩
        refine ⟨(o, pak_entry_on_disk_extent e), ?_, ?_⟩
        · exact range_key_eq_some.mpr ⟨hxs, hxo, hxe⟩
        · exact range_key_eq_some.mpr ⟨hys, hyp.trans hop.symm, hye.trans hef.symm⟩)
  refine ⟨hlen, ?_, hplace⟩
  rw [hlen, hroom _ (Nat.le_refl _), h.filled]

/-- **What is packed again is the same file.** -/
theorem PakPacked.file_again {offsets offsets' : List UInt32} {acc acc' : Bytes} {q : Archive}
    (h : PakPacked env a pak geom offsets acc b)
    (hcom : PakCommitted env a pak b (rebuilt pak geom offsets acc) geom)
    (hq : q.entries = (rebuilt pak geom offsets acc).entries.map pak_row_entry)
    (hformat : q.format = pak.format) (hsig : q.signature = pak.signature)
    (hmap : env'.faults.fails .dedup = false)
    (h' : PakPacked env' b q geom offsets' acc' b') : b' = b := by
  obtain ⟨hlen, hroom, hplace⟩ := h.again hcom hq hmap
  have hget : ∀ i < pak.entries.length, ∃ e x, pak.entries[i]? = some e ∧ q.entries[i]? = some x := by
    intro i hi
    exact ⟨_, _, List.getElem?_eq_getElem hi, List.getElem?_eq_getElem (hlen ▸ hi)⟩
  have hreload : ∀ {i : ℕ} {e x : Entry}, pak.entries[i]? = some e → q.entries[i]? = some x →
      Reloaded env a pak b offsets i e x := by
    intro i e x he hx
    rw [hq] at hx
    exact h.reloaded hcom he hx
  -- the places are the same, and so are the bytes at them
  obtain rfl : offsets' = offsets := by
    refine List.ext_getElem (by rw [h'.length, h.length, hlen]) ?_
    intro i hi' hi
    rw [← UInt32.toNat_inj, h'.packed i _ (List.getElem?_eq_getElem hi'),
      h.packed i _ (List.getElem?_eq_getElem hi), hplace i (by rw [← h.length]; exact hi)]
  obtain rfl : acc' = acc := by
    have hfill' : acc'.length = acc.length := by
      rw [h'.filled, hroom]
    refine eq_of_packed (hfill'.trans h.filled) h.filled ?_
    intro i e he hown
    have hlt := (List.getElem?_eq_some_iff.mp he).1
    obtain ⟨-, x, -, hx⟩ := hget i hlt
    obtain ⟨⟨o, ho, -⟩, -, -, -, hstored⟩ := hreload he hx
    obtain ⟨⟨k, hk, -, hslice⟩, hext⟩ := h.placed i o e ho he
    obtain ⟨⟨k', hk', -, hslice'⟩, -⟩ := h'.placed i o x ho hx
    have hplace' := h.packed i o ho
    rw [place_of_own hown] at hplace'
    obtain rfl : k = room stored_size (owner_of (rebuild_owner env pak.entries)) pak.entries i := by
      omega
    obtain rfl : k' =
        room stored_size (owner_of (rebuild_owner env pak.entries)) pak.entries i := by
      omega
    rw [hstored] at hslice'
    rw [hext] at hslice hslice'
    exact hslice'.trans hslice.symm
  rw [h'.file, h.file]
  refine pak_file_congr _ hformat hsig rfl ?_
  refine List.ext_getElem? fun i => ?_
  simp only [pak_rebuild_install, List.getElem?_map, List.getElem?_zipWith]
  by_cases hi : i < pak.entries.length
  · obtain ⟨e, x, he, hx⟩ := hget i hi
    obtain ⟨⟨o, ho, -⟩, -, -, hrow, -⟩ := hreload he hx
    rw [he, hx, ho]
    exact congrArg some (hrow o)
  · rw [List.getElem?_eq_none (Nat.not_lt.mp hi), List.getElem?_eq_none (by omega)]

/-- The directory of what was packed ends below 2^32. -/
theorem PakPacked.end_le {offsets : List UInt32} {acc : Bytes}
    (h : PakPacked env a pak geom offsets acc b)
    (hcount : pak.num_entries.toNat = pak.entries.length) :
    PAKFILE_HEADER_SIZE + acc.length + pak.entries.length * geom.dir_entry_size ≤ UINT32_MAX := by
  by_cases h0 : pak.entries = []
  · have hnil : acc.length = 0 := by
      rw [h.filled, h0]
      rfl
    rw [hnil, h0, List.length_nil, Nat.zero_mul]
    decide
  · rw [← hcount]
    exact h.fits h0

/-- What an open under a PAK-class hint delivers. -/
theorem open_pak_state {path : CStr} {mode : OpenMode} {hint : Format}
    (hg : pakka_pak_geometry hint = some geom)
    (hopen : pakka_open_ex path mode hint (some a) = .ok pak) :
    pak.format = hint ∧ PakState a.length pak geom ∧ pak.fp = true ∧
      (∀ e ∈ pak.entries, e.staged = false) ∧ pak.entries.length ≤ PAKFILE_MAX_ENTRIES := by
  have hformat : pak.format = hint := by
    obtain ⟨-, diroffset, dirlength, -, rfl⟩ := (open_pak_iff hg).mp hopen
    rfl
  have hcls : IsPakClass pak.format := Option.isSome_iff_exists.mpr ⟨geom, hformat ▸ hg⟩
  obtain ⟨geom', hlive⟩ := PakLive.opened hopen hcls
  obtain rfl : geom' = geom := by
    have := hlive.geometry
    rw [hformat, hg] at this
    exact (Option.some.inj this).symm
  have hfresh := open_pak_fresh hcls hopen
  exact ⟨hformat, hlive.state, hfresh.live, hfresh.on_disk, open_pak_length_le hg hopen⟩

/-- **The rebuild of a PAK-class archive is its own rebuild.** -/
theorem pak_rebuild_again {path path' : CStr} {mode : OpenMode} {hint : Format}
    {needs_rebuild : Bool} (hg : pakka_pak_geometry hint = some geom)
    (hopen : pakka_open_ex path mode hint (some a) = .ok pak)
    (hreb : RunsRebuild (marked pak needs_rebuild))
    (hpub : Publishes env a (marked pak needs_rebuild) b)
    (hpath : path'.strlen < OS_PATH_MAX) (mode' : OpenMode)
    (hcalm : ∀ p, env'.faults.fails p = false) :
    ∃ q, pakka_open_ex path' mode' hint (some b) = .ok q ∧
      ∀ needs_rebuild', RunsRebuild (marked q needs_rebuild') →
        Publishes env' b (marked q needs_rebuild') b := by
  obtain ⟨hformat, hstate, hfp, hdisk, hmax⟩ := open_pak_state hg hopen
  have hmarked := hstate.marked hdisk needs_rebuild
  -- the first rebuild
  obtain ⟨pak', hres, hlog⟩ := hpub
  rw [pakka_commit_eq_rebuild env (not_zip_of_geometry hmarked.geometry) hfp
    hreb.commit_rebuilds] at hres hlog
  obtain ⟨offsets, acc, b₀, hpacked, hpak', hrun⟩ := pakka_commit_rebuild_packed hmarked hres
  obtain ⟨b₁, hrun₁, hcom⟩ := pakka_commit_rebuild_ok hmarked hres
  obtain rfl : b₀ = b := Option.some.inj ((hrun fun _ => some a).symm.trans (hlog _ rfl))
  obtain rfl : b₁ = b₀ := Option.some.inj ((hrun₁ fun _ => some a).symm.trans (hlog _ rfl))
  change pak' = rebuilt (marked pak needs_rebuild) geom offsets acc at hpak'
  have hlen : pak'.entries.length = pak.entries.length := hcom.length_eq
  have hformat' : pak'.format = hint := hcom.format.trans hformat
  obtain ⟨q, hopen', hents⟩ := (hcom.published (by omega)).reopens
    (by rw [hformat']; exact hg) hpath mode'
  rw [hformat'] at hopen'
  refine ⟨q, hopen', fun needs_rebuild' hreb' => ?_⟩
  -- the second rebuild
  obtain ⟨hqformat, hqstate, hqfp, hqdisk, -⟩ := open_pak_state hg hopen'
  have hqmarked := hqstate.marked hqdisk needs_rebuild'
  rw [hpak'] at hcom hents
  have hqsig : q.signature = pak.signature := hqstate.signature.trans hstate.signature.symm
  obtain ⟨hqlen, hroom, -⟩ := hpacked.again hcom (q := marked q needs_rebuild') hents (hcalm _)
  have hfit : rebuilt_end env' geom (marked q needs_rebuild').entries ≤ UINT32_MAX := by
    rw [rebuilt_end, hroom, hqlen]
    refine hpacked.end_le ?_
    have h1M : PAKFILE_MAX_ENTRIES = 1048576 := rfl
    change pak.num_entries.toNat = pak.entries.length
    rw [hstate.count, UInt32.toNat_ofNat', Nat.mod_eq_of_lt (by omega)]
  obtain ⟨q', hres'⟩ := pakka_commit_rebuild_calm hcalm hqmarked
    (fun e he => (on_disk_none (hqdisk e he)).1) hfit
  obtain ⟨offsets', acc', b', hpacked', -, hrun'⟩ := pakka_commit_rebuild_packed hqmarked hres'
  obtain rfl := hpacked.file_again hcom (q := marked q needs_rebuild') hents
    (hqformat.trans hformat.symm) hqsig (hcalm _) hpacked'
  unfold Publishes
  rw [pakka_commit_eq_rebuild env' (not_zip_of_geometry hqmarked.geometry) hqfp
    hreb'.commit_rebuilds]
  exact ⟨q', hres', fun fs _ => hrun' fs⟩

/-! ## ZIP archives

A ZIP rebuild copies the compressed payloads and writes all headers anew. Everything in a header is
a constant, a field that is kept, or a function of the name, so the same entry read back gives the
same bytes again, at the same place.
-/

variable {xs : List (Entry × Bytes)}

/-- An entry that was written and read back is written the same way. -/
theorem zip_loaded_bytes {e : Entry} (hname : zip_name_read e.filename = e.filename)
    (cur_offset : UInt32) :
    pk3_lfh_bytes (pk3_place_entry (zip_loaded e) cur_offset) = pk3_lfh_bytes e ∧
      (cur_offset = e.pk3_lfh_offset →
        pk3_cdr_bytes (pk3_place_entry (zip_loaded e) cur_offset) = pk3_cdr_bytes e) := by
  have hfile : (pk3_place_entry (zip_loaded e) cur_offset).filename = e.filename := hname
  have hlen : pk3_name_len (pk3_place_entry (zip_loaded e) cur_offset) = pk3_name_len e := by
    rw [pk3_name_len, hfile, pk3_name_len]
  have hbytes : pk3_name (pk3_place_entry (zip_loaded e) cur_offset) = pk3_name e := by
    rw [pk3_name, hfile, hlen, pk3_name]
  constructor
  · rw [pk3_lfh_bytes, hlen, hbytes]
    rfl
  · rintro rfl
    rw [pk3_cdr_bytes, hlen, hbytes]
    rfl

/-- **Placing what was placed and read back** puts everything where it was. -/
theorem ZipPlaced.again {pos : ℕ} (h : ZipPlaced pos xs) (sources : ℕ → CStr → Bytes)
    (hpayload : ∀ x ∈ xs,
      slice b x.1.pk3_payload_offset.toNat x.1.pk3_compressed_size.toNat = x.2)
    (hname : ∀ x ∈ xs, x.1.filename.strlen < PAKKA_ENTRY_NAME_SIZE ∧
      zip_name_read x.1.filename = x.1.filename)
    (hfit : pos + (zip_locals xs).length ≤ UINT32_MAX) (i : ℕ) {cur_offset : UInt32}
    (hcur : cur_offset.toNat = pos) :
    zip_locals (zip_place sources b i cur_offset (xs.map fun x => zip_loaded x.1)) =
        zip_locals xs ∧
      zip_cdr ((zip_place sources b i cur_offset (xs.map fun x => zip_loaded x.1)).map Prod.fst) =
        zip_cdr (xs.map Prod.fst) := by
  induction h generalizing i cur_offset with
  | nil => exact ⟨rfl, rfl⟩
  | @cons pos e p xs header payload offset size rest ih =>
    obtain ⟨hfits, hread⟩ := hname _ List.mem_cons_self
    obtain ⟨hlfh, hcdr⟩ := zip_loaded_bytes hread cur_offset
    have hstored : zip_stored (sources i) b (zip_loaded e) = p := hpayload _ List.mem_cons_self
    have hlen := length_pk3_lfh_bytes hfits
    simp only at hlen hread hfits
    rw [zip_locals_cons, List.length_append, List.length_append] at hfit
    have hmax : UINT32_MAX = 0xFFFFFFFF := rfl
    have hfile : (zip_loaded e).filename = e.filename := hread
    have hloaded : (zip_loaded e).filename.strlen < PAKKA_ENTRY_NAME_SIZE := by
      rw [hfile]
      exact hfits
    have hbig : ¬ cur_offset.toNat + (PK3_LFH_SIZE + (pk3_name_len (zip_loaded e)).toNat +
        (zip_loaded e).pk3_compressed_size.toNat) > 0xFFFFFFFF := by
      rw [pk3_name_len_toNat hloaded, hfile]
      change ¬ cur_offset.toNat + (PK3_LFH_SIZE + e.filename.strlen +
        e.pk3_compressed_size.toNat) > 0xFFFFFFFF
      simp only at hfit
      omega
    obtain ⟨-, hnext⟩ := pk3_place_entry_offsets hloaded hbig
    have hcur' : ((pk3_place_entry (zip_loaded e) cur_offset).pk3_payload_offset +
        (pk3_place_entry (zip_loaded e) cur_offset).pk3_compressed_size).toNat =
          pos + (pk3_lfh_bytes e).length + p.length := by
      change ((pk3_place_entry (zip_loaded e) cur_offset).pk3_payload_offset +
        (zip_loaded e).pk3_compressed_size).toNat = _
      rw [hnext, ← hlfh, hcur, ← size]
      rfl
    simp only at hfit
    obtain ⟨ih1, ih2⟩ := ih (fun x hx => hpayload x (List.mem_cons_of_mem _ hx))
      (fun x hx => hname x (List.mem_cons_of_mem _ hx)) (by omega) (i + 1) hcur'
    constructor
    · rw [List.map_cons, zip_place, zip_locals_cons, zip_locals_cons, ih1]
      simp only
      rw [hlfh, hstored]
    · rw [List.map_cons, zip_place, List.map_cons, List.map_cons, zip_cdr_cons, zip_cdr_cons, ih2]
      simp only
      rw [hcdr (UInt32.toNat_inj.mp (hcur.trans header.symm))]

/-- A marked handle is in order. -/
theorem ZipState.marked {n : ℕ} (h : ZipState n pak) : ZipState n (marked pak true) :=
  ⟨h.zip, h.linked.congr rfl rfl rfl rfl, h.entries, fun _ _ _ => rfl, fun _ => rfl⟩

/-- What a commit of a marked handle publishes. -/
theorem zip_publishes (h : ZipState a.length pak) (hnamed : ∀ e ∈ pak.entries, ZipNamed e)
    (hdirty : pak.dirty = true) :
    (∀ b, Publishes env a pak b → ∃ pak', ZipCommitted env a pak b pak') ∧
      ∀ pak', (pakka_commit env a pak).res = .ok pak' →
        Publishes env a pak (zip_file (zip_placed env a pak)) := by
  have hcase : ∀ pak', (pakka_commit env a pak).res = .ok pak' → ∃ b₀ q,
      ZipCommitted env a pak b₀ q ∧
        ∀ fs, FileOp.run fs (pakka_commit env a pak).log .live = some b₀ := by
    intro pak' hres
    cases zip_commit_outcome env h hnamed hdirty with
    | kept herr => rw [hres] at herr; cases herr
    | published hlog hwork hscratch hnew =>
      refine ⟨_, _, hnew, fun fs => ?_⟩
      rw [hlog]
      exact run_rename_scratch hscratch
  constructor
  · rintro b ⟨pak', hres, hrun⟩
    obtain ⟨b₀, q, hcom, hrun₀⟩ := hcase pak' hres
    obtain rfl := Option.some.inj ((hrun₀ fun _ => some a).symm.trans (hrun _ rfl))
    exact ⟨q, hcom⟩
  · intro pak' hres
    obtain ⟨b₀, q, hcom, hrun₀⟩ := hcase pak' hres
    refine ⟨pak', hres, fun fs _ => ?_⟩
    rw [hrun₀, hcom.file]

/-- A ZIP handle only rebuilds when it needs to. -/
theorem RunsRebuild.zip {needs_rebuild : Bool} (h : RunsRebuild (marked pak needs_rebuild))
    (hzip : pakka_format_is_zip pak.format = true) : needs_rebuild = true := by
  obtain ⟨-, -, hr | ⟨hn, -⟩⟩ := h
  · exact hr
  · exact absurd (hzip.symm.trans hn) (by simp)

/-- What is read back takes as much room as what was written. -/
theorem zip_loaded_sizes (hname : ∀ x ∈ xs, x.1.filename.strlen < PAKKA_ENTRY_NAME_SIZE ∧
      zip_name_read x.1.filename = x.1.filename) :
    cdr_start (xs.map fun x => zip_loaded x.1) = cdr_start (xs.map Prod.fst) ∧
      cdr_length (xs.map fun x => zip_loaded x.1) = cdr_length (xs.map Prod.fst) := by
  constructor
  · rw [cdr_start, cdr_start, List.map_map, List.map_map, List.map_map, List.map_map]
    refine congrArg List.sum (List.map_congr_left fun x hx => ?_)
    change PK3_LFH_SIZE + (zip_name_read x.1.filename).strlen + x.1.pk3_compressed_size.toNat = _
    rw [(hname x hx).2]
    rfl
  · rw [cdr_length, cdr_length, List.map_map, List.map_map]
    refine congrArg List.sum (List.map_congr_left fun x hx => ?_)
    change PK3_CDR_SIZE + (zip_name_read x.1.filename).strlen = _
    rw [(hname x hx).2]
    rfl

/-- The commit of a changed ZIP handle is the rebuild. -/
theorem pakka_commit_eq_zip_rebuild (env : Env) (disk : Bytes) {n : ℕ} (h : ZipState n pak)
    (hw : pak.writable = true) (hfp : pak.fp = true) (hdirty : pak.dirty = true)
    (hnum : pak.num_entries.toNat ≤ 0xFFFF) :
    pakka_commit env disk pak = pk3_commit_rebuild env disk pak := by
  unfold pakka_commit
  rw [if_neg (by simp [hdirty]), if_neg (by simp [hw, hfp]), if_pos h.zip, pakka_pk3_commit_impl,
    if_neg (by simp [hdirty]), if_neg (Nat.not_lt.mpr hnum), if_pos (h.rebuild hdirty)]

/-- **A written file of portable entries is its own rebuild.** -/
theorem ZipImage.rebuild_again (himage : ZipImage xs) (hportable : ∀ x ∈ xs, ZipPortable x.1)
    (hcount : xs.length ≠ 0xFFFF) (hnodup : (xs.map fun x => x.1.filename).Nodup) {path : CStr}
    {hint : Format} (hpath : path.strlen < OS_PATH_MAX)
    (hhint : hint = .auto ∨ hint = .pk3 ∨ hint = .pk4) (mode : OpenMode)
    (hcalm : ∀ p, env.faults.fails p = false) :
    ∃ q, pakka_open_ex path mode hint (some (zip_file xs)) = .ok q ∧
      ∀ needs_rebuild, RunsRebuild (marked q needs_rebuild) →
        Publishes env (zip_file xs) (marked q needs_rebuild) (zip_file xs) := by
  have hname : ∀ x ∈ xs, x.1.filename.strlen < PAKKA_ENTRY_NAME_SIZE ∧
      zip_name_read x.1.filename = x.1.filename := by
    intro x hx
    have hfits := (himage.named x hx).name_fits
    exact ⟨hfits, zip_name_read_utf8 (hportable x hx).utf8 hfits⟩
  obtain ⟨cdr, l, hd⟩ := himage.directory
    (fun x hx => ZipReadable.of_utf8 (hportable x hx).utf8 (hname x hx).1 (hportable x hx).length)
    hcount (by
      rw [List.map_congr_left fun x hx => (hname x hx).2]
      exact hnodup)
  obtain ⟨q, hopen, hzip, -, hents⟩ := hd.opens mode hpath hhint
  refine ⟨q, hopen, fun needs_rebuild hreb => ?_⟩
  obtain rfl := hreb.zip hzip
  have hlive := ZipLive.opened hopen hzip
  have hstate : ZipState (zip_file xs).length (marked q true) := hlive.state.marked
  have hnamed : ∀ e ∈ (marked q true).entries, ZipNamed e := fun e he => hlive.named e he
  have hdisk : ∀ e ∈ (marked q true).entries, e.staged = false := by
    intro e he
    change e ∈ q.entries at he
    rw [hents] at he
    exact (hd.opened_entry e he).not_staged
  have hfp : q.fp = true := by
    obtain ⟨h, cdr, l, es, -, rfl⟩ := open_zip_directory hopen hzip
    rfl
  -- the new file is the old one
  have hzero : (0 : UInt32).toNat = 0 := rfl
  have hagain := himage.placed.again env.sources (fun x hx => himage.payload hx) hname
    (by have := himage.size; omega) 0 hzero
  have hplaced : zip_placed env (zip_file xs) (marked q true) =
      zip_place env.sources (zip_file xs) 0 0 (xs.map fun x => zip_loaded x.1) := by
    rw [zip_placed, ← hents]
    rfl
  have hlen : (zip_placed env (zip_file xs) (marked q true)).length = xs.length := by
    rw [hplaced, length_zip_place, List.length_map]
  rw [← hplaced] at hagain
  have hfile : zip_file (zip_placed env (zip_file xs) (marked q true)) = zip_file xs := by
    rw [zip_file, hagain.1, hagain.2, hlen, zip_file]
  -- and it fits as the old one did
  obtain ⟨hstart, hlength⟩ := zip_loaded_sizes hname
  have hfit : cdr_start q.entries + PK3_EOCD_SIZE + cdr_length q.entries ≤ UINT32_MAX := by
    rw [hents, hstart, hlength, ← himage.placed.length_locals fun x hx => (hname x hx).1,
      ← length_zip_cdr fun e he => ?_]
    · exact himage.size
    · obtain ⟨x, hx, rfl⟩ := List.mem_map.mp he
      exact (hname x hx).1
  have hnum : (marked q true).num_entries.toNat ≤ 0xFFFF := by
    have hmax := himage.count
    rw [hstate.linked.count, UInt32.toNat_ofNat']
    change q.entries.length % _ ≤ _
    rw [hents, List.length_map]
    exact Nat.le_trans (Nat.mod_le _ _) hmax
  have hcommit := pakka_commit_eq_zip_rebuild env (zip_file xs) hstate hreb.1 hfp rfl hnum
  obtain ⟨q', hres⟩ := pk3_commit_rebuild_calm hcalm hstate hdisk hfit
  rw [← hcommit] at hres
  have hpub := (zip_publishes hstate hnamed rfl).2 q' hres
  rwa [hfile] at hpub

/-- **The rebuild of a ZIP archive is its own rebuild.** -/
theorem zip_rebuild_again {path path' : CStr} {mode : OpenMode} {hint hint' : Format}
    {needs_rebuild : Bool} (hopen : pakka_open_ex path mode hint (some a) = .ok pak)
    (hzip : pakka_format_is_zip pak.format = true)
    (hreb : RunsRebuild (marked pak needs_rebuild))
    (hpub : Publishes env a (marked pak needs_rebuild) b) (hpath : path'.strlen < OS_PATH_MAX)
    (hhint : hint' = .auto ∨ hint' = .pk3 ∨ hint' = .pk4) (mode' : OpenMode)
    (hcalm : ∀ p, env'.faults.fails p = false) :
    ∃ q, pakka_open_ex path' mode' hint' (some b) = .ok q ∧
      ∀ needs_rebuild', RunsRebuild (marked q needs_rebuild') →
        Publishes env' b (marked q needs_rebuild') b := by
  obtain rfl := hreb.zip hzip
  have hlive := ZipLive.opened hopen hzip
  have hstate : ZipState a.length (marked pak true) := hlive.state.marked
  have hnamed : ∀ e ∈ (marked pak true).entries, ZipNamed e := fun e he => hlive.named e he
  obtain ⟨h, cdr, l, es, hd, hpak⟩ := open_zip_directory hopen hzip
  have hents : (marked pak true).entries = es := by
    rw [hpak]
    rfl
  obtain ⟨pak', hcom⟩ := (zip_publishes hstate hnamed rfl).1 b hpub
  obtain rfl := hcom.file
  refine hcom.image.rebuild_again ?_ ?_ ?_ hpath hhint mode' hcalm
  · refine zip_place_forall (fun e he => ?_) fun _ _ hp => ⟨hp.utf8, hp.length⟩
    rw [hents] at he
    exact hd.portable e he
  · have hlt := hd.length_lt
    rw [zip_placed, length_zip_place, hents]
    exact Nat.ne_of_lt hlt
  · rw [zip_placed, zip_place_map Entry.filename (fun _ _ => rfl), hents]
    exact hd.nodup

/-! ## The canonical form -/

/-- **A rebuild brings an archive into a canonical form.** Whatever archive opens, PAK-class under
its hint or ZIP, and whatever failed or was found outside on the way: if a rebuild commit of the
unmodified list succeeds, the file it publishes opens again, under the same hint or any that allows
ZIP archives, and its own rebuild, with nothing failing, succeeds and publishes that very file. -/
theorem rebuild_canonical (env env' : Env) (path path' : CStr) (mode mode' : OpenMode)
    (hint hint' : Format) (needs_rebuild : Bool) (a b : Bytes) (pak : Archive)
    (hopen : pakka_open_ex path mode hint (some a) = .ok pak)
    (hhint : IsPakClass hint ∧ hint' = hint ∨ pakka_format_is_zip pak.format = true ∧
      (hint' = .auto ∨ hint' = .pk3 ∨ hint' = .pk4))
    (hreb : RunsRebuild (marked pak needs_rebuild))
    (hpub : Publishes env a (marked pak needs_rebuild) b) (hpath : path'.strlen < OS_PATH_MAX)
    (hcalm : ∀ p, env'.faults.fails p = false) :
    ∃ pak', pakka_open_ex path' mode' hint' (some b) = .ok pak' ∧
      ∀ needs_rebuild', RunsRebuild (marked pak' needs_rebuild') →
        Publishes env' b (marked pak' needs_rebuild') b := by
  rcases hhint with ⟨hcls, rfl⟩ | ⟨hzip, hhint⟩
  · obtain ⟨geom, hg⟩ := Option.isSome_iff_exists.mp hcls
    exact pak_rebuild_again hg hopen hreb hpub hpath mode' hcalm
  · exact zip_rebuild_again hopen hzip hreb hpub hpath hhint mode' hcalm

/-- The file with two entries of one range, rebuilt twice. -/
theorem rebuild_canonical_aliased : ∃ pak b,
    pakka_open_ex CStr.empty .read_write_atomic .pak (some aliased_file) = .ok pak ∧
      Publishes calm_env aliased_file (marked pak false) b ∧
        ∃ pak', pakka_open_ex CStr.empty .read_write_atomic .pak (some b) = .ok pak' ∧
          ∀ needs_rebuild', RunsRebuild (marked pak' needs_rebuild') →
            Publishes calm_env b (marked pak' needs_rebuild') b := by
  have hrun : (pakka_open_ex CStr.empty .read_write_atomic .pak (some aliased_file)).toOption.map
      (fun pak => (Archive.writable pak, Archive.atomic_commit pak,
        (pakka_commit calm_env aliased_file (marked pak false)).res.toOption.isSome)) =
        some (true, true, true) := by
    decide +kernel
  cases hopen : pakka_open_ex CStr.empty .read_write_atomic .pak (some aliased_file) with
  | error st =>
    rw [hopen] at hrun
    cases hrun
  | ok pak =>
    rw [hopen] at hrun
    simp only [Except.toOption, Option.map_some, Option.some.injEq, Prod.mk.injEq] at hrun
    obtain ⟨hw, hatomic, hres⟩ := hrun
    cases hcommit : (pakka_commit calm_env aliased_file (marked pak false)).res with
    | error err =>
      rw [hcommit] at hres
      cases hres
    | ok done =>
      have hg : pakka_pak_geometry .pak = some ⟨ascii "PACK", 56, 64, false⟩ := rfl
      obtain ⟨hformat, hstate, -, hdisk, -⟩ := open_pak_state hg hopen
      obtain ⟨b, hb, -⟩ := pak_commit_ok (hstate.marked hdisk false) rfl hcommit
      have hreb : RunsRebuild (marked pak false) := by
        refine ⟨hw, rfl, Or.inr ⟨?_, hatomic⟩⟩
        change pakka_format_is_zip pak.format = false
        rw [hformat]
        rfl
      exact ⟨pak, b, rfl, ⟨done, hcommit, hb⟩,
        rebuild_canonical calm_env calm_env CStr.empty CStr.empty .read_write_atomic
          .read_write_atomic .pak .pak false aliased_file b pak hopen (Or.inl ⟨by decide, rfl⟩) hreb
          ⟨done, hcommit, hb⟩ (by decide) fun _ => rfl⟩

end Pakka
