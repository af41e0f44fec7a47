/-
The arithmetic of a committed layout.

A commit computes offsets, sizes and counts in words of 16 and 32 bits, from file positions, from
running totals and from sums of header sizes. Any of them could wrap without a sign of it in the
result. `PakLayout` and `ZipLayout` say that every word that is written is the natural number it
stands for: the bytes the word points to are there, as many as it says, ranges do not overlap, and
directories and records are where the totals put them.

Limits are checked for most of it, in different places: an add checks the end of its payload, the
directory writer the end of the directory, the ZIP writer the count and every header. The one
quantity without a check is the count of a PAK-class list. It has 32 bits and is only ever
incremented, so a layout is exact up to 2^32 entries, and at 2^32 the count is written as zero.

The results cover every commit: in place, by rebuild, and those that find nothing to do.
-/
import Pakka.Lib.Ranges
import Pakka.PakDedup
import Pakka.ZipRefinement

set_option autoImplicit false

namespace Pakka

open ByteImage Logged Ranges Packing

/-! ## PAK-class archives

The two forms of a commit leave the payloads in different places and share what they write behind
them: the directory of the handle, and the two header words that point to it.
-/

/-- The words of a row: the offset is that of the payload, which ends before the directory, the
size in the file is that of the payload, and the length is that of its content. -/
structure PakEntryExact (disk' : Bytes) (dir_start : ℕ) (stored : Bytes) (content : Option Bytes)
    (e' : Entry) : Prop where
  offset : slice disk' e'.offset.toNat stored.length = stored
  before_directory : e'.offset.toNat + stored.length ≤ dir_start
  size : (pak_entry_on_disk_extent e').toNat = stored.length
  length : ∀ bs, content = some bs → e'.length.toNat = bs.length

/-- The file `disk'` is laid out as the handle `pak'` lists it, and its words are exact. -/
structure PakLayout (env : Env) (disk : Bytes) (pak : Archive) (disk' : Bytes) (pak' : Archive)
    (geom : Geometry) : Prop where
  header : slice disk' 0 PAKFILE_HEADER_SIZE = pak_header pak'
  diroffset : pak'.diroffset.toNat = directory_start pak'
  dirlength : pak'.dirlength.toNat = pak'.entries.length * geom.dir_entry_size
  numlumps : (pak'.dirlength / UInt32.ofNat geom.dir_entry_size).toNat = pak'.entries.length
  rows : slice disk' (directory_start pak') (pak'.entries.length * geom.dir_entry_size) =
    pak_directory pak'.format geom pak'.entries
  fits : pak'.diroffset.toNat + pak'.dirlength.toNat ≤ 2 ^ 32 - 1
  count : pak'.entries.length = pak.entries.length
  entries : ∀ i e e', pak.entries[i]? = some e → pak'.entries[i]? = some e' →
    PakEntryExact disk' (directory_start pak') (pak_stored (env.sources i) disk e)
      (pak_item (env.sources i) disk e).content e'
  -- a rebuild packs the payloads behind the header, at the sums of their sizes
  packed : commit_rebuilds pak → ∃ (key : Entry → Option (UInt32 × UInt32)) (own : ℕ → ℕ),
    Owner key pak.entries own ∧ PayloadsPacked own pak.entries pak'

variable {env : Env} {disk disk' : Bytes} {pak pak' : Archive} {geom : Geometry}

/-- **What a commit writes**: the directory of the handle it leaves, into a file that has the
payloads, if the end of the directory is in the range of its words as far as the count goes. -/
theorem pak_commit_writes (h : PakState disk.length pak geom) (hdirty : pak.dirty = true)
    (hc : (pakka_commit env disk pak).res = .ok pak') :
    ∃ (q : Archive) (c : Bytes) (n : ℕ), PakState n q geom ∧
      (q.entries ≠ [] →
        q.payload_end + q.num_entries.toNat * geom.dir_entry_size ≤ UINT32_MAX) ∧
      (∃ file_size dirty, pak' = { with_directory q geom with
        file_size := file_size, dirty := dirty }) ∧
      ∀ fs, fs .live = some disk →
        FileOp.run fs (pakka_commit env disk pak).log .live = some (pak_file q geom c) := by
  unfold pakka_commit at hc ⊢
  rw [if_neg (by simp [hdirty])] at hc ⊢
  by_cases hw : ¬ pak.writable ∨ ¬ pak.fp
  · rw [if_pos hw] at hc
    cases hc
  rw [if_neg hw, not_zip_of_geometry h.geometry, if_neg (by simp)] at hc ⊢
  by_cases hp : ¬ pak.needs_rebuild ∧ ¬ pak.atomic_commit
  · -- in place: over the old directory
    rw [if_pos hp] at hc ⊢
    simp only [pakka_commit_in_place, bind_res_ok, call_res_ok, exists_const, pure_res,
      Except.ok.injEq] at hc
    obtain ⟨pak1, hdir, hflush, rfl⟩ := hc
    obtain ⟨rfl, hfit, hlog⟩ := write_pak_directory_ok h.geometry
      (fun e he => (h.entries e he).name_fits) hdir
    refine ⟨pak, disk, _, h, hfit, ⟨_, _, rfl⟩, fun fs hfs => ?_⟩
    unfold pakka_commit_in_place
    rw [bind_log_of_ok hdir, bind_log_of_ok ((call_res_ok _ _ _ ()).mpr hflush), call_log, pure_log,
      List.append_nil, List.append_nil]
    exact hlog fs disk hfs
  · -- by rebuild: behind the payloads that were copied
    rw [if_neg hp] at hc ⊢
    obtain ⟨done, hwork, rfl, hlogs⟩ := pakka_commit_rebuild_work hc
    obtain ⟨offsets, acc, -, hlen, hplaced, rfl, hfit, hlog⟩ := pak_rebuild_work_writes h hwork
    refine ⟨_, overwrite [] PAKFILE_HEADER_SIZE acc, _, h.finished_install hlen hplaced,
      fun hne => hfit fun hn => hne (by simp only [finished, hn, drop_pending, List.map_nil]),
      ?_, fun fs _ => ?_⟩
    · rw [with_directory_finished]
      exact ⟨_, _, rfl⟩
    · rw [pak_file_finished, hlogs]
      exact run_publish (hlog fs)

/-- The content of a payload is as long as is recorded. -/
theorem PakItem.content_length {x : PakItem} {bs : Bytes} (h : x.content = some bs) :
    (x.dk_is_compressed = true → bs.length = x.length.toNat) ∧
      (¬ x.dk_is_compressed = true → bs = x.stored) := by
  unfold PakItem.content at h
  constructor
  · intro hdk
    rw [if_pos hdk] at h
    split at h
    · rename_i out hout
      rw [← Option.some.inj h]
      exact pakka_dk_inflate_length hout
    · cases h
  · intro hdk
    rw [if_neg hdk] at h
    exact (Option.some.inj h).symm

/-- The payloads of a committed archive, at the offsets it lists. -/
theorem PakCommitted.entry_exact (h : PakCommitted env disk pak disk' pak' geom) {i : ℕ}
    {e e' : Entry} (hi : pak.entries[i]? = some e) (hi' : pak'.entries[i]? = some e') :
    PakEntryExact disk' (directory_start pak') (pak_stored (env.sources i) disk e)
      (pak_item (env.sources i) disk e).content e' := by
  obtain ⟨x, hx, -, hs, hitem⟩ := h.entry hi
  obtain rfl := Option.some.inj (hi'.symm.trans hx)
  have hmem := List.mem_of_getElem? hi'
  obtain ⟨hn1, hn2⟩ := on_disk_none hs
  have hend := (h.state.entries e' hmem).before_end hs
  have hin := h.state.end_in_file
  have hstored : pak_stored (env.sources i) disk e =
      slice disk' e'.offset.toNat (pak_entry_on_disk_extent e').toNat := by
    have := congrArg PakItem.stored hitem
    simpa only [pak_item, pak_stored, hn1, hn2, Entry.payload] using this.symm
  unfold Entry.payloadEnd at hend
  have hlen : (pak_stored (env.sources i) disk e).length =
      (pak_entry_on_disk_extent e').toNat := by
    rw [hstored, length_slice_of_le (by omega)]
  have hstart : directory_start pak' = pak'.payload_end := if_neg (List.ne_nil_of_mem hmem)
  refine ⟨by rw [hlen, ← hstored], by rw [hlen, hstart]; exact hend, hlen.symm, ?_⟩
  intro bs hbs
  rw [← hitem] at hbs
  obtain ⟨hcoded, hplain⟩ := PakItem.content_length hbs
  by_cases hdk : e'.dk_is_compressed = true
  · exact (hcoded hdk).symm
  · have hst : (pak_item (env.sources i) disk' e').stored = pak_stored (env.sources i) disk e :=
      congrArg PakItem.stored hitem
    rw [hplain hdk, hst, hlen, pak_entry_on_disk_extent, if_neg hdk]

/-- A commit leaves as many entries as it found. -/
theorem PakCommitted.length_eq (h : PakCommitted env disk pak disk' pak' geom) :
    pak'.entries.length = pak.entries.length := by
  have := congrArg List.length (h.listing fun _ _ => [])
  simpa only [pak_listing, List.length_mapIdx] using this

/-- **A PAK-class commit lays out exactly**, as long as its count is right. -/
theorem pak_commit_layout (h : PakState disk.length pak geom) (hdirty : pak.dirty = true)
    (hlt : pak.entries.length < 2 ^ 32) (hc : (pakka_commit env disk pak).res = .ok pak') :
    ∃ disk', (∀ fs, fs .live = some disk →
        FileOp.run fs (pakka_commit env disk pak).log .live = some disk') ∧
      PakLayout env disk pak disk' pak' geom := by
  obtain ⟨disk', hlog, hcom⟩ := pak_commit_ok h hdirty hc
  obtain ⟨q, c, n, hq, hfit, ⟨size, dirty, hpak⟩, hwrites⟩ := pak_commit_writes h hdirty hc
  obtain rfl : disk' = pak_file q geom c :=
    Option.some.inj ((hlog (fun _ => some disk) rfl).symm.trans (hwrites _ rfl))
  obtain ⟨hheader, -, hrows, -⟩ := pak_file_parts hq c
  obtain ⟨-, -, hrow1, hrow2⟩ := geometry_bounds hq.geometry
  have hlen := hcom.length_eq
  have hents : pak'.entries = q.entries := by rw [hpak]; rfl
  have hstart : directory_start pak' = directory_start q := by rw [hpak]; rfl
  have hmax : UINT32_MAX = 2 ^ 32 - 1 := rfl
  -- below 2^32 entries the count is the length of the list, and then the words of the header are
  -- exact
  have hcount : q.num_entries.toNat = q.entries.length := by
    rw [hq.count, UInt32.toNat_ofNat', Nat.mod_eq_of_lt (by rw [← hents, hlen]; exact hlt)]
  have hsum : directory_start q + q.entries.length * geom.dir_entry_size ≤ 2 ^ 32 - 1 := by
    unfold directory_start
    split_ifs with h0
    · rw [h0, List.length_nil, Nat.zero_mul]
      decide
    · rw [← hcount]
      exact hfit h0
  have hoff : pak'.diroffset.toNat = directory_start q := by
    have hle : directory_start q ≤ UINT32_MAX := by omega
    rw [hpak]
    exact ofNat_toNat_of_le hle
  have hdl : pak'.dirlength.toNat = q.entries.length * geom.dir_entry_size := by
    rw [hpak]
    exact ofNat_toNat_of_le (by omega)
  refine ⟨_, hlog, ?_, hoff.trans hstart.symm, ?_, ?_, ?_, ?_, hlen,
    fun i e e' hi hi' => hcom.entry_exact hi hi', fun hreb => ?_⟩
  · rw [hheader, hpak]
    rfl
  · rw [hdl, hents]
  · have hrow : (UInt32.ofNat geom.dir_entry_size).toNat = geom.dir_entry_size := by
      rw [UInt32.toNat_ofNat', Nat.mod_eq_of_lt (by omega)]
    rw [UInt32.toNat_div, hdl, hrow, hents, Nat.mul_div_cancel _ (by omega)]
  · rw [hstart, hents, hrows, hpak]
    rfl
  · rw [hoff, hdl]
    exact hsum
  · -- a rebuild: shared ranges have an owner, or nothing is shared
    have hfp : pak.fp = true := by
      by_contra hx
      unfold pakka_commit at hc
      rw [if_neg (by simp [hdirty]), if_pos (Or.inr hx)] at hc
      cases hc
    have hres : (pakka_commit_rebuild env disk pak).res = .ok pak' := by
      rw [← pakka_commit_eq_rebuild env (not_zip_of_geometry h.geometry) hfp hreb]
      exact hc
    exact ⟨_, _, rebuild_owner_spec env _, rebuild_packs (rebuild_owner_spec env _) h.entries hres⟩

/-! ## ZIP archives

Everything is written anew, so the ranges are consecutive from the start of the file, and each
record has the place of its local header. Sums of header sizes are where the limits are tight.
-/

/-- The range of an entry: its local header, its name and its payload. -/
def local_range (e : Entry) : ℕ × ℕ :=
  (e.pk3_lfh_offset.toNat, PK3_LFH_SIZE + e.filename.strlen + e.pk3_compressed_size.toNat)

/-- Where the central directory starts: behind all ranges. -/
def cdr_start (es : List Entry) : ℕ := ((es.map local_range).map Prod.snd).sum

/-- The length of the central directory. -/
def cdr_length (es : List Entry) : ℕ := (es.map fun e => PK3_CDR_SIZE + e.filename.strlen).sum

/-- The words of an entry, in its local header and in its record. -/
structure ZipEntryExact (disk' : Bytes) (item : ZipItem) (e' : Entry) : Prop where
  header : slice disk' e'.pk3_lfh_offset.toNat (PK3_LFH_SIZE + e'.filename.strlen) =
    pk3_lfh_bytes e'
  payload : slice disk' e'.pk3_payload_offset.toNat item.stored.length = item.stored
  payload_offset : e'.pk3_payload_offset.toNat =
    e'.pk3_lfh_offset.toNat + PK3_LFH_SIZE + e'.filename.strlen
  name_length : (pk3_name_len e').toNat = e'.filename.strlen
  size : e'.pk3_compressed_size.toNat = item.stored.length
  length : ∀ df bs, item.content df = some bs → e'.length.toNat = bs.length

/-- The file `disk'` is laid out as the handle `pak'` lists it, and its words are exact. -/
structure ZipLayout (env : Env) (disk : Bytes) (pak : Archive) (disk' : Bytes) (pak' : Archive) :
    Prop where
  ranges : Consecutive 0 (pak'.entries.map local_range) (cdr_start pak'.entries)
  apart : Separate (pak'.entries.map local_range)
  directory : slice disk' (cdr_start pak'.entries) (cdr_length pak'.entries) = zip_cdr pak'.entries
  eocd : ∃ cdr_offset cdr_size entry_count,
    slice disk' (cdr_start pak'.entries + cdr_length pak'.entries) PK3_EOCD_SIZE =
        pk3_build_eocd cdr_offset cdr_size entry_count ∧
      cdr_offset.toNat = cdr_start pak'.entries ∧ cdr_size.toNat = cdr_length pak'.entries ∧
      entry_count.toNat = pak'.entries.length
  at_end : disk'.length = cdr_start pak'.entries + cdr_length pak'.entries + PK3_EOCD_SIZE
  count : pak'.entries.length = pak.entries.length
  entries : ∀ i e e', pak.entries[i]? = some e → pak'.entries[i]? = some e' →
    ZipEntryExact disk' (zip_item (env.sources i) disk e) e'

/-- The content of an item is as long as is recorded. -/
theorem ZipItem.content_length {df : Deflate} {x : ZipItem} {bs : Bytes}
    (h : x.content df = some bs) :
    (x.method = PK3_METHOD_STORED → bs = x.stored) ∧
      (¬ x.method = PK3_METHOD_STORED → bs.length = x.length.toNat) := by
  unfold ZipItem.content at h
  constructor
  · intro hm
    rw [if_pos hm] at h
    exact (Option.some.inj h).symm
  · intro hm
    rw [if_neg hm] at h
    split at h
    · split_ifs at h with hboth
      rw [← Option.some.inj h]
      exact hboth.2
    · cases h

/-- Placed entries are laid out one behind the other. -/
theorem ZipPlaced.consecutive {pos : ℕ} {xs : List (Entry × Bytes)} (h : ZipPlaced pos xs)
    (hnames : ∀ x ∈ xs, x.1.filename.strlen < PAKKA_ENTRY_NAME_SIZE) :
    Consecutive pos ((xs.map Prod.fst).map local_range) (pos + (zip_locals xs).length) := by
  induction h with
  | nil => rfl
  | @cons pos e p xs header payload offset size rest ih =>
    have hlen := length_pk3_lfh_bytes (hnames _ List.mem_cons_self)
    simp only at hlen
    rw [List.map_cons, List.map_cons, zip_locals_cons, List.length_append, List.length_append]
    refine ⟨header, ?_⟩
    have htail := ih fun x hx => hnames x (List.mem_cons_of_mem _ hx)
    have hstep : pos + (local_range e).2 = pos + (pk3_lfh_bytes e).length + p.length := by
      rw [local_range, hlen, size]
      simp only
      omega
    rw [hstep]
    have hend : pos + ((pk3_lfh_bytes e).length + p.length + (zip_locals xs).length) =
        pos + (pk3_lfh_bytes e).length + p.length + (zip_locals xs).length := by
      omega
    simp only
    rw [hend]
    exact htail

theorem length_zip_cdr {es : List Entry}
    (h : ∀ e ∈ es, e.filename.strlen < PAKKA_ENTRY_NAME_SIZE) :
    (zip_cdr es).length = cdr_length es := by
  induction es with
  | nil => rfl
  | cons e es ih =>
    rw [zip_cdr_cons, List.length_append, length_pk3_cdr_bytes (h e List.mem_cons_self),
      ih fun x hx => h x (List.mem_cons_of_mem _ hx), cdr_length, cdr_length, List.map_cons,
      List.sum_cons]

/-- **A ZIP commit lays out exactly.** -/
theorem ZipCommitted.layout (h : ZipCommitted env disk pak disk' pak') :
    ZipLayout env disk pak disk' pak' := by
  have himage := h.image
  generalize hxs : zip_placed env disk pak = xs at himage
  have hents : pak'.entries = drop_pending (xs.map Prod.fst) := by rw [h.entries, hxs]
  have hfile : disk' = zip_file xs := by rw [h.file, hxs]
  have hnames : ∀ x ∈ xs, x.1.filename.strlen < PAKKA_ENTRY_NAME_SIZE :=
    fun x hx => (himage.named x hx).name_fits
  have hranges : pak'.entries.map local_range = (xs.map Prod.fst).map local_range := by
    rw [hents, drop_pending, List.map_map]
    rfl
  have hcdr : zip_cdr pak'.entries = zip_cdr (xs.map Prod.fst) := by
    rw [hents, zip_cdr, drop_pending, List.flatMap_map]
    rfl
  have hnames' : ∀ e ∈ pak'.entries, e.filename.strlen < PAKKA_ENTRY_NAME_SIZE :=
    fun e he => (h.named e he).name_fits
  have hcount : pak'.entries.length = xs.length := by
    rw [hents, drop_pending, List.length_map, List.length_map]
  -- the local ranges are consecutive from the start of the file, and the directory is behind them
  have hcons := himage.placed.consecutive hnames
  rw [← hranges, Nat.zero_add] at hcons
  have hstart : (zip_locals xs).length = cdr_start pak'.entries := by
    rw [hcons.sum, Nat.zero_add, cdr_start]
  have hlen : (zip_cdr (xs.map Prod.fst)).length = cdr_length pak'.entries := by
    rw [← hcdr, length_zip_cdr hnames']
  obtain ⟨hoff, hsize, hnum⟩ := himage.words
  have hbody : (zip_locals xs ++ zip_cdr (xs.map Prod.fst)).length =
      cdr_start pak'.entries + cdr_length pak'.entries := by
    rw [List.length_append, hstart, hlen]
  rw [hstart] at hcons
  refine ⟨hcons, hcons.apart, ?_, ⟨(zip_eocd xs).cdr_offset, (zip_eocd xs).cdr_size,
    (zip_eocd xs).entry_count, ?_, hoff.trans hstart, hsize.trans hlen, hnum.trans hcount.symm⟩,
    ?_, ?_, ?_⟩
  · rw [hfile, zip_file, ← hstart, ← hlen, slice, List.drop_left, List.take_left, hcdr]
  · rw [hfile, zip_file_eq, ← hbody, slice, List.drop_left]
    exact List.take_of_length_le (by rw [length_build_eocd])
  · rw [hfile, zip_file_eq, List.length_append, hbody, length_build_eocd]
  · rw [hcount, ← hxs, zip_placed, length_zip_place]
  -- and each entry of before is at its place, header and payload
  · intro i e e' hi hi'
    obtain ⟨x, hx, hx', hrow⟩ := h.entry hi
    obtain rfl := Option.some.inj (hx'.symm.trans hi')
    rw [hxs] at hx
    have hmem := List.mem_of_getElem? hx
    obtain ⟨⟨rest, hdrop⟩, hpayload, -, hcsize, -⟩ := himage.located hmem
    have hname := hnames x hmem
    have hhead := length_pk3_lfh_bytes hname
    have hitem : zip_item (env.sources i) disk e = (zip_row x).2 := by rw [hrow]
    rw [hitem]
    refine ⟨?_, ?_, ?_, pk3_name_len_toNat hname, hcsize, ?_⟩
    · change slice disk' x.1.pk3_lfh_offset.toNat (PK3_LFH_SIZE + x.1.filename.strlen) =
        pk3_lfh_bytes x.1
      rw [hfile, slice, hdrop, ← hhead, List.take_left]
    · change slice disk' x.1.pk3_payload_offset.toNat x.2.length = x.2
      rw [hfile, ← hcsize]
      exact himage.payload hmem
    · change x.1.pk3_payload_offset.toNat = x.1.pk3_lfh_offset.toNat + _ + x.1.filename.strlen
      rw [hpayload, hhead, Nat.add_assoc]
    · intro df bs hbs
      obtain ⟨hplain, hcoded⟩ := ZipItem.content_length hbs
      change x.1.length.toNat = bs.length
      by_cases hm : x.1.pk3_method = PK3_METHOD_STORED
      · rw [hplain hm, ← himage.stored x hmem hm, hcsize]
        rfl
      · exact (hcoded hm).symm

/-! ## Every commit

One statement for all formats, with the condition on the count for the families that need it.
-/

/-- The new file is laid out exactly, in whichever format. -/
inductive LayoutExact (env : Env) (disk : Bytes) (pak : Archive) (disk' : Bytes) (pak' : Archive) :
    Prop where
  | pak {geom : Geometry} (hg : pakka_pak_geometry pak'.format = some geom)
      (h : PakLayout env disk pak disk' pak' geom) : LayoutExact env disk pak disk' pak'
  | zip (hz : pakka_format_is_zip pak'.format = true) (h : ZipLayout env disk pak disk' pak') :
      LayoutExact env disk pak disk' pak'

/-- The commit that leaves the handle `pak'` writes nothing, if there was nothing to write, or an
exact layout. -/
structure CommitExact (env : Env) (s : Session) (pak' : Archive) : Prop where
  clean : s.pak.dirty = false → (pakka_commit env s.disk s.pak).log = []
  dirty : s.pak.dirty = true → ∃ disk',
    FileOp.run s.files (pakka_commit env s.disk s.pak).log .live = some disk' ∧
      LayoutExact env s.disk s.pak disk' pak'

/-- The words of an exact layout bound the count. -/
theorem LayoutExact.count_lt (h : LayoutExact env disk pak disk' pak') :
    pak.entries.length < 2 ^ 32 := by
  cases h with
  | @pak geom hg h =>
    obtain ⟨-, -, hrow, -⟩ := geometry_bounds hg
    have hlt := UInt32.toNat_lt pak'.dirlength
    rw [h.dirlength] at hlt
    rw [← h.count]
    have := Nat.le_mul_of_pos_right pak'.entries.length (by omega : 0 < geom.dir_entry_size)
    omega
  | zip hz h =>
    obtain ⟨_, _, entry_count, -, -, -, hcount⟩ := h.eocd
    have hlt := UInt16.toNat_lt entry_count
    rw [← h.count]
    omega

/-- **Exact layouts.** Take a commit that succeeds, after any calls on an archive of any format. If
the handle was clean, nothing is written. If not, every word that is written equals the number it
stands for: where payloads and headers are, how long they and the names are, where the directory
is, how long it is and how many entries it has; ZIP ranges, central directory and end record
follow one another from the start of the file to its end, and a PAK-class directory is behind all
payloads and ends below 2^32. This is so exactly when the list of a handle to be written has fewer
than 2^32 entries. -/
theorem commit_layout_exact_iff (df : Deflate) (s₀ : Session) (calls : List (Env × Call))
    (env : Env) (pak' : Archive) (hstart : Session.Started s₀)
    (hc : (pakka_commit env (s₀.run df calls).disk (s₀.run df calls).pak).res = .ok pak') :
    CommitExact env (s₀.run df calls) pak' ↔
      ((s₀.run df calls).pak.dirty = true → (s₀.run df calls).pak.entries.length < 2 ^ 32) := by
  have hreach : Reached (s₀.run df calls) := hstart.reached.run calls
  generalize s₀.run df calls = s at hc hreach ⊢
  constructor
  · intro h hd
    obtain ⟨disk', -, hexact⟩ := h.dirty hd
    exact hexact.count_lt
  · intro hlt
    refine ⟨fun hd => by rw [pakka_commit_clean hd]; rfl, fun hd => ?_⟩
    cases hreach with
    | lost hfp =>
      rw [lost_commit_fails env s.disk hfp hd] at hc
      cases hc
    | pak hl =>
      have hstate := hl.disk_state
      obtain ⟨disk', hlog, hlayout⟩ := pak_commit_layout hstate hd (hlt hd) hc
      obtain ⟨_, -, hcom⟩ := pak_commit_ok hstate hd hc
      have hfile := hl.file
      rw [← hl.disk_eq] at hfile
      exact ⟨disk', hlog _ hfile, .pak hcom.state.geometry hlayout⟩
    | zip hl =>
      have hstate := hl.disk_state
      cases zip_commit_outcome env hstate hl.named hd with
      | kept hres =>
        rw [hres] at hc
        cases hc
      | @published work scratch p hlog hwork hscratch hnew hres =>
        rcases hres with hres | ⟨_, _, hres, -⟩
        · obtain rfl := Except.ok.inj (hres.symm.trans hc)
          refine ⟨scratch, ?_, .zip hnew.state.zip hnew.layout⟩
          rw [hlog]
          exact run_publish (hscratch _)
        · rw [hres] at hc
          cases hc

/-- The layout of a WAD with one lump. -/
theorem commit_layout_one_lump : ∃ pak', CommitExact calm_env (crowded 1) pak' := by
  have hrun : (crowded 0).run .storing [(calm_env, .add_memory lump_name [])] = crowded 1 := by
    rw [Session.run, crowded_step]
    rfl
  obtain ⟨pak', hres⟩ := crowded_commit_ok (n := 1) (by decide) (by decide +kernel)
  have h := commit_layout_exact_iff .storing (crowded 0) [(calm_env, .add_memory lump_name [])]
    calm_env pak' crowded_started
  rw [hrun] at h
  refine ⟨pak', (h hres).mpr fun _ => ?_⟩
  change (List.replicate 1 _).length < _
  rw [List.length_replicate]
  decide

/-- 2^32 empty lumps are counted as none, so the commit goes through, and the directory length and
the lump count it writes are not those of the directory. -/
theorem crowded_wad_layout_wraps :
    Session.Started (crowded 0) ∧
      (crowded 0).runOk .storing (List.replicate (2 ^ 32) (calm_env, .add_memory lump_name [])) =
        some (crowded (2 ^ 32)) ∧
      ∃ pak', (pakka_commit calm_env (crowded (2 ^ 32)).disk (crowded (2 ^ 32)).pak).res = .ok pak' ∧
        ¬ CommitExact calm_env (crowded (2 ^ 32)) pak' := by
  have hcount : (crowded (2 ^ 32)).pak.num_entries.toNat = 0 := UInt32.toNat_ofNat'
  obtain ⟨pak', hres⟩ := crowded_commit_ok (n := 2 ^ 32) (by decide) (by rw [hcount]; decide)
  refine ⟨crowded_started, crowded_runOk _ _, pak', hres, fun h => ?_⟩
  have hdirty : (crowded (2 ^ 32)).pak.dirty = true := by
    change decide (0 < 2 ^ 32) = true
    decide
  obtain ⟨disk', -, hexact⟩ := h.dirty hdirty
  have hlt := hexact.count_lt
  change (List.replicate (2 ^ 32) _).length < _ at hlt
  rw [List.length_replicate] at hlt
  exact absurd hlt (Nat.lt_irrefl _)

end Pakka
