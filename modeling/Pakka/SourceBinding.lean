/-
What is published of sources that change.

An add records the length and the checksum of what it saw of its source. A commit sees the source
again, any number of changes later, and checks what it copies. So whatever a source is at each
pass, a commit that succeeds has published bytes of that length and checksum, and the headers of a
ZIP entry give the numbers of the bytes behind them. A commit that fails leaves the file alone.

The theorem quantifies over what each pass finds, with no relation between the passes. So it covers
a source that is exchanged while it is read, one that changes its length, and one that is gone by
the time of the commit.
-/
import Pakka.HeaderAgreement
import Pakka.StagedBuffers

set_option autoImplicit false

namespace Pakka

open ByteImage LittleEndian Logged

/-! ## The check of a copied source

Length and checksum of what was copied are those recorded, or the commit fails.
-/

/-- What pass `k` finds at a path has, as far as it is copied, the size and the checksum
recorded. -/
def SourceKept (env : Env) (k : ℕ) (path : CStr) (size crc : UInt32) : Prop :=
  ((env.sources k path).take size.toNat).length = size.toNat ∧
    crc32_of ((env.sources k path).take size.toNat) = crc

/-- Pass `k` of a commit copied the source at a path. -/
def SourceCopied (env : Env) (k : ℕ) (path : CStr) (size crc : UInt32) : Prop :=
  ∃ pos bs, (copy_pending_source env k pos path size crc).res = .ok bs

theorem SourceCopied.kept {env : Env} {k : ℕ} {path : CStr} {size crc : UInt32}
    (h : SourceCopied env k path size crc) : SourceKept env k path size crc := by
  obtain ⟨pos, bs, hbs⟩ := h
  obtain ⟨rfl, hlen, hcrc, -⟩ := copy_pending_source_ok hbs
  exact ⟨hlen, hcrc⟩

/-- **The copy loop** of a PAK-class rebuild copies every staged source. -/
theorem pak_rebuild_copy_copied {env : Env} {disk : Bytes} {owner : Option (List ℕ)}
    (es : List Entry) {i pos : ℕ} {offsets : List UInt32} {r : List UInt32 × ℕ}
    (h : (pak_rebuild_copy env disk owner i pos offsets es).res = .ok r) {k : ℕ} {e : Entry}
    {path : CStr} (hk : es[k]? = some e) (hpath : e.pending_source = some path)
    (hown : pak_shared owner (i + k) = none) : SourceCopied env (i + k) path e.length e.crc32 := by
  induction es generalizing i pos offsets k with
  | nil => cases hk
  | cons x es ih =>
    rw [pak_rebuild_copy] at h
    cases hsh : pak_shared owner i with
    | some o =>
      rw [hsh] at h
      cases k with
      | zero =>
        rw [Nat.add_zero, hsh] at hown
        cases hown
      | succ k =>
        have hik : i + 1 + k = i + (k + 1) := by omega
        rw [← hik] at hown ⊢
        exact ih h hk hown
    | none =>
      rw [hsh] at h
      simp only [bind_res_ok] at h
      obtain ⟨bs, hbs, h⟩ := h
      cases k with
      | zero =>
        obtain rfl := Option.some.inj hk
        unfold copy_between_paks at hbs
        simp only [bind_res_ok, call_res_ok, exists_const] at hbs
        obtain ⟨-, hbs⟩ := hbs
        split_ifs at hbs
        · cases hbs
        · rw [hpath] at hbs
          exact ⟨pos, bs, hbs⟩
      | succ k =>
        have hik : i + 1 + k = i + (k + 1) := by omega
        rw [← hik] at hown ⊢
        exact ih h hk hown

/-- **The rebuild loop** of a ZIP archive copies every staged source. -/
theorem pk3_rebuild_loop_copied {env : Env} {disk : Bytes} (es : List Entry) {i pos : ℕ}
    {cur_offset : UInt32} {done : List Entry} {r : List Entry × UInt32 × ℕ}
    (h : (pk3_rebuild_loop env disk i pos cur_offset done es).res = .ok r) {k : ℕ} {e : Entry}
    {path : CStr} (hk : es[k]? = some e) (hpath : e.pending_source = some path) :
    SourceCopied env (i + k) path e.pk3_compressed_size e.crc32 := by
  induction es generalizing i pos cur_offset done k with
  | nil => cases hk
  | cons x es ih =>
    rw [pk3_rebuild_loop] at h
    split_ifs at h
    · cases h
    simp only [bind_res_ok, writeAt_res_ok, exists_const, mapError_res_ok] at h
    obtain ⟨-, bs, hbs, h⟩ := h
    cases k with
    | zero =>
      obtain rfl := Option.some.inj hk
      unfold pk3_copy_payload at hbs
      rw [hpath] at hbs
      exact ⟨_, bs, hbs⟩
    | succ k =>
      have hik : i + 1 + k = i + (k + 1) := by omega
      rw [← hik]
      exact ih h hk

variable {df : Deflate} {s : Session} {disk : Bytes} {env : Env} {c : Call}

/-- A PAK-class commit that rebuilds and succeeds has copied every staged source. -/
theorem pakka_commit_rebuild_copied {pak pak' : Archive}
    (h : (pakka_commit_rebuild env disk pak).res = .ok pak') {k : ℕ} {e : Entry} {path : CStr}
    (hk : pak.entries[k]? = some e) (hpath : e.pending_source = some path) :
    SourceCopied env k path e.length e.crc32 := by
  simp only [pakka_commit_rebuild, pak_rebuild_publish, pak_rebuild_work, pak_rebuild_scratch,
    pak_rebuild_payloads, bind_res_ok, mapError_res_ok, onError_res, call_res_ok, exists_const,
    emit_res, true_and, pure_res, Except.ok.injEq] at h
  obtain ⟨-, ⟨done, ⟨-, ⟨-, -, -, -, r, hcopy, -⟩, -⟩, -⟩, -⟩ := h
  have hstaged : e.staged = true := by
    rw [Entry.staged, hpath]
    rfl
  have howner : OwnersShare pak.entries (if env.faults.fails .dedup = true then none
      else some (pak_dedup_owner pak.entries)) := by
    intro l hl i
    split_ifs at hl
    obtain rfl := Option.some.inj hl
    exact pak_dedup_owner_shares pak.entries i
  have hown : pak_shared (if env.faults.fails .dedup = true then none
      else some (pak_dedup_owner pak.entries)) k = none := by
    cases hsh : pak_shared (if env.faults.fails .dedup = true then none
        else some (pak_dedup_owner pak.entries)) k with
    | none => rfl
    | some o =>
      -- only entries on disk share
      obtain ⟨-, a, b, -, hb, -, hbs, -⟩ := shared_owner howner hsh
      obtain rfl := Option.some.inj (hk.symm.trans hb)
      rw [hstaged] at hbs
      cases hbs
  have hcopied := pak_rebuild_copy_copied pak.entries hcopy hk hpath
    (by rw [Nat.zero_add]; exact hown)
  rwa [Nat.zero_add] at hcopied

/-- A ZIP commit that rebuilds and succeeds has copied every staged source. -/
theorem pk3_commit_rebuild_copied {pak pak' : Archive}
    (h : (pk3_commit_rebuild env disk pak).res = .ok pak') {k : ℕ} {e : Entry} {path : CStr}
    (hk : pak.entries[k]? = some e) (hpath : e.pending_source = some path) :
    SourceCopied env k path e.pk3_compressed_size e.crc32 := by
  simp only [pk3_commit_rebuild, pk3_rebuild_publish, pk3_rebuild_work, pk3_rebuild_scratch,
    bind_res_ok, mapError_res_ok, onError_res, call_res_ok, exists_const, emit_res, true_and,
    pure_res, Except.ok.injEq] at h
  obtain ⟨-, ⟨-, ⟨-, -, -, -, ⟨r, hloop, -⟩, -⟩, -⟩, -⟩ := h
  have hcopied := pk3_rebuild_loop_copied pak.entries hloop hk hpath
  rwa [Nat.zero_add] at hcopied

/-! ## What is published

The two headers of a ZIP entry, read back from the file.
-/

/-- What the local header at an offset of a file says, with the payload behind it. -/
def local_item (disk : Bytes) (lfh_offset : ℕ) : ZipItem :=
  let h := local_header disk lfh_offset
  { method := h.method
    crc32 := h.crc
    compressed_size := h.csize
    length := h.usize
    stored := slice disk (lfh_offset + PK3_LFH_SIZE + h.name_len.toNat) h.csize.toNat }

/-- What the central record at an offset of a file says, with the payload it leads to. -/
def central_item (disk : Bytes) (pos : ℕ) : ZipItem :=
  let r := pk3_read_cdr_record (disk.drop pos)
  { method := r.method
    crc32 := r.crc
    compressed_size := r.csize
    length := r.usize
    stored := (local_item disk r.lfh_offset.toNat).stored }

/-- **A written local header gives the row** of its entry. -/
theorem ZipImage.local_item {xs : List (Entry × Bytes)} (h : ZipImage xs) {x : Entry × Bytes}
    (hx : x ∈ xs) : local_item (zip_file xs) x.1.pk3_lfh_offset.toNat = (zip_row x).2 := by
  obtain ⟨⟨rest, hdrop⟩, hpayload, -, hcsize, -⟩ := h.located hx
  have hfits := (h.named x hx).name_fits
  have hslice := h.payload hx
  obtain ⟨-, -, h8, h14, h18, h22, h26, -⟩ := build_lfh_fields x.1.pk3_method x.1.crc32
    x.1.pk3_compressed_size x.1.length (pk3_name x.1) (pk3_name_len x.1)
    (pk3_name x.1 ++ (x.2 ++ rest))
  have hfield : ∀ k, (zip_file xs).drop (x.1.pk3_lfh_offset.toNat + k) =
      (pk3_build_lfh x.1.pk3_method x.1.crc32 x.1.pk3_compressed_size x.1.length (pk3_name x.1)
        (pk3_name_len x.1) ++ (pk3_name x.1 ++ (x.2 ++ rest))).drop k := by
    intro k
    rw [← List.drop_drop, hdrop, pk3_lfh_bytes, List.append_assoc]
  have hpos : x.1.pk3_lfh_offset.toNat + PK3_LFH_SIZE + (pk3_name_len x.1).toNat =
      x.1.pk3_payload_offset.toNat := by
    rw [hpayload, length_pk3_lfh_bytes hfits, pk3_name_len_toNat hfits, Nat.add_assoc]
  rw [Pakka.local_item, local_header]
  simp only [hfield, h8, h14, h18, h22, h26, hpos, hslice]
  rfl

/-- **A written central record gives the row** of its entry. -/
theorem ZipImage.central_item {xs : List (Entry × Bytes)} (h : ZipImage xs) {k : ℕ}
    {x : Entry × Bytes} (hk : xs[k]? = some x) :
    central_item (zip_file xs)
      ((zip_eocd xs).cdr_offset.toNat + (zip_cdr ((xs.map Prod.fst).take k)).length) =
        (zip_row x).2 := by
  have hx := List.mem_of_getElem? hk
  have hfits := (h.named x hx).name_fits
  obtain ⟨hoff, -, -⟩ := h.words
  have hlt := (List.getElem?_eq_some_iff.mp hk).1
  have hsplit : xs.map Prod.fst =
      (xs.map Prod.fst).take k ++ x.1 :: (xs.map Prod.fst).drop (k + 1) := by
    have hget : (xs.map Prod.fst)[k]? = some x.1 := by rw [List.getElem?_map, hk, Option.map_some]
    obtain ⟨hkl, hget⟩ := List.getElem?_eq_some_iff.mp hget
    rw [← hget, List.getElem_cons_drop, List.take_append_drop]
  have hcdr : zip_cdr (xs.map Prod.fst) = zip_cdr ((xs.map Prod.fst).take k) ++
      (pk3_cdr_bytes x.1 ++ zip_cdr ((xs.map Prod.fst).drop (k + 1))) := by
    conv_lhs => rw [hsplit]
    exact List.flatMap_append
  have hdrop : (zip_file xs).drop ((zip_eocd xs).cdr_offset.toNat +
      (zip_cdr ((xs.map Prod.fst).take k)).length) =
        pk3_cdr_bytes x.1 ++ (zip_cdr ((xs.map Prod.fst).drop (k + 1)) ++
          pk3_build_eocd (zip_eocd xs).cdr_offset (zip_eocd xs).cdr_size
            (zip_eocd xs).entry_count) := by
    rw [zip_file_eq, hoff, hcdr, ← List.drop_drop]
    simp only [List.append_assoc, List.drop_left]
  obtain ⟨hrec, -, -, -⟩ := zip_record_found hfits hdrop
  have hlocal := h.local_item hx
  rw [Pakka.central_item, hrec]
  change ({ (zip_row x).2 with
    stored := (Pakka.local_item (zip_file xs) x.1.pk3_lfh_offset.toNat).stored } : ZipItem) = _
  rw [hlocal]

/-! ## What a commit publishes of an entry

For entries of either family.
-/

/-- The bytes that a file holds for an entry of a handle. -/
def published_bytes (pak : Archive) (disk : Bytes) (e : Entry) : Bytes :=
  if pakka_format_is_zip pak.format then
    slice disk e.pk3_payload_offset.toNat e.pk3_compressed_size.toNat
  else e.payload disk

/-- Entry `k` of a session has the name and the length of `e`, and the bytes published for it have
this length and the checksum of `e`. -/
def SourceBound (s : Session) (k : ℕ) (e : Entry) : Prop :=
  ∃ e', s.pak.entries[k]? = some e' ∧ e'.filename = e.filename ∧ e'.length = e.length ∧
    (published_bytes s.pak s.disk e').length = e.length.toNat ∧
    crc32_of (published_bytes s.pak s.disk e') = e.crc32

/-- The local header and the central record of entry `k` agree, with the length and the checksum
of `e`, and their numbers are those of the bytes they lead to. -/
def HeadersBound (df : Deflate) (s : Session) (k : ℕ) (e : Entry) : Prop :=
  ∃ e' x, s.pak.entries[k]? = some e' ∧ e'.filename = e.filename ∧ x.Truthful df ∧
    x.length = e.length ∧ x.crc32 = e.crc32 ∧
    local_item s.disk e'.pk3_lfh_offset.toNat = x ∧
    central_item s.disk (s.pak.pk3_cdr_offset.toNat + (zip_cdr (s.pak.entries.take k)).length) = x

/-- A commit that rebuilds and succeeds has copied every staged source. -/
theorem pakka_commit_copied {pak pak' : Archive} (h : (pakka_commit env disk pak).res = .ok pak')
    (hd : pak.dirty = true) (hr : pak.needs_rebuild = true) {k : ℕ} {e : Entry} {path : CStr}
    (hk : pak.entries[k]? = some e) (hpath : e.pending_source = some path) :
    SourceCopied env k path
      (if pakka_format_is_zip pak.format then e.pk3_compressed_size else e.length) e.crc32 := by
  unfold pakka_commit at h
  rw [if_neg (by simp [hd])] at h
  by_cases hw : ¬ pak.writable ∨ ¬ pak.fp
  · rw [if_pos hw] at h
    cases h
  rw [if_neg hw] at h
  by_cases hz : pakka_format_is_zip pak.format = true
  · rw [if_pos hz] at h ⊢
    unfold pakka_pk3_commit_impl at h
    rw [if_neg (by simp [hd])] at h
    split_ifs at h
    · cases h
    · exact pk3_commit_rebuild_copied h hk hpath
  · rw [if_neg hz] at h ⊢
    rw [if_neg (by simp [hr])] at h
    exact pakka_commit_rebuild_copied h hk hpath

/-- What is staged from a source on a PAK-class handle is bound. -/
theorem PakCommitted.source_bound {s' : Session} {disk' : Bytes} {geom : Geometry}
    (h : PakCommitted env disk s.pak disk' s'.pak geom) (hfile : s'.files .live = some disk')
    {k : ℕ} {e : Entry} {path : CStr} (hk : s.pak.entries[k]? = some e)
    (hpath : e.pending_source = some path) (hkept : SourceKept env k path e.length e.crc32) :
    SourceBound s' k e := by
  obtain ⟨e', hk', hname, hdisk, hitem⟩ := h.entry hk
  have hs' : s'.disk = disk' := by
    rw [Session.disk, hfile]
    rfl
  obtain ⟨hnone, hnone'⟩ : e'.pending_source = none ∧ e'.pending_data = none := by
    simpa [Entry.staged, Option.isSome_eq_false_iff] using hdisk
  have hstored := congrArg PakItem.stored hitem
  simp only [pak_item, pak_stored, hnone, hnone', hpath] at hstored
  refine ⟨e', hk', hname, congrArg PakItem.length hitem, ?_, ?_⟩ <;>
    rw [published_bytes, not_zip_of_geometry h.state.geometry, if_neg (by simp), hs', hstored]
  · exact hkept.1
  · exact hkept.2

/-- What is staged from a source on a ZIP handle is bound. -/
theorem ZipCommitted.source_bound {s' : Session} {disk' : Bytes} {n : ℕ}
    (h : ZipCommitted env disk s.pak disk' s'.pak) (hstate : ZipState n s.pak)
    (hfile : s'.files .live = some disk') {k : ℕ} {e : Entry} {path : CStr}
    (hk : s.pak.entries[k]? = some e) (hpath : e.pending_source = some path)
    (hkept : SourceKept env k path e.pk3_compressed_size e.crc32) : SourceBound s' k e := by
  obtain ⟨x, hx, hk', hrow⟩ := h.entry hk
  have hs' : s'.disk = disk' := by
    rw [Session.disk, hfile]
    rfl
  obtain ⟨hname, hitem⟩ := Prod.mk.inj hrow
  have hok := hstate.entries e (List.mem_of_getElem? hk)
  have hsize : e.pk3_compressed_size = e.length := hok.stored (hok.source (by rw [hpath]; rfl))
  have hbytes : published_bytes s'.pak s'.disk
      { x.1 with pending_source := none, pending_data := none } =
        (env.sources k path).take e.pk3_compressed_size.toNat := by
    have hstored := congrArg ZipItem.stored hitem
    simp only [zip_item, zip_stored, hpath] at hstored
    rw [published_bytes, if_pos h.state.zip, hs', h.file]
    exact (h.image.payload (List.mem_of_getElem? hx)).trans hstored
  refine ⟨_, hk', hname, congrArg ZipItem.length hitem, ?_, ?_⟩ <;> rw [hbytes]
  · rw [hkept.1, hsize]
  · exact hkept.2

/-- What a ZIP commit publishes of a staged entry is the truth about its bytes. -/
theorem ZipCommitted.headers_bound {s' : Session} {disk' : Bytes} {n : ℕ}
    (h : ZipCommitted env disk s.pak disk' s'.pak) (hstate : ZipState n s.pak)
    (hfile : s'.files .live = some disk') {k : ℕ} {e : Entry} (hk : s.pak.entries[k]? = some e)
    (hs : e.staged = true) (hrec : BufferRecorded df e)
    (hkept : ∀ path, e.pending_source = some path →
      SourceKept env k path e.pk3_compressed_size e.crc32) : HeadersBound df s' k e := by
  obtain ⟨x, hx, hk', hrow⟩ := h.entry hk
  have hs' : s'.disk = disk' := by
    rw [Session.disk, hfile]
    rfl
  have hok := hstate.entries e (List.mem_of_getElem? hk)
  obtain ⟨hname, hitem⟩ := Prod.mk.inj hrow
  have htake : zip_cdr (s'.pak.entries.take k) =
      zip_cdr (((zip_placed env disk s.pak).map Prod.fst).take k) := by
    rw [h.entries, drop_pending, ← List.map_take]
    exact List.flatMap_map ..
  refine ⟨_, zip_item (env.sources k) disk e, hk', hname, ?_, rfl, rfl, ?_, ?_⟩
  · cases hp : e.pending_source with
    | none =>
      obtain ⟨data, hd⟩ : ∃ data, e.pending_data = some data := by
        simpa [Entry.staged, hp, Option.isSome_iff_exists] using hs
      have hx := (hrec data hd).1
      simpa only [zip_item, zip_stored, hp, hd] using hx
    | some path =>
      obtain ⟨hlen, hcrc⟩ := hkept path hp
      have hmethod := hok.source (by rw [hp]; rfl)
      refine ⟨(env.sources k path).take e.pk3_compressed_size.toNat, ?_, ?_, ?_, hcrc.symm⟩
      · simp only [zip_item, zip_stored, hp, ZipItem.content, hmethod, if_true]
      · rw [hlen, hok.stored hmethod]
        rfl
      · simp only [zip_item, zip_stored, hp, hlen]
  · rw [hs', h.file, ← hitem]
    exact h.image.local_item (List.mem_of_getElem? hx)
  · rw [hs', h.file, h.cdr_offset, htake, ← hitem]
    exact h.image.central_item hx

/-! ## Adds

An add appends one entry with the numbers of what it saw.
-/

/-- The call adds an entry. -/
def Call.adds : Call → Bool
  | .add_file _ _ => true
  | .add_memory _ _ => true
  | _ => false

/-- **An add appends**, or changes nothing. -/
theorem Reached.add_appends (df : Deflate) (env : Env) (h : Reached s) (hc : c.adds = true) :
    ∃ new, (s.step df env c).2.pak.entries = s.pak.entries ++ new := by
  have hout := h.outcome df env c
  generalize (s.step df env c).2.pak = pak' at hout
  cases hout with
  | kept _ hpak => exact ⟨[], by rw [hpak, List.append_nil]⟩
  | @pak log geom hstate he =>
    have hadd : ∀ {p n st len log pak'}, PakAdded env s.pak p n st len log pak' →
        ∃ new, pak'.entries = s.pak.entries ++ new := by
      intro p n st len log pak' ha
      cases ha <;> exact ⟨_, hstate.linked.link_entries _⟩
    cases he with
    | add_file _ _ _ ha => exact hadd ha
    | add_memory _ ha => exact hadd ha
    | name hn => cases hn <;> cases hc
  | zip hstate he =>
    cases he with
    | add_file => exact ⟨_, hstate.linked.link_entries _⟩
    | add_memory => exact ⟨_, hstate.linked.link_entries _⟩
    | name hn => cases hn <;> cases hc
  | committed hcommit =>
    rw [hcommit] at hc
    cases hc
  | lost hcommit =>
    rw [hcommit] at hc
    cases hc

/-- **Adds append**, or change nothing. -/
theorem Reached.adds_append (df : Deflate) (calls : List (Env × Call)) {s : Session} (h : Reached s)
    (hc : ∀ p ∈ calls, p.2.adds = true) :
    ∃ new, (s.run df calls).pak.entries = s.pak.entries ++ new := by
  induction calls generalizing s with
  | nil => exact ⟨[], (List.append_nil _).symm⟩
  | cons p calls ih =>
    obtain ⟨new, hnew⟩ := h.add_appends df p.1 (hc p List.mem_cons_self)
    obtain ⟨more, hmore⟩ := ih (s := (s.step df p.1 p.2).2) h.step fun q hq =>
      hc q (List.mem_cons_of_mem _ hq)
    refine ⟨new ++ more, ?_⟩
    rw [← List.append_assoc, ← hnew]
    exact hmore

/-! ## Commits

The statement for a commit of any reached handle, and for one that fails.
-/

/-- A commit of a dirty PAK-class handle that reports success delivers a handle. -/
theorem PakLive.commit_res {format : Format} {geom : Geometry} {t : Prop}
    (h : PakLive format geom t s disk) (hd : s.pak.dirty = true)
    (hok : (s.step df env .commit).1 = .ok) :
    ∃ pak', (pakka_commit env disk s.pak).res = .ok pak' := by
  change (Step.of (pakka_commit env s.disk s.pak)).status = .ok at hok
  rw [h.disk_eq] at hok
  cases pak_commit_outcome env h.state h.live hd with
  | done hres => exact ⟨_, hres⟩
  | kept hres hst =>
    rw [Step.of_error hres] at hok
    exact absurd hok hst
  | lost hres hst =>
    rw [Step.of_error hres] at hok
    exact absurd hok hst

/-- A commit of a dirty ZIP handle that reports success delivers a handle. -/
theorem ZipLive.commit_res {format : Format} (h : ZipLive format s disk)
    (hd : s.pak.dirty = true) (hok : (s.step df env .commit).1 = .ok) :
    ∃ pak', (pakka_commit env disk s.pak).res = .ok pak' := by
  change (Step.of (pakka_commit env s.disk s.pak)).status = .ok at hok
  rw [h.disk_eq] at hok
  cases zip_commit_outcome env h.state h.named hd with
  | kept hres hst =>
    rw [Step.of_error hres] at hok
    exact absurd hok hst
  | published _ _ _ _ hres =>
    rcases hres with hres | ⟨st, p, hres, hst, -⟩
    · exact ⟨_, hres⟩
    · rw [Step.of_error hres] at hok
      exact absurd hok hst

/-- **A commit that succeeds** publishes what was recorded. -/
theorem Reached.commit_bound (h : Reached s) (hrec : Recorded df s.pak)
    (hok : (s.step df env .commit).1 = .ok) {k : ℕ} {e : Entry}
    (hk : s.pak.entries[k]? = some e) (hs : e.staged = true) :
    (e.pending_source.isSome = true → SourceBound (s.step df env .commit).2 k e) ∧
      (pakka_format_is_zip s.pak.format = true → HeadersBound df (s.step df env .commit).2 k e) := by
  have hmem := List.mem_of_getElem? hk
  have hd := hrec.dirty e hmem hs
  cases h with
  | lost hfp =>
    change (Step.of (pakka_commit env s.disk s.pak)).status = .ok at hok
    rw [lost_commit_fails env s.disk hfp hd] at hok
    cases hok
  | @pak format geom t disk hl =>
    have hz := not_zip_of_geometry hl.state.geometry
    obtain ⟨p, hres⟩ := hl.commit_res hd hok
    obtain ⟨disk', hfile, hcom⟩ := (hl.commit df env).2 hok hd
    refine ⟨fun hsource => ?_, fun hx => ?_⟩
    · obtain ⟨path, hpath⟩ := Option.isSome_iff_exists.mp hsource
      have hkept := (pakka_commit_copied hres hd (hl.state.staged e hmem hs) hk hpath).kept
      rw [if_neg (by simp [hz])] at hkept
      exact hcom.source_bound hfile hk hpath hkept
    · rw [hz] at hx
      cases hx
  -- here the headers carry the numbers too, also for what was staged in a buffer
  | @zip format disk hl =>
    obtain ⟨p, hres⟩ := hl.commit_res hd hok
    have hkept : ∀ path, e.pending_source = some path →
        SourceKept env k path e.pk3_compressed_size e.crc32 := by
      intro path hpath
      have := (pakka_commit_copied hres hd (hl.state.rebuild hd) hk hpath).kept
      rwa [if_pos hl.state.zip] at this
    have hstep : s.step df env .commit = (.ok, (s.step df env .commit).2) := Prod.ext hok rfl
    rcases hl.commit_cases hstep with ⟨hx, -⟩ | ⟨disk', hfile, hcom⟩
    · rw [hd] at hx
      cases hx
    · refine ⟨fun hsource => ?_, fun hz => ?_⟩
      · obtain ⟨path, hpath⟩ := Option.isSome_iff_exists.mp hsource
        exact hcom.source_bound hl.state hfile hk hpath (hkept path hpath)
      · have hfp : s.pak.fp = true := by
          by_contra hx
          rcases lost_commit env disk (by simpa using hx) with ⟨-, hc⟩ | ⟨hc, -⟩
          · rw [hd] at hc
            cases hc
          · rw [hc] at hres
            cases hres
        exact hcom.headers_bound hl.state hfile hk hs (hrec.buffers hfp hz e hmem) hkept

/-- A rebuild that cannot lose its file leaves the live one alone when it fails. -/
theorem RebuildOutcome.unchanged {New : Bytes → Archive → Prop} {Lost : Archive → Prop}
    {pak : Archive} {x : HandleOp Archive} (h : RebuildOutcome pak New Lost x)
    (hlost : ∀ p, ¬ Lost p) (hne : (Step.of x).status ≠ .ok) (fs : Files FileId) :
    FileOp.run fs (Step.of x).log .live = fs .live := by
  have hlog : (Step.of x).log = x.log := by
    unfold Step.of
    split <;> rfl
  rw [hlog]
  cases h with
  | kept _ _ hscr => exact FileOp.run_of_not_touches (hscr.not_touches (by simp))
  | published _ _ _ _ hres =>
    rcases hres with hok | ⟨_, p, _, _, hl⟩
    · rw [Step.of_ok hok] at hne
      exact absurd rfl hne
    · exact absurd hl (hlost p)

/-- **A commit that fails**, of a ZIP handle or of one that is open for atomic commits, leaves the
archive file alone. -/
theorem Reached.commit_failed (h : Reached s) (hne : (s.step df env .commit).1 ≠ .ok)
    (hkind : pakka_format_is_zip s.pak.format = true ∨ s.pak.atomic_commit = true)
    (hre : env.faults.fails .reopen = false) :
    (s.step df env .commit).2.files .live = s.files .live := by
  have hd : s.pak.dirty = true := by
    by_contra hx
    apply hne
    change (Step.of (pakka_commit env s.disk s.pak)).status = .ok
    rw [pakka_commit_clean (by simpa using hx)]
    rfl
  change FileOp.run s.files (Step.of (pakka_commit env s.disk s.pak)).log .live = s.files .live
  change (Step.of (pakka_commit env s.disk s.pak)).status ≠ .ok at hne
  cases h with
  | lost hfp =>
    rw [lost_commit_fails env s.disk hfp hd]
    rfl
  | @pak format geom t disk hl =>
    have hstate := hl.disk_state
    cases hw : s.pak.writable with
    | false =>
      have hc : pakka_commit env s.disk s.pak = fail (.invalid_argument, s.pak) := by
        unfold pakka_commit
        rw [if_neg (by simp [hd]), if_pos (Or.inl (by simp [hw]))]
      rw [hc]
      rfl
    | true =>
      have hreb : commit_rebuilds s.pak := ⟨hw, hd, by
        rcases hkind with hz | ha
        · exact Or.inl hz
        · exact Or.inr (Or.inr ha)⟩
      refine (pak_commit_rebuild_outcome env hstate hl.live hreb).unchanged (fun p hp => ?_) hne _
      rw [hre] at hp
      cases hp.1
  | zip hl =>
    have hstate := hl.disk_state
    refine (zip_commit_outcome env hstate hl.named hd).unchanged (fun p hp => ?_) hne _
    rw [hre] at hp
    cases hp.1

/-- **Published content is bound to what was added.** Whatever calls came before, whatever adds
follow, and whatever each pass of each of them and of the commit finds at the source paths. If the
commit succeeds, every entry that was staged from a source before these adds is published with the
length and the checksum recorded by then, and on a ZIP archive the headers of every entry that was
staged by then give the numbers of the bytes published. If the commit fails, and not because the
new file cannot be opened, the archive file is as it was. -/
theorem published_content_bound (df : Deflate) (hdf : df.Correct) (s₀ : Session)
    (before adds : List (Env × Call)) (env : Env) (hstart : Session.Started s₀)
    (hadds : ∀ p ∈ adds, p.2.adds = true) :
    let s₁ := s₀.run df before
    let s := s₁.run df adds
    let r := s.step df env .commit
    (r.1 = .ok → ∀ k e, s₁.pak.entries[k]? = some e → e.staged = true →
      (e.pending_source.isSome = true → SourceBound r.2 k e) ∧
        (pakka_format_is_zip s.pak.format = true → HeadersBound df r.2 k e)) ∧
      (r.1 ≠ .ok → pakka_format_is_zip s.pak.format = true ∨ s.pak.atomic_commit = true →
        env.faults.fails .reopen = false → r.2.files .live = s.files .live) := by
  intro s₁ s r
  have hr₁ : Reached s₁ := hstart.reached.run before
  have hr : Reached s := hr₁.run adds
  have hrec : Recorded df s.pak := by
    refine Recorded.run hdf adds ?_ hr₁
    exact Recorded.run hdf before (.of_on_disk hstart.on_disk) hstart.reached
  refine ⟨fun hok k e hk hs => ?_, hr.commit_failed⟩
  obtain ⟨new, hnew⟩ := hr₁.adds_append df adds hadds
  have hk' : s.pak.entries[k]? = some e := by
    rw [hnew, List.getElem?_append_left (List.getElem?_eq_some_iff.mp hk).1]
    exact hk
  exact hr.commit_bound hrec hok hk' hs

/-- Adding a source file. -/
def add_source : Call := .add_file ⟨ascii "p", by decide⟩ lump_name

/-- A source that is as it was is published, and one that changed is not. -/
theorem published_content_bound_source :
    let s := created_pk3.run .storing [(Env.quiet fun _ => [1], add_source)]
    (∃ e, s.pak.entries[0]? = some e ∧
      SourceBound (s.step .storing (Env.quiet fun _ => [1]) .commit).2 0 e ∧
      HeadersBound .storing (s.step .storing (Env.quiet fun _ => [1]) .commit).2 0 e) ∧
      (s.step .storing (Env.quiet fun _ => [2]) .commit).2.files .live = s.files .live := by
  intro s
  have h := fun env => published_content_bound .storing Deflate.storing_correct created_pk3
    [(Env.quiet fun _ => [1], add_source)] [] env created_pk3_started (fun p hp => by cases hp)
  constructor
  · obtain ⟨e, he⟩ : ∃ e, s.pak.entries[0]? = some e :=
      Option.isSome_iff_exists.mp (by decide +kernel)
    have hsource : (s.pak.entries[0]?.map Entry.pending_source) =
        some (some ⟨ascii "p", by decide⟩) := by
      decide +kernel
    rw [he] at hsource
    have hsome : e.pending_source.isSome = true := by
      rw [Option.some.inj hsource]
      rfl
    obtain ⟨h1, h2⟩ := (h (Env.quiet fun _ => [1])).1 (by decide +kernel) 0 e he
      (by rw [Entry.staged, hsome]; rfl)
    exact ⟨e, he, h1 hsome, h2 (by decide +kernel)⟩
  · exact (h (Env.quiet fun _ => [2])).2 (by decide +kernel) (Or.inl (by decide +kernel)) rfl

end Pakka
