/-
What a commit that succeeds leaves of a ZIP archive.

The rebuild loop is followed entry by entry: each local header and its payload go out at the
running position, and the entry is told where (`zip_place`). With the directory and the end
record behind them the scratch file is `zip_file` of what was placed. `ZipCommitted` is the
statement every successful commit ends in.

The offsets are 32-bit words that the loop adds to; the checks in the loop are what keeps them equal
to the positions they stand for. `zip_place` is the list of entries with their new offsets and the
bytes behind each header.
-/
import Pakka.ZipImage
import Pakka.PakFaults

set_option autoImplicit false

namespace Pakka

open ByteImage LittleEndian Logged

/-! ## Payloads

From the old file, a source or a buffer.
-/

/-- **A payload that was copied** is the one stored for the entry. -/
theorem pk3_copy_payload_ok {env : Env} {disk : Bytes} {i pos n : ℕ} {e : Entry} {bs : Bytes}
    (he : ZipEntryOk n e) (h : (pk3_copy_payload env disk i pos e).res = .ok bs) :
    bs = zip_stored (env.sources i) disk e ∧ bs.length = e.pk3_compressed_size.toNat ∧
      WritesAt .scratch pos bs (pk3_copy_payload env disk i pos e).log := by
  unfold pk3_copy_payload zip_stored at *
  cases hs : e.pending_source with
  | some path =>
    rw [hs] at h
    simp only at h ⊢
    obtain ⟨hbs, hlen, -, hlog⟩ := copy_pending_source_ok h
    exact ⟨hbs, hlen, hlog⟩
  | none =>
    cases hd : e.pending_data with
    | some data =>
      rw [hs, hd] at h
      simp only at h ⊢
      obtain ⟨hbs, hlog⟩ := copy_pending_data_ok h
      exact ⟨hbs, by rw [hbs, he.data data hd], hlog⟩
    | none =>
      rw [hs, hd] at h
      simp only [pk3_copy_extent, bind_res_ok, call_res_ok, exists_const] at h ⊢
      obtain ⟨hseek, h⟩ := h
      obtain ⟨hread, hlog⟩ := copyChunks_ok (by decide) _ h
      obtain ⟨hbs, hlen⟩ := readExact_eq_some.mp hread
      rw [bind_log_of_ok ((call_res_ok _ _ _ ()).mpr hseek), call_log, List.nil_append]
      exact ⟨hbs, hlen, hlog⟩

/-! ## The loop

The running position is the length of what is out.
-/

/-- The entries as the loop places them from `cur_offset` on, each with the bytes stored for it
at the time of its turn `i`. -/
def zip_place (sources : ℕ → CStr → Bytes) (disk : Bytes) :
    ℕ → UInt32 → List Entry → List (Entry × Bytes)
  | _, _, [] => []
  | i, cur_offset, e :: es =>
    let e' := pk3_place_entry e cur_offset
    (e', zip_stored (sources i) disk e) ::
      zip_place sources disk (i + 1) (e'.pk3_payload_offset + e'.pk3_compressed_size) es

/-- Placing changes offsets only. -/
theorem zip_place_forall₂ (sources : ℕ → CStr → Bytes) (disk : Bytes) (es : List Entry) (i : ℕ)
    (cur_offset : UInt32) :
    List.Forall₂ (fun e (x : Entry × Bytes) => ∃ cur, x.1 = pk3_place_entry e cur) es
      (zip_place sources disk i cur_offset es) := by
  induction es generalizing i cur_offset with
  | nil => exact List.Forall₂.nil
  | cons e es ih => exact List.Forall₂.cons ⟨cur_offset, rfl⟩ (ih _ _)

@[simp] theorem length_zip_place (sources : ℕ → CStr → Bytes) (disk : Bytes) (es : List Entry)
    (i : ℕ) (cur_offset : UInt32) :
    (zip_place sources disk i cur_offset es).length = es.length :=
  (zip_place_forall₂ sources disk es i cur_offset).length_eq.symm

/-- Whatever does not look at offsets is the same of the placed entries. -/
theorem zip_place_map {α : Type} (f : Entry → α) (hf : ∀ e cur, f (pk3_place_entry e cur) = f e)
    (sources : ℕ → CStr → Bytes) (disk : Bytes) (es : List Entry) (i : ℕ) (cur_offset : UInt32) :
    (zip_place sources disk i cur_offset es).map (fun x => f x.1) = es.map f := by
  induction es generalizing i cur_offset with
  | nil => rfl
  | cons e es ih =>
    rw [zip_place, List.map_cons, List.map_cons, hf, ih]

/-- What holds of every entry and does not look at offsets holds of every placed entry. -/
theorem zip_place_forall {P : Entry → Prop} {es : List Entry} (h : ∀ e ∈ es, P e)
    (hp : ∀ e cur, P e → P (pk3_place_entry e cur)) {sources : ℕ → CStr → Bytes} {disk : Bytes}
    {i : ℕ} {cur_offset : UInt32} :
    ∀ x ∈ zip_place sources disk i cur_offset es, P x.1 := by
  induction es generalizing i cur_offset with
  | nil =>
    intro x hx
    cases hx
  | cons e es ih =>
    intro x hx
    rcases List.mem_cons.mp hx with rfl | hx
    · exact hp e _ (h e List.mem_cons_self)
    · exact ih (fun y hy => h y (List.mem_cons_of_mem _ hy)) x hx

/-- Where one entry is placed when it fits. -/
theorem pk3_place_entry_offsets {e : Entry} {cur_offset : UInt32}
    (hname : e.filename.strlen < PAKKA_ENTRY_NAME_SIZE)
    (hfits : ¬ cur_offset.toNat + (PK3_LFH_SIZE + (pk3_name_len e).toNat +
      e.pk3_compressed_size.toNat) > 0xFFFFFFFF) :
    (pk3_place_entry e cur_offset).pk3_payload_offset.toNat =
        cur_offset.toNat + (pk3_lfh_bytes e).length ∧
      ((pk3_place_entry e cur_offset).pk3_payload_offset + e.pk3_compressed_size).toNat =
        cur_offset.toNat + (pk3_lfh_bytes e).length + e.pk3_compressed_size.toNat := by
  have hlen : (pk3_lfh_bytes e).length = 30 + (pk3_name_len e).toNat := by
    rw [length_pk3_lfh_bytes hname, pk3_name_len_toNat hname]
  have h30 : (UInt32.ofNat PK3_LFH_SIZE).toNat = 30 := rfl
  have h30' : PK3_LFH_SIZE = 30 := rfl
  have hword : (pk3_name_len e).toUInt32.toNat = (pk3_name_len e).toNat :=
    UInt16.toNat_toUInt32 _
  have hoff : (pk3_place_entry e cur_offset).pk3_payload_offset =
      cur_offset + UInt32.ofNat PK3_LFH_SIZE + (pk3_name_len e).toUInt32 := rfl
  rw [hoff, hlen]
  constructor
  · rw [UInt32.toNat_add, UInt32.toNat_add, h30, hword]
    omega
  · rw [UInt32.toNat_add, UInt32.toNat_add, UInt32.toNat_add, h30, hword]
    omega

/-- **The loop.** It writes headers and payloads one behind the other and places the entries
accordingly. -/
theorem pk3_rebuild_loop_ok {env : Env} {disk : Bytes} {n : ℕ} (es : List Entry) {i pos : ℕ}
    {cur_offset : UInt32} {done : List Entry} {r : List Entry × UInt32 × ℕ}
    (hes : ∀ e ∈ es, ZipEntryOk n e) (hcur : cur_offset.toNat = pos)
    (h : (pk3_rebuild_loop env disk i pos cur_offset done es).res = .ok r) :
    let ys := zip_place env.sources disk i cur_offset es
    r.1 = done ++ ys.map Prod.fst ∧ r.2.1.toNat = pos + (zip_locals ys).length ∧
      r.2.2 = pos + (zip_locals ys).length ∧ ZipPlaced pos ys ∧
      WritesAt .scratch pos (zip_locals ys)
        (pk3_rebuild_loop env disk i pos cur_offset done es).log := by
  induction es generalizing i pos cur_offset done with
  | nil =>
    simp only [pk3_rebuild_loop, pure_res, Except.ok.injEq] at h
    obtain rfl := h
    exact ⟨(List.append_nil _).symm, hcur, rfl, ZipPlaced.nil _, WritesAt.nil _ _⟩
  | cons e es ih =>
    have he := hes e List.mem_cons_self
    rw [pk3_rebuild_loop] at h ⊢
    by_cases hbig : cur_offset.toNat + (PK3_LFH_SIZE + (pk3_name_len e).toNat +
        e.pk3_compressed_size.toNat) > 0xFFFFFFFF
    · rw [if_pos hbig] at h
      cases h
    rw [if_neg hbig] at h ⊢
    simp only [bind_res_ok, writeAt_res_ok, exists_const, mapError_res_ok] at h
    obtain ⟨hwr, bs, hbs, h⟩ := h
    obtain ⟨hst, hlen, hcopy⟩ := pk3_copy_payload_ok he hbs
    obtain ⟨hpay, hnext⟩ := pk3_place_entry_offsets he.name_fits hbig
    have hlfh : pk3_lfh_bytes (pk3_place_entry e cur_offset) = pk3_lfh_bytes e := rfl
    have hcs : (pk3_place_entry e cur_offset).pk3_compressed_size = e.pk3_compressed_size := rfl
    -- the running offset stays the number of bytes that are out
    have hnext' : ((pk3_place_entry e cur_offset).pk3_payload_offset +
        (pk3_place_entry e cur_offset).pk3_compressed_size).toNat =
        pos + (pk3_lfh_bytes e).length + bs.length := by
      rw [hcs, hnext, hcur, hlen]
    obtain ⟨h1, h2, h3, h4, h5⟩ := ih (fun x hx => hes x (List.mem_cons_of_mem _ hx)) hnext' h
    intro ys
    have hys : ys = (pk3_place_entry e cur_offset, bs) :: zip_place env.sources disk (i + 1)
        ((pk3_place_entry e cur_offset).pk3_payload_offset +
          (pk3_place_entry e cur_offset).pk3_compressed_size) es := by
      rw [hst]
      rfl
    have hlocals : zip_locals ys = pk3_lfh_bytes e ++ bs ++ zip_locals (zip_place env.sources disk
        (i + 1) ((pk3_place_entry e cur_offset).pk3_payload_offset +
          (pk3_place_entry e cur_offset).pk3_compressed_size) es) := by
      rw [hys]
      rfl
    rw [hlocals, hys]
    refine ⟨?_, ?_, ?_, ?_, ?_⟩
    · rw [h1, List.append_assoc]
      rfl
    · rw [h2, List.length_append, List.length_append]
      omega
    · rw [h3, List.length_append, List.length_append]
      omega
    · refine ZipPlaced.cons hcur ?_ rfl (by rw [hcs, hlen]) h4
      rw [hpay, hcur, hlfh]
    · rw [bind_log_of_ok ((writeAt_res_ok _ _ _ _ _ _ ()).mpr hwr), writeAt_log_of_ok hwr,
        bind_log_of_ok (mapError_res_ok.mpr hbs), mapError_log]
      have htail := hcopy.append h5 rfl
      have hall := (WritesAt.single FileId.scratch pos (pk3_lfh_bytes e)).append htail rfl
      rw [List.append_assoc]
      exact hall

/-! ## The directory

The limits on it, and the records in list order.
-/

/-- The check adds up the directory. -/
theorem pk3_cdr_fits_iff {es : List Entry} {total : ℕ} (htotal : es = [] → total ≤ UINT32_MAX)
    (h : ∀ e ∈ es, e.filename.strlen < PAKKA_ENTRY_NAME_SIZE) :
    pk3_cdr_fits total es = true ↔ total + (zip_cdr es).length ≤ UINT32_MAX := by
  induction es generalizing total with
  | nil => simpa [pk3_cdr_fits, zip_cdr] using htotal rfl
  | cons e es ih =>
    rw [pk3_cdr_fits, zip_cdr_cons, List.length_append,
      length_pk3_cdr_bytes (h e List.mem_cons_self)]
    split_ifs with hbig
    · constructor
      · intro hx
        cases hx
      · intro hx
        omega
    · rw [ih (fun _ => by omega) fun x hx => h x (List.mem_cons_of_mem _ hx)]
      omega

/-- **The directory loop.** -/
theorem pk3_write_cdr_ok {env : Env} {f : FileId} {pak : Archive} (es : List Entry) {i pos : ℕ}
    {cdr_size entry_count : UInt32} {r : UInt32 × UInt32 × ℕ}
    (hes : ∀ e ∈ es, e.filename.strlen < PAKKA_ENTRY_NAME_SIZE)
    (h : (pk3_write_cdr env f pak i pos cdr_size entry_count es).res = .ok r) :
    r.1 = cdr_size + UInt32.ofNat (zip_cdr es).length ∧
      r.2.1 = entry_count + UInt32.ofNat es.length ∧ r.2.2 = pos + (zip_cdr es).length ∧
      WritesAt f pos (zip_cdr es) (pk3_write_cdr env f pak i pos cdr_size entry_count es).log := by
  induction es generalizing i pos cdr_size entry_count with
  | nil =>
    simp only [pk3_write_cdr, pure_res, Except.ok.injEq] at h
    obtain rfl := h
    refine ⟨?_, ?_, rfl, WritesAt.nil _ _⟩
    · exact (UInt32.add_zero _).symm
    · exact (UInt32.add_zero _).symm
  | cons e es ih =>
    have hname := hes e List.mem_cons_self
    rw [pk3_write_cdr] at h ⊢
    simp only [bind_res_ok, writeAt_res_ok, exists_const] at h
    obtain ⟨hwr, h⟩ := h
    obtain ⟨h1, h2, h3, h4⟩ := ih (fun x hx => hes x (List.mem_cons_of_mem _ hx)) h
    have hword : UInt32.ofNat PK3_CDR_SIZE + (pk3_name_len e).toUInt32 =
        UInt32.ofNat (pk3_cdr_bytes e).length := by
      rw [length_pk3_cdr_bytes hname, UInt32.ofNat_add, ← pk3_name_len_toNat hname]
      rw [← UInt16.toNat_toUInt32, UInt32.ofNat_toNat]
    refine ⟨?_, ?_, ?_, ?_⟩
    · rw [h1, hword, zip_cdr_cons, List.length_append, UInt32.ofNat_add, UInt32.add_assoc]
    · rw [h2, List.length_cons, Nat.add_comm, UInt32.ofNat_add, ← UInt32.add_assoc]
      rfl
    · rw [h3, zip_cdr_cons, List.length_append, Nat.add_assoc]
    · rw [bind_log_of_ok ((writeAt_res_ok _ _ _ _ _ _ ()).mpr hwr), writeAt_log_of_ok hwr,
        zip_cdr_cons]
      exact (WritesAt.single f pos (pk3_cdr_bytes e)).append h4 rfl

/-- **Directory and end record.** -/
theorem pk3_write_directory_ok {env : Env} {f : FileId} {pak : Archive} {pos : ℕ} {r : UInt32}
    (hes : ∀ e ∈ pak.entries, e.filename.strlen < PAKKA_ENTRY_NAME_SIZE)
    (hempty : pak.entries = [] → pak.pk3_cdr_offset.toNat + PK3_EOCD_SIZE ≤ UINT32_MAX)
    (h : (pk3_write_directory env f pak pos).res = .ok r) :
    pak.pk3_cdr_offset.toNat + PK3_EOCD_SIZE + (zip_cdr pak.entries).length ≤ UINT32_MAX ∧
      r = UInt32.ofNat (zip_cdr pak.entries).length ∧
      WritesAt f pos (zip_cdr pak.entries ++ pk3_build_eocd pak.pk3_cdr_offset
        (UInt32.ofNat (zip_cdr pak.entries).length) (UInt16.ofNat pak.entries.length))
        (pk3_write_directory env f pak pos).log := by
  unfold pk3_write_directory at h ⊢
  by_cases hfits : pk3_cdr_fits (pak.pk3_cdr_offset.toNat + PK3_EOCD_SIZE) pak.entries = true
  · rw [if_neg (by simp [hfits])] at h ⊢
    simp only [bind_res_ok, writeAt_res_ok, call_res_ok, exists_const, pure_res,
      Except.ok.injEq] at h
    obtain ⟨r', hcdr, hwr, hflush, rfl⟩ := h
    obtain ⟨h1, h2, h3, h4⟩ := pk3_write_cdr_ok pak.entries hes hcdr
    rw [UInt32.zero_add] at h1 h2
    have hcount : UInt16.ofNat r'.2.1.toNat = UInt16.ofNat pak.entries.length := by
      rw [h2, ← UInt16.toNat_inj, UInt16.toNat_ofNat', UInt16.toNat_ofNat', UInt32.toNat_ofNat']
      omega
    refine ⟨(pk3_cdr_fits_iff hempty hes).mp hfits, h1, ?_⟩
    rw [bind_log_of_ok hcdr, bind_log_of_ok ((writeAt_res_ok _ _ _ _ _ _ ()).mpr hwr),
      writeAt_log_of_ok hwr, bind_log_of_ok ((call_res_ok _ _ _ ()).mpr hflush), call_log,
      pure_log, List.append_nil, List.append_nil, h1, hcount, h3]
    exact h4.append (WritesAt.single _ _ _) rfl
  · rw [if_pos hfits] at h
    cases h

/-! ## The scratch file

Complete, before the rename.
-/

/-- What the rebuild places. -/
def zip_placed (env : Env) (disk : Bytes) (pak : Archive) : List (Entry × Bytes) :=
  zip_place env.sources disk 0 0 pak.entries

/-- **The scratch file** of a rebuild. -/
theorem pk3_rebuild_scratch_ok {env : Env} {disk : Bytes} {pak : Archive} {n : ℕ}
    {r : Archive × UInt32} (hes : ∀ e ∈ pak.entries, ZipEntryOk n e)
    (h : (pk3_rebuild_scratch env disk pak).res = .ok r) :
    let xs := zip_placed env disk pak
    r.1 = { pak with entries := xs.map Prod.fst, pk3_cdr_offset := (zip_eocd xs).cdr_offset } ∧
      r.2 = (zip_eocd xs).cdr_size ∧ ZipPlaced 0 xs ∧
      (zip_locals xs).length + PK3_EOCD_SIZE + (zip_cdr (xs.map Prod.fst)).length ≤ UINT32_MAX ∧
      WritesAt .scratch 0 (zip_file xs) (pk3_rebuild_scratch env disk pak).log := by
  intro xs
  simp only [pk3_rebuild_scratch, bind_res_ok, mapError_res_ok, call_res_ok, exists_const,
    pure_res, Except.ok.injEq] at h
  obtain ⟨r', hloop, cdr_size, hdir, hclose, rfl⟩ := h
  have hzero : (0 : UInt32).toNat = 0 := rfl
  obtain ⟨h1, h2, h3, h4, h5⟩ := pk3_rebuild_loop_ok pak.entries hes hzero hloop
  rw [List.nil_append] at h1
  rw [Nat.zero_add] at h2 h3
  change r'.1 = xs.map Prod.fst at h1
  change r'.2.1.toNat = (zip_locals xs).length at h2
  change r'.2.2 = (zip_locals xs).length at h3
  -- the directory starts where the last payload ends
  have hoff : r'.2.1 = (zip_eocd xs).cdr_offset := by
    rw [← UInt32.ofNat_toNat (x := r'.2.1), h2]
    rfl
  have hnames : ∀ e ∈ r'.1, e.filename.strlen < PAKKA_ENTRY_NAME_SIZE := by
    intro e he
    rw [h1] at he
    obtain ⟨x, hx, rfl⟩ := List.mem_map.mp he
    exact zip_place_forall (fun e he => (hes e he).name_fits) (fun _ _ hp => hp) x hx
  have hempty : r'.1 = [] → r'.2.1.toNat + PK3_EOCD_SIZE ≤ UINT32_MAX := by
    intro hnil
    have hxs : xs = [] := List.map_eq_nil_iff.mp (h1 ▸ hnil)
    rw [h2, hxs]
    decide
  obtain ⟨h6, h7, h8⟩ := pk3_write_directory_ok (by exact hnames) (by exact hempty) hdir
  simp only at h6 h7 h8
  rw [h1, h2] at h6
  rw [h1] at h7
  have hlen : (xs.map Prod.fst).length = xs.length := List.length_map ..
  refine ⟨?_, h7, h4, h6, ?_⟩
  · rw [h1, hoff]
  · unfold pk3_rebuild_scratch
    rw [bind_log_of_ok (mapError_res_ok.mpr hloop), mapError_log, bind_log_of_ok hdir,
      bind_log_of_ok ((call_res_ok _ _ _ ()).mpr hclose), call_log, pure_log, List.append_nil,
      List.append_nil]
    rw [h1, hoff, hlen] at h8
    have hall := h5.append h8 (by rw [h3, Nat.zero_add]; rfl)
    rw [h1, hoff]
    exact hall

/-! ## Rows

What the new handle lists is what the old one listed.
-/

/-- What is written of a placed entry: its name and its item. -/
def zip_row (x : Entry × Bytes) : CStr × ZipItem :=
  (x.1.filename,
    { method := x.1.pk3_method
      crc32 := x.1.crc32
      compressed_size := x.1.pk3_compressed_size
      length := x.1.length
      stored := x.2 })

/-- **The rows of a rebuild are the listing it started from.** -/
theorem zip_place_rows (sources : ℕ → CStr → Bytes) (disk : Bytes) (es : List Entry) (i : ℕ)
    (cur_offset : UInt32) :
    (zip_place sources disk i cur_offset es).map zip_row =
      es.mapIdx fun k e => (e.filename, zip_item (sources (i + k)) disk e) := by
  induction es generalizing i cur_offset with
  | nil => rfl
  | cons e es ih =>
    rw [zip_place, List.map_cons, ih, List.mapIdx_cons, Nat.add_zero]
    congr 1
    refine List.mapIdx_eq_mapIdx_iff.mpr ?_
    intro k hk
    rw [Nat.add_assoc, Nat.add_comm 1]

theorem zip_placed_rows (env : Env) (disk : Bytes) (pak : Archive) :
    (zip_placed env disk pak).map zip_row = zip_listing env.sources disk pak.entries := by
  rw [zip_placed, zip_place_rows]
  simp only [Nat.zero_add]
  rfl

variable {xs : List (Entry × Bytes)}

/-- Entries on disk have one listing, whatever the sources hold. -/
theorem zip_listing_on_disk {disk : Bytes} {es : List Entry} (h : ∀ e ∈ es, e.staged = false)
    (sources sources' : ℕ → CStr → Bytes) :
    zip_listing sources disk es = zip_listing sources' disk es := by
  refine List.ext_getElem? fun k => ?_
  simp only [zip_listing, List.getElem?_mapIdx]
  cases he : es[k]? with
  | none => rfl
  | some e =>
    have hnone : e.pending_source = none ∧ e.pending_data = none := by
      simpa [Entry.staged, Option.isSome_eq_false_iff] using h e (List.mem_of_getElem? he)
    simp only [Option.map_some, zip_item, zip_stored, hnone.1, hnone.2]

/-- **A written file has its rows**, under the handle that wrote it. -/
theorem ZipImage.listing_committed (h : ZipImage xs) (sources : ℕ → CStr → Bytes) :
    zip_listing sources (zip_file xs) (drop_pending (xs.map Prod.fst)) = xs.map zip_row := by
  have hrow : ∀ x ∈ xs, ∀ s, zip_item s (zip_file xs)
      { x.1 with pending_source := none, pending_data := none } = (zip_row x).2 := by
    intro x hx s
    have hpayload := h.payload hx
    simp only [zip_item, zip_stored, zip_row, hpayload]
  refine List.ext_getElem? fun k => ?_
  simp only [zip_listing, drop_pending, List.getElem?_mapIdx, List.getElem?_map]
  cases hx : xs[k]? with
  | none => rfl
  | some x =>
    simp only [Option.map_some, hrow x (List.mem_of_getElem? hx)]
    rfl

/-- **A written file has its rows**, under a handle that was opened on it, the names as they are
read. -/
theorem ZipImage.listing_loaded (h : ZipImage xs) (sources : ℕ → CStr → Bytes) :
    zip_listing sources (zip_file xs) (xs.map fun x => zip_loaded x.1) =
      xs.map fun x => (zip_name_read x.1.filename, (zip_row x).2) := by
  have hrow : ∀ x ∈ xs, ∀ s, zip_item s (zip_file xs) (zip_loaded x.1) = (zip_row x).2 := by
    intro x hx s
    have hpayload := h.payload hx
    exact congrArg (fun p => ({ (zip_row x).2 with stored := p } : ZipItem)) hpayload
  refine List.ext_getElem? fun k => ?_
  simp only [zip_listing, List.getElem?_mapIdx, List.getElem?_map]
  cases hx : xs[k]? with
  | none => rfl
  | some x =>
    simp only [Option.map_some, hrow x (List.mem_of_getElem? hx)]
    rfl

/-! ## The new archive

The statement that a commit ends in.
-/

/-- What the rebuild places makes an image. -/
theorem zip_placed_image {env : Env} {disk : Bytes} {pak : Archive} {n : ℕ}
    (hes : ∀ e ∈ pak.entries, ZipEntryOk n e) (hnamed : ∀ e ∈ pak.entries, ZipNamed e)
    (hplaced : ZipPlaced 0 (zip_placed env disk pak))
    (hsize : (zip_locals (zip_placed env disk pak)).length + PK3_EOCD_SIZE +
      (zip_cdr ((zip_placed env disk pak).map Prod.fst)).length ≤ UINT32_MAX)
    (hcount : pak.entries.length ≤ 0xFFFF) : ZipImage (zip_placed env disk pak) := by
  refine ⟨hplaced, ?_, ?_, ?_, hsize, ?_⟩
  · exact zip_place_forall hnamed fun e cur h => ⟨h.name_fits, h.nonempty, h.no_control, h.no_marker⟩
  · exact zip_place_forall (fun e he => (hes e he).method) fun _ _ h => h
  · exact zip_place_forall (fun e he => (hes e he).stored) fun _ _ h => h
  · rw [zip_placed, length_zip_place]
    exact hcount

/-- What a ZIP commit that succeeds leaves: the new file is `zip_file` of what was placed, the
handle lists it, and the listing is the one of before. -/
structure ZipCommitted (env : Env) (disk : Bytes) (pak : Archive) (disk' : Bytes)
    (pak' : Archive) : Prop where
  file : disk' = zip_file (zip_placed env disk pak)
  image : ZipImage (zip_placed env disk pak)
  entries : pak'.entries = drop_pending ((zip_placed env disk pak).map Prod.fst)
  state : ZipState disk'.length pak'
  named : ∀ e ∈ pak'.entries, ZipNamed e
  live : pak'.fp = true
  clean : pak'.dirty = false
  format : pak'.format = pak.format
  is_new : pak'.is_new = pak.is_new
  compression : pak'.pk3_compression = pak.pk3_compression
  cdr_offset : pak'.pk3_cdr_offset = (zip_eocd (zip_placed env disk pak)).cdr_offset

/-- The listing of a committed handle is the one the commit started from. -/
theorem ZipCommitted.listing {env : Env} {disk disk' : Bytes} {pak pak' : Archive}
    (h : ZipCommitted env disk pak disk' pak') (sources : ℕ → CStr → Bytes) :
    zip_listing sources disk' pak'.entries = zip_listing env.sources disk pak.entries := by
  rw [h.file, h.entries, h.image.listing_committed, zip_placed_rows]

/-- The handle that a rebuild publishes. -/
def zip_published (env : Env) (disk : Bytes) (pak : Archive) : Archive :=
  { pak with
    entries := drop_pending ((zip_placed env disk pak).map Prod.fst)
    pk3_cdr_offset := (zip_eocd (zip_placed env disk pak)).cdr_offset
    dirty := false
    needs_rebuild := false
    fp := true
    file_size := (zip_eocd (zip_placed env disk pak)).cdr_offset.toNat +
      (zip_eocd (zip_placed env disk pak)).cdr_size.toNat + PK3_EOCD_SIZE }

/-- **The published handle is in order.** -/
theorem zip_published_committed {env : Env} {disk : Bytes} {pak : Archive}
    (h : ZipState disk.length pak) (himage : ZipImage (zip_placed env disk pak)) :
    ZipCommitted env disk pak (zip_file (zip_placed env disk pak)) (zip_published env disk pak) := by
  have hnames : (zip_published env disk pak).entries.map Entry.filename =
      pak.entries.map Entry.filename := by
    change (drop_pending _).map Entry.filename = _
    rw [drop_pending, List.map_map, List.map_map]
    exact zip_place_map Entry.filename (fun _ _ => rfl) _ _ _ _ _
  have hlen : (zip_published env disk pak).entries.length = pak.entries.length := by
    have := congrArg List.length hnames
    rwa [List.length_map, List.length_map] at this
  have hmem : ∀ e ∈ (zip_published env disk pak).entries, ∃ x ∈ zip_placed env disk pak,
      e = { x.1 with pending_source := none, pending_data := none } := by
    intro e he
    obtain ⟨y, hy, rfl⟩ := List.mem_map.mp he
    obtain ⟨x, hx, rfl⟩ := List.mem_map.mp hy
    exact ⟨x, hx, rfl⟩
  refine ⟨rfl, himage, rfl, ⟨h.zip, ⟨?_, ?_, ?_⟩, ?_, ?_, ?_⟩, ?_, rfl, rfl, rfl, rfl, rfl, rfl⟩
  · change pak.tail = _
    rw [h.linked.tail, lastIndex, lastIndex, hlen]
  · change pak.num_entries = _
    rw [h.linked.count, hlen]
  · intro hw
    rw [hnames]
    exact h.linked.nodup hw
  · intro e he
    obtain ⟨x, hx, rfl⟩ := hmem e he
    obtain ⟨-, -, -, hcsize, hin⟩ := himage.located hx
    refine ⟨himage.method x hx, himage.stored x hx, Or.inl rfl, ?_, ?_, ?_,
      (himage.named x hx).name_fits⟩
    · intro d hd
      cases hd
    · intro hs
      cases hs
    · intro _
      change x.1.pk3_payload_offset.toNat + x.1.pk3_compressed_size.toNat ≤ _
      rw [hcsize, zip_file, List.length_append]
      exact Nat.le_trans hin (Nat.le_add_right _ _)
  · intro e he hs
    obtain ⟨x, -, rfl⟩ := hmem e he
    cases hs
  · intro hd
    cases hd
  · intro e he
    obtain ⟨x, hx, rfl⟩ := hmem e he
    obtain ⟨h1, h2, h3, h4⟩ := himage.named x hx
    exact ⟨h1, h2, h3, h4⟩

end Pakka
