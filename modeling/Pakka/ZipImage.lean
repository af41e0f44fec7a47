/-
The file a ZIP commit writes, and that the loader reads it back.

A written file is the local headers and payloads one behind the other, the central directory, and
the end record. `zip_file` puts it together from the entries as they were placed and the bytes that
were written for each. Whether the loader takes it is a matter of the names, the number of
entries and the lengths: `ZipReadable`.

The builders produce headers of fixed length, so every field is at a known place of the file. The
loader's checks are then taken one at a time, in its order, and each of them is met by a field of
the image or by a bound that the commit has checked.
-/
import Pakka.ZipState

set_option autoImplicit false

namespace Pakka

open ByteImage LittleEndian

/-! ## Headers

The builders' bytes, field by field as the loader reads them.
-/

/-- The fields of a local header are found where the loader looks. -/
theorem build_lfh_fields (method : UInt16) (crc csize usize : UInt32) (name : Bytes)
    (name_len : UInt16) (rest : Bytes) :
    let b := pk3_build_lfh method crc csize usize name name_len ++ rest
    slice b 0 4 = PK3_LFH_SIGNATURE ∧ get16 (b.drop 6) = pk3_gp_flags_for_name name ∧
      get16 (b.drop 8) = method ∧ get32 (b.drop 14) = crc ∧ get32 (b.drop 18) = csize ∧
      get32 (b.drop 22) = usize ∧ get16 (b.drop 26) = name_len ∧ get16 (b.drop 28) = 0 := by
  have hsig : PK3_LFH_SIGNATURE.length = 4 := rfl
  simp [pk3_build_lfh, slice, List.drop_append, List.drop_eq_nil_of_le,
    drop_put16, drop_put32, hsig]

@[simp] theorem length_build_lfh (method : UInt16) (crc csize usize : UInt32) (name : Bytes)
    (name_len : UInt16) :
    (pk3_build_lfh method crc csize usize name name_len).length = PK3_LFH_SIZE := by
  have hsig : PK3_LFH_SIGNATURE.length = 4 := rfl
  simp [pk3_build_lfh, hsig]

/-- A central record is read as it was built. -/
theorem read_build_cdr (method : UInt16) (crc csize usize : UInt32) (name : Bytes)
    (name_len : UInt16) (lfh_offset : UInt32) (rest : Bytes) :
    pk3_read_cdr_record (pk3_build_cdr method crc csize usize name name_len lfh_offset ++ rest) =
      { flags := pk3_gp_flags_for_name name
        method := method
        crc := crc
        csize := csize
        usize := usize
        name_len := name_len
        extra_len := 0
        comment_len := 0
        ext_attrs := 0
        lfh_offset := lfh_offset
        is_dir_entry := false } := by
  have hsig : PK3_CDR_SIGNATURE.length = 4 := rfl
  simp [pk3_read_cdr_record, pk3_build_cdr, List.drop_append, List.drop_eq_nil_of_le,
    drop_put16, drop_put32, hsig]

@[simp] theorem length_build_cdr (method : UInt16) (crc csize usize : UInt32) (name : Bytes)
    (name_len : UInt16) (lfh_offset : UInt32) :
    (pk3_build_cdr method crc csize usize name name_len lfh_offset).length = PK3_CDR_SIZE := by
  have hsig : PK3_CDR_SIGNATURE.length = 4 := rfl
  simp [pk3_build_cdr, hsig]

/-- A central record starts with its signature. -/
theorem build_cdr_signature (method : UInt16) (crc csize usize : UInt32) (name : Bytes)
    (name_len : UInt16) (lfh_offset : UInt32) (rest : Bytes) :
    slice (pk3_build_cdr method crc csize usize name name_len lfh_offset ++ rest) 0 4 =
      PK3_CDR_SIGNATURE := by
  have hsig : PK3_CDR_SIGNATURE.length = 4 := rfl
  simp [pk3_build_cdr, slice, hsig]

@[simp] theorem length_build_eocd (cdr_offset cdr_size : UInt32) (entry_count : UInt16) :
    (pk3_build_eocd cdr_offset cdr_size entry_count).length = PK3_EOCD_SIZE := by
  have hsig : PK3_EOCD_SIGNATURE.length = 4 := rfl
  simp [pk3_build_eocd, hsig]

/-- The fields of an end record are found where the loader looks. -/
theorem build_eocd_fields (cdr_offset cdr_size : UInt32) (entry_count : UInt16) :
    let b := pk3_build_eocd cdr_offset cdr_size entry_count
    slice b 0 4 = PK3_EOCD_SIGNATURE ∧ get16 (b.drop 4) = 0 ∧ get16 (b.drop 6) = 0 ∧
      get16 (b.drop 8) = entry_count ∧ get16 (b.drop 10) = entry_count ∧
      get32 (b.drop 12) = cdr_size ∧ get32 (b.drop 16) = cdr_offset ∧
      get16 (b.drop 20) = 0 := by
  have hsig : PK3_EOCD_SIGNATURE.length = 4 := rfl
  simp [pk3_build_eocd, slice, List.drop_append, List.drop_eq_nil_of_le,
    drop_put16, drop_put32, hsig]

/-- A name length that fits its word. -/
theorem pk3_name_len_toNat {e : Entry} (h : e.filename.strlen < PAKKA_ENTRY_NAME_SIZE) :
    (pk3_name_len e).toNat = e.filename.strlen := by
  have h256 : PAKKA_ENTRY_NAME_SIZE = 256 := rfl
  rw [pk3_name_len, UInt16.toNat_ofNat', Nat.mod_eq_of_lt (by omega)]

/-- The name behind a header is the whole name. -/
theorem pk3_name_eq {e : Entry} (h : e.filename.strlen < PAKKA_ENTRY_NAME_SIZE) :
    pk3_name e = e.filename.bytes := by
  rw [pk3_name, pk3_name_len_toNat h]
  exact List.take_of_length_le (Nat.le_refl _)

theorem length_pk3_lfh_bytes {e : Entry} (h : e.filename.strlen < PAKKA_ENTRY_NAME_SIZE) :
    (pk3_lfh_bytes e).length = PK3_LFH_SIZE + e.filename.strlen := by
  rw [pk3_lfh_bytes, List.length_append, length_build_lfh, pk3_name_eq h]
  rfl

theorem length_pk3_cdr_bytes {e : Entry} (h : e.filename.strlen < PAKKA_ENTRY_NAME_SIZE) :
    (pk3_cdr_bytes e).length = PK3_CDR_SIZE + e.filename.strlen := by
  rw [pk3_cdr_bytes, List.length_append, length_build_cdr, pk3_name_eq h]
  rfl

/-! ## The layout

Headers and payloads, with the offset of each.
-/

/-- Local headers and payloads, one behind the other. -/
def zip_locals (xs : List (Entry × Bytes)) : Bytes := xs.flatMap fun x => pk3_lfh_bytes x.1 ++ x.2

/-- The central directory. -/
def zip_cdr (es : List Entry) : Bytes := es.flatMap pk3_cdr_bytes

/-- The file of entries with the bytes written for each. -/
def zip_file (xs : List (Entry × Bytes)) : Bytes :=
  zip_locals xs ++ (zip_cdr (xs.map Prod.fst) ++
    pk3_build_eocd (UInt32.ofNat (zip_locals xs).length)
      (UInt32.ofNat (zip_cdr (xs.map Prod.fst)).length) (UInt16.ofNat xs.length))

@[simp] theorem zip_locals_append (xs ys : List (Entry × Bytes)) :
    zip_locals (xs ++ ys) = zip_locals xs ++ zip_locals ys := List.flatMap_append

@[simp] theorem zip_locals_cons (x : Entry × Bytes) (xs : List (Entry × Bytes)) :
    zip_locals (x :: xs) = pk3_lfh_bytes x.1 ++ x.2 ++ zip_locals xs := rfl

@[simp] theorem zip_cdr_cons (e : Entry) (es : List Entry) :
    zip_cdr (e :: es) = pk3_cdr_bytes e ++ zip_cdr es := rfl

/-- The entries say where their headers and payloads are, from `pos` on. -/
inductive ZipPlaced : ℕ → List (Entry × Bytes) → Prop where
  | nil (pos : ℕ) : ZipPlaced pos []
  | cons {pos : ℕ} {e : Entry} {p : Bytes} {xs : List (Entry × Bytes)}
      (header : e.pk3_lfh_offset.toNat = pos)
      (payload : e.pk3_payload_offset.toNat = pos + (pk3_lfh_bytes e).length)
      (offset : e.offset = e.pk3_payload_offset) (size : e.pk3_compressed_size.toNat = p.length)
      (rest : ZipPlaced (pos + (pk3_lfh_bytes e).length + p.length) xs) :
      ZipPlaced pos ((e, p) :: xs)

/-- Where a placed entry is. -/
theorem ZipPlaced.mem {pos : ℕ} {xs : List (Entry × Bytes)} (h : ZipPlaced pos xs)
    {x : Entry × Bytes} (hx : x ∈ xs) :
    ∃ pre post, xs = pre ++ x :: post ∧
      x.1.pk3_lfh_offset.toNat = pos + (zip_locals pre).length ∧
      x.1.pk3_payload_offset.toNat = x.1.pk3_lfh_offset.toNat + (pk3_lfh_bytes x.1).length ∧
      x.1.offset = x.1.pk3_payload_offset ∧ x.1.pk3_compressed_size.toNat = x.2.length := by
  induction h with
  | nil => cases hx
  | @cons pos e p xs header payload offset size rest ih =>
    rcases List.mem_cons.mp hx with rfl | hx
    · exact ⟨[], xs, rfl, header, by rw [header]; exact payload, offset, size⟩
    · obtain ⟨pre, post, rfl, h1, h2⟩ := ih hx
      refine ⟨(e, p) :: pre, post, rfl, ?_, h2⟩
      rw [h1, zip_locals_cons, List.length_append, List.length_append]
      simp only
      omega

/-- The bytes of a written file from the local header of an entry on. -/
theorem zip_file_drop (pre post : List (Entry × Bytes)) (x : Entry × Bytes) :
    ∃ rest, (zip_file (pre ++ x :: post)).drop (zip_locals pre).length =
      pk3_lfh_bytes x.1 ++ (x.2 ++ rest) := by
  rw [zip_file, zip_locals_append, zip_locals_cons, List.append_assoc, List.append_assoc,
    List.append_assoc, List.drop_left]
  exact ⟨_, rfl⟩

/-! ## Names

The name the loader makes of the bytes that were written.
-/

/-- The name the loader gives an entry that was written under `name`. -/
def zip_name_read (name : CStr) : CStr :=
  match pk3_decode_entry_name name.bytes (pk3_gp_flags_for_name name.bytes)
      PAKKA_ENTRY_NAME_SIZE with
  | .name bs => CStr.ofField bs
  | _ => name

/-- A name in UTF-8 is read as it was written. -/
theorem zip_name_read_utf8 {name : CStr} (hv : pakka_is_valid_utf8 name.bytes = true)
    (hfits : name.strlen < PAKKA_ENTRY_NAME_SIZE) : zip_name_read name = name := by
  have hfield := CStr.ofField_padded name 0
  rw [List.replicate_zero, List.append_nil] at hfield
  rw [zip_name_read, pk3_decode_entry_name_utf8 hv hfits]
  exact hfield

/-- An entry the record check takes for one: what every handle ensures of the names it lists. -/
structure ZipNamed (e : Entry) : Prop where
  name_fits : e.filename.strlen < PAKKA_ENTRY_NAME_SIZE
  nonempty : e.filename.bytes ≠ []
  no_control : ∀ b ∈ e.filename.bytes, is_control_byte b = false
  no_marker : ¬ (e.filename.bytes.getLast? = some 0x2F ∧ e.length = 0 ∧ e.pk3_compressed_size = 0)

/-- An entry the loader takes, and nothing ensures of a handle's entries: its name is decoded
within the name buffer, and its length is not the mark of a larger format. -/
structure ZipReadable (e : Entry) : Prop where
  decodes : ∃ bs, pk3_decode_entry_name e.filename.bytes
    (pk3_gp_flags_for_name e.filename.bytes) PAKKA_ENTRY_NAME_SIZE = .name bs
  length : e.length ≠ 0xFFFFFFFF

theorem ZipReadable.of_utf8 {e : Entry} (hv : pakka_is_valid_utf8 e.filename.bytes = true)
    (hfits : e.filename.strlen < PAKKA_ENTRY_NAME_SIZE) (hlen : e.length ≠ 0xFFFFFFFF) :
    ZipReadable e :=
  ⟨⟨_, pk3_decode_entry_name_utf8 hv hfits⟩, hlen⟩

/-! ## Central records

One record, checked and listed.
-/

/-- What the record of an entry says. -/
def zip_record (e : Entry) : CdrRecord :=
  { flags := pk3_gp_flags_for_name e.filename.bytes
    method := e.pk3_method
    crc := e.crc32
    csize := e.pk3_compressed_size
    usize := e.length
    name_len := pk3_name_len e
    extra_len := 0
    comment_len := 0
    ext_attrs := 0
    lfh_offset := e.pk3_lfh_offset
    is_dir_entry := false }

theorem zip_record_size {e : Entry} (h : e.filename.strlen < PAKKA_ENTRY_NAME_SIZE) :
    (zip_record e).size = (pk3_cdr_bytes e).length := by
  rw [length_pk3_cdr_bytes h, CdrRecord.size, zip_record, pk3_name_len_toNat h]
  rfl

/-- **A written record is found** where it was written. -/
theorem zip_record_found {cdr rest : Bytes} {pos : ℕ} {e : Entry}
    (hfits : e.filename.strlen < PAKKA_ENTRY_NAME_SIZE)
    (hdrop : cdr.drop pos = pk3_cdr_bytes e ++ rest) :
    pk3_read_cdr_record (cdr.drop pos) = zip_record e ∧
      cdr_name cdr pos (zip_record e) = e.filename.bytes ∧
      slice cdr pos 4 = PK3_CDR_SIGNATURE ∧ pos + (zip_record e).size ≤ cdr.length := by
  have hname := pk3_name_eq hfits
  refine ⟨?_, ?_, ?_, ?_⟩
  · rw [hdrop, pk3_cdr_bytes, List.append_assoc, read_build_cdr, hname]
    rfl
  · have hlen : (pk3_build_cdr e.pk3_method e.crc32 e.pk3_compressed_size e.length (pk3_name e)
        (pk3_name_len e) e.pk3_lfh_offset).length = PK3_CDR_SIZE := length_build_cdr ..
    rw [cdr_name, slice, ← List.drop_drop, hdrop, pk3_cdr_bytes, List.append_assoc, ← hlen,
      List.drop_left]
    change (pk3_name e ++ rest).take (pk3_name_len e).toNat = _
    rw [hname, pk3_name_len_toNat hfits]
    exact List.take_left
  · have hsig := build_cdr_signature e.pk3_method e.crc32 e.pk3_compressed_size e.length
      (pk3_name e) (pk3_name_len e) e.pk3_lfh_offset (pk3_name e ++ rest)
    rw [slice, hdrop, pk3_cdr_bytes, List.append_assoc]
    exact hsig
  · have hlen := congrArg List.length hdrop
    rw [List.length_drop, List.length_append] at hlen
    have hpos : 0 < (pk3_cdr_bytes e).length := by
      rw [length_pk3_cdr_bytes hfits]
      exact Nat.add_pos_left (by decide) _
    rw [zip_record_size hfits]
    omega

/-- The record of a well named entry is no directory marker. -/
theorem zip_record_not_marker {cdr rest : Bytes} {pos : ℕ} {e : Entry} (h : ZipNamed e)
    (hdrop : cdr.drop pos = pk3_cdr_bytes e ++ rest) :
    is_dir_marker cdr pos (zip_record e) = false := by
  obtain ⟨-, hname, -, -⟩ := zip_record_found h.name_fits hdrop
  rw [is_dir_marker, hname, Bool.eq_false_iff]
  intro hmark
  simp only [Bool.and_eq_true, decide_eq_true_eq] at hmark
  exact h.no_marker ⟨hmark.1.1, hmark.1.2, hmark.2⟩

theorem pk3_gp_flags_plain (name : Bytes) :
    pk3_gp_flags_for_name name &&& 0x1 = 0 ∧ pk3_gp_flags_for_name name &&& 0x8 = 0 := by
  unfold pk3_gp_flags_for_name
  split_ifs <;> decide

/-- **A written record passes the record check.** -/
theorem zip_record_checked {cdr rest : Bytes} {pos : ℕ} {e : Entry} (h : ZipNamed e)
    (hmethod : e.pk3_method = PK3_METHOD_STORED ∨ e.pk3_method = PK3_METHOD_DEFLATE)
    (hsizes : e.pk3_compressed_size ≠ 0xFFFFFFFF ∧ e.length ≠ 0xFFFFFFFF ∧
      e.pk3_lfh_offset ≠ 0xFFFFFFFF)
    (hdrop : cdr.drop pos = pk3_cdr_bytes e ++ rest) :
    pk3_validate_cdr_record cdr pos = .ok (zip_record e) := by
  obtain ⟨hread, hname, hsig, hin⟩ := zip_record_found h.name_fits hdrop
  have hmark := zip_record_not_marker h hdrop
  have hlen := pk3_name_len_toNat h.name_fits
  obtain ⟨hf1, hf8⟩ := pk3_gp_flags_plain e.filename.bytes
  rw [pk3_validate_cdr_record_ok, hread, hmark]
  have hplain : (0 : UInt32) >>> 16 &&& PK3_UNIX_IFMT ≠ PK3_UNIX_IFLNK := by decide
  refine ⟨⟨hin, hsig, hf1, hf8, hsizes, hmethod, ?_, ?_, hplain, ?_⟩, rfl⟩
  · intro hzero
    apply h.nonempty
    change pk3_name_len e = 0 at hzero
    rw [hzero] at hlen
    exact List.length_eq_zero_iff.mp hlen.symm
  · exact hlen ▸ h.name_fits
  · intro _
    rw [hname, List.any_eq_false]
    intro b hb
    simpa using h.no_control b hb

/-! ## The directory

The walk over all of them.
-/

/-- What the walk over the directory makes of an entry's record. -/
def zip_listed (e : Entry) : Entry := pk3_entry_of_record (zip_record e) (zip_name_read e.filename)

/-- What the loader makes of what was written for an entry. -/
def zip_loaded (e : Entry) : Entry :=
  { zip_listed e with
    pk3_payload_offset := e.pk3_payload_offset
    offset := e.pk3_payload_offset }

/-- **The walk takes a written directory**, record by record. -/
theorem zip_cdr_walks {cdr : Bytes} (es : List Entry) {pos : ℕ}
    (hdrop : cdr.drop pos = zip_cdr es) (hpos : pos ≤ cdr.length)
    (h : ∀ e ∈ es, ZipNamed e ∧ ZipReadable e ∧
      (e.pk3_method = PK3_METHOD_STORED ∨ e.pk3_method = PK3_METHOD_DEFLATE) ∧
      e.pk3_compressed_size ≠ 0xFFFFFFFF ∧ e.pk3_lfh_offset ≠ 0xFFFFFFFF) :
    ∃ l, CdrWalks cdr es.length pos l cdr.length 0 ∧ l.map Listed.entry = es.map zip_listed := by
  induction es generalizing pos with
  | nil =>
    have hend := List.drop_eq_nil_iff.mp hdrop
    obtain rfl : pos = cdr.length := by omega
    exact ⟨[], CdrWalks.done _, rfl⟩
  | cons e es ih =>
    obtain ⟨hnamed, hread, hmethod, hcsize, hoffset⟩ := h e List.mem_cons_self
    rw [zip_cdr_cons] at hdrop
    have hchecked := zip_record_checked hnamed hmethod ⟨hcsize, hread.length, hoffset⟩ hdrop
    obtain ⟨-, hname, -, hin⟩ := zip_record_found hnamed.name_fits hdrop
    have hnext : cdr.drop (pos + (zip_record e).size) = zip_cdr es := by
      rw [← List.drop_drop, hdrop, zip_record_size hnamed.name_fits, List.drop_left]
    obtain ⟨l, hwalk, hl⟩ := ih hnext hin fun x hx => h x (List.mem_cons_of_mem _ hx)
    obtain ⟨bs, hbs⟩ := hread.decodes
    have hfile : zip_name_read e.filename = CStr.ofField bs := by rw [zip_name_read, hbs]
    have hdec : pk3_decode_entry_name (cdr_name cdr pos (zip_record e)) (zip_record e).flags
        PAKKA_ENTRY_NAME_SIZE = .name bs := by
      rw [hname]
      exact hbs
    refine ⟨_, CdrWalks.entry hchecked rfl hdec hwalk, ?_⟩
    rw [List.map_cons, List.map_cons, hl, zip_listed, hfile]
    rfl

/-- **Whatever the walk makes of a written directory**, it is these entries. -/
theorem zip_cdr_walk_entries {cdr : Bytes} (es : List Entry) {pos last skipped : ℕ}
    {l : List Listed} (hdrop : cdr.drop pos = zip_cdr es) (h : ∀ e ∈ es, ZipNamed e)
    (hwalk : CdrWalks cdr es.length pos l last skipped) :
    l.map Listed.entry = es.map zip_listed := by
  induction es generalizing pos l skipped with
  | nil =>
    cases hwalk
    rfl
  | cons e es ih =>
    have hnamed := h e List.mem_cons_self
    rw [zip_cdr_cons] at hdrop
    obtain ⟨hrec, hname, -, -⟩ := zip_record_found hnamed.name_fits hdrop
    have hmark := zip_record_not_marker hnamed hdrop
    have hvalid : ∀ r, pk3_validate_cdr_record cdr pos = .ok r → r = zip_record e := by
      intro r hr
      obtain ⟨-, hr⟩ := pk3_validate_cdr_record_ok.mp hr
      rw [hr, hrec, hmark]
      rfl
    have hnext : cdr.drop (pos + (zip_record e).size) = zip_cdr es := by
      rw [← List.drop_drop, hdrop, zip_record_size hnamed.name_fits, List.drop_left]
    cases hwalk with
    | dir hr hd hw =>
      rw [hvalid _ hr] at hd
      cases hd
    | @entry _ _ _ bs _ _ _ hr hd hn hw =>
      obtain rfl := hvalid _ hr
      have hdec : zip_name_read e.filename = CStr.ofField bs := by
        change pk3_decode_entry_name (cdr_name cdr pos (zip_record e)) _ _ = _ at hn
        rw [hname] at hn
        change pk3_decode_entry_name _ (pk3_gp_flags_for_name e.filename.bytes) _ = _ at hn
        rw [zip_name_read, hn]
      rw [List.map_cons, List.map_cons, zip_listed, hdec,
        ih hnext (fun x hx => h x (List.mem_cons_of_mem _ hx)) hw]
      rfl

/-! ## The end record

It is the last thing in the file and has no comment, so the search finds it.
-/

/-- The end record is the first thing the backward scan tries. -/
theorem pk3_find_eocd_end (body : Bytes) (cdr_offset cdr_size : UInt32) (entry_count : UInt16) :
    pk3_find_eocd (body ++ pk3_build_eocd cdr_offset cdr_size entry_count) = some body.length := by
  have hlen : (body ++ pk3_build_eocd cdr_offset cdr_size entry_count).length =
      body.length + PK3_EOCD_SIZE := by
    rw [List.length_append, length_build_eocd]
  obtain ⟨hsig, -, -, -, -, -, -, hcomment⟩ := build_eocd_fields cdr_offset cdr_size entry_count
  have h22 : PK3_EOCD_SIZE = 22 := rfl
  have hmax : PK3_EOCD_SCAN_MAX = 65557 := rfl
  unfold pk3_find_eocd
  simp only [hlen]
  rw [if_neg (by omega)]
  generalize hscan : (if body.length + PK3_EOCD_SIZE > PK3_EOCD_SCAN_MAX then PK3_EOCD_SCAN_MAX
    else body.length + PK3_EOCD_SIZE) = scan_len
  have hle : scan_len ≤ body.length + PK3_EOCD_SIZE ∧ PK3_EOCD_SIZE ≤ scan_len := by
    split_ifs at hscan <;> omega
  -- the buffer ends with the record
  have hbuf : slice (body ++ pk3_build_eocd cdr_offset cdr_size entry_count)
      (body.length + PK3_EOCD_SIZE - scan_len) scan_len =
        body.drop (body.length + PK3_EOCD_SIZE - scan_len) ++
          pk3_build_eocd cdr_offset cdr_size entry_count := by
    rw [slice, List.drop_append_of_le_length (by omega)]
    refine List.take_of_length_le ?_
    rw [List.length_append, List.length_drop, length_build_eocd]
    omega
  have hfront : (body.drop (body.length + PK3_EOCD_SIZE - scan_len)).length =
      scan_len - PK3_EOCD_SIZE := by
    rw [List.length_drop]
    omega
  rw [hbuf, pk3_find_eocd_loop, if_pos, Option.map_some]
  · congr 1
    omega
  · rw [pk3_eocd_at, Bool.and_eq_true, decide_eq_true_eq, decide_eq_true_eq]
    constructor
    · rw [slice, ← hfront, List.drop_left]
      exact hsig
    · rw [← List.drop_drop, ← hfront, List.drop_left, hcomment, List.length_append,
        length_build_eocd]
      rfl

/-! ## Opening a written file

All checks of the loader, in its order.
-/

/-- Entries as a rebuild places them, each with the bytes it wrote. -/
structure ZipImage (xs : List (Entry × Bytes)) : Prop where
  placed : ZipPlaced 0 xs
  named : ∀ x ∈ xs, ZipNamed x.1
  method : ∀ x ∈ xs, x.1.pk3_method = PK3_METHOD_STORED ∨ x.1.pk3_method = PK3_METHOD_DEFLATE
  stored : ∀ x ∈ xs, x.1.pk3_method = PK3_METHOD_STORED → x.1.pk3_compressed_size = x.1.length
  size : (zip_locals xs).length + PK3_EOCD_SIZE + (zip_cdr (xs.map Prod.fst)).length ≤ UINT32_MAX
  count : xs.length ≤ 0xFFFF

/-- What the end record of a written file says. -/
def zip_eocd (xs : List (Entry × Bytes)) : Eocd :=
  ⟨UInt32.ofNat (zip_locals xs).length, UInt32.ofNat (zip_cdr (xs.map Prod.fst)).length,
    UInt16.ofNat xs.length⟩

variable {xs : List (Entry × Bytes)}

theorem ofNat_toNat_of_le {n : ℕ} (h : n ≤ UINT32_MAX) : (UInt32.ofNat n).toNat = n := by
  rw [UInt32.toNat_ofNat', Nat.mod_eq_of_lt (by simp only [UINT32_MAX] at h; omega)]

theorem ZipImage.words (h : ZipImage xs) :
    (zip_eocd xs).cdr_offset.toNat = (zip_locals xs).length ∧
      (zip_eocd xs).cdr_size.toNat = (zip_cdr (xs.map Prod.fst)).length ∧
      (zip_eocd xs).entry_count.toNat = xs.length := by
  have hsize := h.size
  have hcount := h.count
  refine ⟨ofNat_toNat_of_le (by omega), ofNat_toNat_of_le (by omega), ?_⟩
  rw [zip_eocd, UInt16.toNat_ofNat', Nat.mod_eq_of_lt (by omega)]

/-- How large a directory of so many records is. -/
theorem length_zip_cdr_bounds {es : List Entry}
    (h : ∀ e ∈ es, e.filename.strlen < PAKKA_ENTRY_NAME_SIZE) :
    es.length * 46 ≤ (zip_cdr es).length ∧ (zip_cdr es).length ≤ es.length * 301 := by
  induction es with
  | nil => exact ⟨Nat.le_refl _, Nat.le_refl _⟩
  | cons e es ih =>
    have hrest := ih fun x hx => h x (List.mem_cons_of_mem _ hx)
    have hfits := h e List.mem_cons_self
    have h256 : PAKKA_ENTRY_NAME_SIZE = 256 := rfl
    have h46 : PK3_CDR_SIZE = 46 := rfl
    rw [zip_cdr_cons, List.length_append, length_pk3_cdr_bytes hfits, List.length_cons]
    omega

theorem zip_file_eq (xs : List (Entry × Bytes)) :
    zip_file xs = (zip_locals xs ++ zip_cdr (xs.map Prod.fst)) ++
      pk3_build_eocd (zip_eocd xs).cdr_offset (zip_eocd xs).cdr_size
        (zip_eocd xs).entry_count := by
  rw [List.append_assoc]
  rfl

/-- **The end record is read as it was written**, unless it has the count that stands for a
larger format. -/
theorem ZipImage.validate_eocd (h : ZipImage xs) {hd : Eocd} :
    pk3_validate_eocd (zip_file xs) (zip_locals xs ++ zip_cdr (xs.map Prod.fst)).length = .ok hd ↔
      hd = zip_eocd xs ∧ xs.length ≠ 0xFFFF := by
  obtain ⟨hoff, hcdr, hcount⟩ := h.words
  have hsize := h.size
  have h22 : PK3_EOCD_SIZE = 22 := rfl
  have hmax : UINT32_MAX = 4294967295 := rfl
  have hentries : PAKFILE_MAX_ENTRIES = 1048576 := rfl
  have hle := h.count
  have hread : readExact (zip_file xs)
      (zip_locals xs ++ zip_cdr (xs.map Prod.fst)).length PK3_EOCD_SIZE =
      some (pk3_build_eocd (zip_eocd xs).cdr_offset (zip_eocd xs).cdr_size
        (zip_eocd xs).entry_count) := by
    refine readExact_eq_some.mpr ⟨?_, length_build_eocd ..⟩
    rw [zip_file_eq, slice, List.drop_left]
    exact (List.take_of_length_le (by rw [length_build_eocd])).symm
  obtain ⟨-, hd1, hd2, hd3, hd4, hd5, hd6, -⟩ := build_eocd_fields (zip_eocd xs).cdr_offset
    (zip_eocd xs).cdr_size (zip_eocd xs).entry_count
  have hmark : (zip_eocd xs).entry_count = 0xFFFF ↔ xs.length = 0xFFFF := by
    rw [← UInt16.toNat_inj, hcount]
    rfl
  have hcs : (zip_eocd xs).cdr_size ≠ 0xFFFFFFFF := by
    intro hx
    rw [hx] at hcdr
    change 4294967295 = _ at hcdr
    omega
  have hco : (zip_eocd xs).cdr_offset ≠ 0xFFFFFFFF := by
    intro hx
    rw [hx] at hoff
    change 4294967295 = _ at hoff
    omega
  unfold pk3_validate_eocd
  rw [hread]
  simp only [orError, except_bind_eq_ok, Except.ok.injEq, exists_eq_left', hd1, hd2, hd3, hd4, hd5,
    hd6, ite_error_eq_ok, except_pure_eq_ok, hmark, hcs, hco, hoff, hcdr, hcount,
    List.length_append]
  constructor
  · rintro ⟨-, -, hne, -, -, rfl⟩
    exact ⟨rfl, by simpa using hne⟩
  · rintro ⟨rfl, hne⟩
    exact ⟨by simp, by simp, by simpa using hne, by omega, by omega, rfl⟩

/-- Where an entry of a written file is: its header, its payload, and the directory behind. -/
theorem ZipImage.located (h : ZipImage xs) {x : Entry × Bytes} (hx : x ∈ xs) :
    (∃ rest, (zip_file xs).drop x.1.pk3_lfh_offset.toNat = pk3_lfh_bytes x.1 ++ (x.2 ++ rest)) ∧
      x.1.pk3_payload_offset.toNat = x.1.pk3_lfh_offset.toNat + (pk3_lfh_bytes x.1).length ∧
      x.1.offset = x.1.pk3_payload_offset ∧ x.1.pk3_compressed_size.toNat = x.2.length ∧
      x.1.pk3_payload_offset.toNat + x.2.length ≤ (zip_locals xs).length := by
  obtain ⟨pre, post, hxs, hlfh, hpayload, hoffset, hcsize⟩ := h.placed.mem hx
  rw [Nat.zero_add] at hlfh
  refine ⟨?_, hpayload, hoffset, hcsize, ?_⟩
  · rw [hlfh, hxs]
    exact zip_file_drop pre post x
  · rw [hpayload, hlfh, hxs, zip_locals_append, zip_locals_cons, List.length_append,
      List.length_append, List.length_append]
    omega

/-- The payload of an entry of a written file is what was written for it. -/
theorem ZipImage.payload (h : ZipImage xs) {x : Entry × Bytes} (hx : x ∈ xs) :
    slice (zip_file xs) x.1.pk3_payload_offset.toNat x.1.pk3_compressed_size.toNat = x.2 := by
  obtain ⟨⟨rest, hdrop⟩, hpayload, -, hcsize, -⟩ := h.located hx
  rw [hpayload, hcsize, slice, ← List.drop_drop, hdrop, List.drop_left]
  exact List.take_left

/-- **A written local header passes the cross-check** against its record. -/
theorem ZipImage.validate_entry (h : ZipImage xs) {x : Entry × Bytes} (hx : x ∈ xs) :
    pk3_validate_entry (zip_file xs) (zip_eocd xs).cdr_offset (zip_listed x.1) =
      .ok (zip_loaded x.1) := by
  obtain ⟨⟨rest, hdrop⟩, hpayload, -, hcsize, hin⟩ := h.located hx
  obtain ⟨hoff, -, -⟩ := h.words
  have hfits := (h.named x hx).name_fits
  have hname := pk3_name_eq hfits
  rw [length_pk3_lfh_bytes hfits] at hpayload
  obtain ⟨hsig, h6, h8, h14, h18, h22, h26, h28⟩ := build_lfh_fields x.1.pk3_method x.1.crc32
    x.1.pk3_compressed_size x.1.length (pk3_name x.1) (pk3_name_len x.1)
    (pk3_name x.1 ++ (x.2 ++ rest))
  have hheader : (zip_file xs).drop x.1.pk3_lfh_offset.toNat = pk3_build_lfh x.1.pk3_method
      x.1.crc32 x.1.pk3_compressed_size x.1.length (pk3_name x.1) (pk3_name_len x.1) ++
        (pk3_name x.1 ++ (x.2 ++ rest)) := by
    rw [hdrop, pk3_lfh_bytes, List.append_assoc]
  -- every field is read at its place in the header that was written there
  have hfield : ∀ k, (zip_file xs).drop (x.1.pk3_lfh_offset.toNat + k) =
      (pk3_build_lfh x.1.pk3_method x.1.crc32 x.1.pk3_compressed_size x.1.length (pk3_name x.1)
        (pk3_name_len x.1) ++ (pk3_name x.1 ++ (x.2 ++ rest))).drop k := by
    intro k
    rw [← List.drop_drop, hheader]
  obtain ⟨hf1, hf8⟩ := pk3_gp_flags_plain (pk3_name x.1)
  refine pk3_validate_entry_ok.mpr ⟨x.1.pk3_payload_offset.toNat, ⟨?_, ?_, ?_, ?_, ?_, ?_, ?_, ?_,
    h.stored x hx, ?_, ?_⟩, ?_⟩
  · have hlen := congrArg List.length hheader
    rw [List.length_drop, List.length_append, length_build_lfh] at hlen
    change x.1.pk3_lfh_offset.toNat + PK3_LFH_SIZE ≤ _
    have h30 : PK3_LFH_SIZE = 30 := rfl
    omega
  · change slice _ x.1.pk3_lfh_offset.toNat 4 = _
    rw [slice, hheader]
    exact hsig
  · change get16 ((zip_file xs).drop (x.1.pk3_lfh_offset.toNat + 6)) &&& 0x1 = 0
    rw [hfield, h6]
    exact hf1
  · change get16 ((zip_file xs).drop (x.1.pk3_lfh_offset.toNat + 6)) &&& 0x8 = 0
    rw [hfield, h6]
    exact hf8
  · exact (congrArg get16 (hfield 8)).trans h8
  · exact (congrArg get32 (hfield 14)).trans h14
  · exact (congrArg get32 (hfield 18)).trans h18
  · exact (congrArg get32 (hfield 22)).trans h22
  · change _ = x.1.pk3_lfh_offset.toNat + PK3_LFH_SIZE +
      (get16 ((zip_file xs).drop (x.1.pk3_lfh_offset.toNat + 26))).toNat +
      (get16 ((zip_file xs).drop (x.1.pk3_lfh_offset.toNat + 28))).toNat
    rw [hfield, hfield, h26, h28, pk3_name_len_toNat hfits, hpayload]
    exact (Nat.add_assoc _ _ _).symm
  · change _ + x.1.pk3_compressed_size.toNat ≤ _
    rw [hcsize, hoff]
    exact hin
  · rw [UInt32.ofNat_toNat]
    rfl

/-- **A written file opens** when the loader takes each name, the lengths and the count, and no
two names are read as one. -/
theorem ZipImage.directory (h : ZipImage xs) (hread : ∀ x ∈ xs, ZipReadable x.1)
    (hcount : xs.length ≠ 0xFFFF)
    (hnodup : (xs.map fun x => zip_name_read x.1.filename).Nodup) :
    ∃ cdr l, ZipDirectory (zip_file xs) (zip_eocd xs) cdr l (xs.map fun x => zip_loaded x.1) := by
  obtain ⟨hoff, hcdr, hn⟩ := h.words
  have hfits : ∀ e ∈ xs.map Prod.fst, e.filename.strlen < PAKKA_ENTRY_NAME_SIZE := by
    intro e he
    obtain ⟨x, hx, rfl⟩ := List.mem_map.mp he
    exact (h.named x hx).name_fits
  obtain ⟨hge, hle⟩ := length_zip_cdr_bounds hfits
  rw [List.length_map] at hge hle
  have hsize := h.size
  have hmax : UINT32_MAX = 4294967295 := rfl
  have h22 : PK3_EOCD_SIZE = 22 := rfl
  have hbound := h.count
  -- no size and no offset is the mark of a larger format
  obtain ⟨l, hwalk, hl⟩ := @zip_cdr_walks (zip_cdr (xs.map Prod.fst)) (xs.map Prod.fst) 0 rfl
    (Nat.zero_le _) (by
      intro e he
      obtain ⟨x, hx, rfl⟩ := List.mem_map.mp he
      obtain ⟨-, hpayload, -, hcsize, hin⟩ := h.located hx
      refine ⟨h.named x hx, hread x hx, h.method x hx, ?_, ?_⟩
      · intro hmark
        rw [hmark] at hcsize
        change 4294967295 = _ at hcsize
        omega
      · intro hmark
        rw [hmark] at hpayload
        change _ = 4294967295 + _ at hpayload
        omega)
  rw [List.length_map] at hwalk
  refine ⟨zip_cdr (xs.map Prod.fst), l, ?_, ⟨_, ?_, h.validate_eocd.mpr ⟨rfl, hcount⟩⟩, ?_, ?_, ?_,
    ⟨0, by rw [hn]; exact hwalk⟩, ?_, ?_⟩
  · -- the first header, or the end record where there is none
    cases xs with
    | nil => decide
    | cons x xs =>
      have hsig := (build_lfh_fields x.1.pk3_method x.1.crc32 x.1.pk3_compressed_size x.1.length
        (pk3_name x.1) (pk3_name_len x.1)
        (pk3_name x.1 ++ (x.2 ++ zip_locals xs ++ (zip_cdr ((x :: xs).map Prod.fst) ++
          pk3_build_eocd (zip_eocd (x :: xs)).cdr_offset (zip_eocd (x :: xs)).cdr_size
            (zip_eocd (x :: xs)).entry_count)))).1
      have hfile : zip_file (x :: xs) = pk3_build_lfh x.1.pk3_method x.1.crc32
          x.1.pk3_compressed_size x.1.length (pk3_name x.1) (pk3_name_len x.1) ++
          (pk3_name x.1 ++ (x.2 ++ zip_locals xs ++ (zip_cdr ((x :: xs).map Prod.fst) ++
            pk3_build_eocd (zip_eocd (x :: xs)).cdr_offset (zip_eocd (x :: xs)).cdr_size
              (zip_eocd (x :: xs)).entry_count))) := by
        rw [zip_file_eq, zip_locals_cons, pk3_lfh_bytes]
        simp only [List.append_assoc]
      rw [hfile, hsig]
      rfl
  · rw [zip_file_eq]
    exact pk3_find_eocd_end _ _ _ _
  · rw [← UInt16.toNat_inj, ← UInt32.toNat_inj, hn, hcdr]
    change xs.length = 0 ↔ _ = 0
    omega
  · refine Nat.le_trans (Nat.le_of_eq hcdr) (Nat.le_trans hle ?_)
    refine Nat.le_trans (Nat.mul_le_mul_right _ hbound) ?_
    exact Nat.le_of_ble_eq_true rfl
  · refine readExact_eq_some.mpr ⟨?_, hcdr.symm⟩
    rw [hoff, hcdr, zip_file]
    exact (slice_mid _ _ _).symm
  · rw [hl, List.map_map, List.forall₂_map_left_iff, List.forall₂_map_right_iff,
      List.forall₂_same]
    intro x hx
    exact h.validate_entry hx
  · rw [List.map_map]
    exact hnodup

/-- **The entries of a written file**, if it opens. -/
theorem ZipImage.entries (h : ZipImage xs) {hd : Eocd} {cdr : Bytes} {l : List Listed}
    {es : List Entry} (hdir : ZipDirectory (zip_file xs) hd cdr l es) :
    es = xs.map fun x => zip_loaded x.1 := by
  obtain ⟨hoff, hcdr, hn⟩ := h.words
  obtain ⟨off, hfind, hvalid⟩ := hdir.eocd
  have hend := pk3_find_eocd_end (zip_locals xs ++ zip_cdr (xs.map Prod.fst))
    (zip_eocd xs).cdr_offset (zip_eocd xs).cdr_size (zip_eocd xs).entry_count
  rw [← zip_file_eq, hfind] at hend
  obtain rfl := Option.some.inj hend
  obtain ⟨rfl, -⟩ := h.validate_eocd.mp hvalid
  obtain ⟨rfl, -⟩ := readExact_eq_some.mp hdir.read
  obtain ⟨skipped, hwalk⟩ := hdir.walk
  have hslice : slice (zip_file xs) (zip_eocd xs).cdr_offset.toNat (zip_eocd xs).cdr_size.toNat =
      zip_cdr (xs.map Prod.fst) := by
    rw [hoff, hcdr, zip_file]
    exact slice_mid _ _ _
  have hlen : (xs.map Prod.fst).length = xs.length := List.length_map ..
  rw [hn, hslice, ← hlen] at hwalk
  have hlisted := zip_cdr_walk_entries _ rfl (by
    intro e he
    obtain ⟨x, hx, rfl⟩ := List.mem_map.mp he
    exact h.named x hx) hwalk
  rw [List.map_map] at hlisted
  -- the second pass makes one thing of each
  have hpass := hdir.entries
  rw [hlisted, List.forall₂_map_left_iff] at hpass
  have hsame : List.Forall₂ (fun x e => zip_loaded x.1 = e) xs es := by
    refine (List.forall₂_and_left (p := fun x => x ∈ xs) xs es).mpr ⟨fun x hx => hx, hpass⟩ |>.imp ?_
    rintro x e ⟨hx, hxe⟩
    have hloaded := h.validate_entry hx
    exact Except.ok.inj (hloaded.symm.trans hxe)
  rw [← List.forall₂_map_left_iff (f := fun x : Entry × Bytes => zip_loaded x.1) (R := Eq),
    List.forall₂_eq_eq_eq] at hsame
  exact hsame.symm

end Pakka
