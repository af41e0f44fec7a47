/-
The invariant an opened PAK-class archive starts with, and what it buys: reads of
uncompressed entries never come up short.

The first half follows a reader through any sequence of chunk sizes, once for readers
that stream from the file and once for readers that serve a buffer. The second half reads
the invariant off `open_pak_iff`.

Nothing is assumed of the file. An invariant that held only of files this library wrote would say
nothing about what a reader may be handed; here every check of the loader is used, and the last
theorem lists what they add up to.
-/
import Pakka.Reader
import Pakka.PakLoadSpec

set_option autoImplicit false

namespace Pakka

open ByteImage

/-! ## Readers

A run of reads is a list of sizes. What remains of an entry after a run is a reader like the one at
its start, and the induction is on the sizes.
-/

/-- Chunks of a byte string: a first chunk and then the rest. -/
private theorem take_append_take_drop (l : Bytes) (a b : ℕ) :
    l.take a ++ (l.drop a).take b = l.take (a + b) := by
  rw [List.take_add]

/-- One step of a run of reads that succeeds. -/
theorem reader_run_cons {disk : Bytes} {pak : Archive} {r r' : Reader} {len : ℕ}
    {bytes : Bytes} (h : pakka_reader_read disk pak r len = ⟨.ok, r', bytes⟩) (lens : List ℕ) :
    reader_run disk pak r (len :: lens) =
      (reader_run disk pak r' lens).map (bytes ++ ·) := by
  simp only [reader_run, h]
  cases reader_run disk pak r' lens <;> rfl

/-- A reader that streams from the file: what is left lies inside it. -/
structure Streams (disk : Bytes) (r : Reader) : Prop where
  no_buf : r.inflated_buf = none
  no_len : r.inflated_len = 0
  inside : r.next_offset + r.remaining ≤ disk.length

/-- **A streaming read never comes up short.** It delivers the next bytes, as many as asked for
or as many as are left, and moves on. -/
theorem pakka_reader_read_streams {disk : Bytes} {pak : Archive} {r : Reader} (hfp : pak.fp = true)
    (h : Streams disk r) (len : ℕ) :
    pakka_reader_read disk pak r len =
      ⟨.ok, { r with
        next_offset := r.next_offset + min len r.remaining
        remaining := r.remaining - min len r.remaining },
      slice disk r.next_offset (min len r.remaining)⟩ := by
  have hin := h.inside
  unfold pakka_reader_read
  rw [if_neg (by simp [hfp])]
  by_cases hz : r.remaining = 0 ∨ len = 0
  · rw [if_pos hz]
    have h0 : min len r.remaining = 0 := by omega
    rw [h0, slice_zero_len]
    rfl
  rw [if_neg hz]
  by_cases hzip : pakka_format_is_zip pak.format = true
  · have hwant : (if len > r.remaining then r.remaining else len) = min len r.remaining := by
      split_ifs <;> omega
    have hbuf : (r.inflated_buf.isSome || decide (r.inflated_len > 0)) = false := by
      rw [h.no_buf, h.no_len]
      rfl
    rw [if_pos hzip, pakka_pk3_reader_read_impl]
    simp only [hwant]
    rw [if_neg (by omega), hbuf, if_neg (by simp), readExact_of_le (by omega)]
  · rw [if_neg hzip, h.no_buf]
    have hchunk : (if len < r.remaining then len else r.remaining) = min len r.remaining := by
      split_ifs <;> omega
    simp only [hchunk]
    have hlen : (slice disk r.next_offset (min len r.remaining)).length = min len r.remaining :=
      length_slice_of_le (by omega)
    rw [hlen, if_neg (by simp)]

/-- A streaming reader stays one. -/
theorem Streams.advance {disk : Bytes} {r : Reader} (h : Streams disk r) (k : ℕ) :
    Streams disk { r with
      next_offset := r.next_offset + min k r.remaining
      remaining := r.remaining - min k r.remaining } := by
  have hin := h.inside
  exact ⟨h.no_buf, h.no_len, by simp only; omega⟩

/-- **Any chunk sizes.** A run of streaming reads delivers the payload from the front. -/
theorem reader_run_streams {disk : Bytes} {pak : Archive} (hfp : pak.fp = true) (lens : List ℕ)
    {r : Reader} (h : Streams disk r) :
    reader_run disk pak r lens = .ok ((slice disk r.next_offset r.remaining).take lens.sum) := by
  induction lens generalizing r with
  | nil => simp [reader_run]
  | cons len lens ih =>
    rw [reader_run_cons (pakka_reader_read_streams hfp h len), ih (h.advance len),
      List.sum_cons]
    simp only [Except.map]
    congr 1
    -- the bytes of this read and the rest are consecutive ranges of the payload
    have hsplit : slice disk r.next_offset r.remaining =
        slice disk r.next_offset (min len r.remaining) ++
          slice disk (r.next_offset + min len r.remaining)
            (r.remaining - min len r.remaining) := by
      rw [slice_append_slice]
      congr 1
      omega
    have hin := h.inside
    have hl1 : (slice disk r.next_offset (min len r.remaining)).length = min len r.remaining :=
      length_slice_of_le (by omega)
    rw [hsplit]
    rcases Nat.le_total len r.remaining with hle | hle
    · rw [Nat.min_eq_left hle] at hl1 ⊢
      have hfirst : (slice disk r.next_offset len).take (len + lens.sum) =
          slice disk r.next_offset len := List.take_of_length_le (by omega)
      rw [List.take_append, hl1, Nat.add_sub_cancel_left, hfirst]
    · have h0 : r.remaining - min len r.remaining = 0 := by omega
      rw [h0, slice_zero_len, List.take_nil, List.append_nil,
        List.take_of_length_le (by omega)]

/-- A reader that serves the rest of its buffer. -/
structure Serves (buf : Bytes) (r : Reader) : Prop where
  has_buf : r.inflated_buf = some buf
  has_len : r.inflated_len = buf.length
  rest : r.inflated_cursor + r.remaining = buf.length

/-- A read from a buffer delivers the next bytes and moves on. -/
theorem pakka_reader_read_serves {disk buf : Bytes} {pak : Archive} {r : Reader}
    (hfp : pak.fp = true) (h : Serves buf r) (len : ℕ) :
    pakka_reader_read disk pak r len =
      ⟨.ok, { r with
        inflated_cursor := r.inflated_cursor + min len r.remaining
        remaining := r.remaining - min len r.remaining },
      slice buf r.inflated_cursor (min len r.remaining)⟩ := by
  have hrest := h.rest
  unfold pakka_reader_read
  rw [if_neg (by simp [hfp])]
  by_cases hz : r.remaining = 0 ∨ len = 0
  · rw [if_pos hz]
    have h0 : min len r.remaining = 0 := by omega
    rw [h0, slice_zero_len]
    rfl
  rw [if_neg hz]
  by_cases hzip : pakka_format_is_zip pak.format = true
  · have hwant : (if len > r.remaining then r.remaining else len) = min len r.remaining := by
      split_ifs <;> omega
    rw [if_pos hzip, pakka_pk3_reader_read_impl]
    simp only [hwant, h.has_buf]
    rw [if_neg (by omega), if_pos (by simp)]
    simp [read_from_buffer, h.has_buf]
  · rw [if_neg hzip]
    simp only [h.has_buf, h.has_len]
    have hchunk : (if len < buf.length - r.inflated_cursor then len
        else buf.length - r.inflated_cursor) = min len r.remaining := by
      split_ifs <;> omega
    rw [hchunk, if_neg (by omega)]
    simp [read_from_buffer, h.has_buf, h.has_len]

/-- A serving reader stays one. -/
theorem Serves.advance {buf : Bytes} {r : Reader} (h : Serves buf r) (k : ℕ) :
    Serves buf { r with
      inflated_cursor := r.inflated_cursor + min k r.remaining
      remaining := r.remaining - min k r.remaining } := by
  have hrest := h.rest
  exact ⟨h.has_buf, h.has_len, by simp only; omega⟩

/-- A run of reads from a buffer delivers its rest from the front. -/
theorem reader_run_serves {disk buf : Bytes} {pak : Archive} (hfp : pak.fp = true)
    (lens : List ℕ) {r : Reader} (h : Serves buf r) :
    reader_run disk pak r lens = .ok ((buf.drop r.inflated_cursor).take lens.sum) := by
  induction lens generalizing r with
  | nil => simp [reader_run]
  | cons len lens ih =>
    rw [reader_run_cons (pakka_reader_read_serves hfp h len), ih (h.advance len), List.sum_cons]
    simp only [Except.map]
    congr 1
    have hrest := h.rest
    rw [slice, ← List.drop_drop]
    rcases Nat.le_total len r.remaining with hle | hle
    · rw [Nat.min_eq_left hle, take_append_take_drop]
    · rw [Nat.min_eq_right hle, take_append_take_drop]
      rw [List.take_of_length_le (by rw [List.length_drop]; omega),
        List.take_of_length_le (by rw [List.length_drop]; omega)]

/-- A reader with nothing left delivers nothing. -/
theorem reader_run_done {disk : Bytes} {pak : Archive} (hfp : pak.fp = true) (lens : List ℕ)
    {r : Reader} (h : r.remaining = 0) : reader_run disk pak r lens = .ok [] := by
  induction lens with
  | nil => rfl
  | cons len lens ih =>
    have hread : pakka_reader_read disk pak r len = ⟨.ok, r, []⟩ := by
      unfold pakka_reader_read
      rw [if_neg (by simp [hfp]), if_pos (Or.inl h)]
    rw [reader_run_cons hread, ih]
    rfl

/-! ## Loaded archives

What an open of a PAK-class file establishes: entries within the file and not empty of name, names
pairwise different where the format wants it, a payload end behind all of them.
-/

/-- What holds of a PAK-class handle right after opening `disk`. -/
structure LoadedPak (disk : Bytes) (pak : Archive) : Prop where
  count : pak.entries.length = pak.num_entries.toNat
  tail : pak.tail = lastIndex pak.entries
  offset_ge : ∀ e ∈ pak.entries, PAKFILE_HEADER_SIZE ≤ e.offset.toNat ∨
    (pakka_format_is_wad pak.format = true ∧ e.length = 0)
  in_file : ∀ e ∈ pak.entries,
    e.offset.toNat + (pak_entry_on_disk_extent e).toNat ≤ disk.length
  name_fits : ∀ geom, pakka_pak_geometry pak.format = some geom →
    ∀ e ∈ pak.entries, e.filename.strlen ≤ geom.name_field_len
  nul_terminated : ∀ e ∈ pak.entries,
    e.filename.strlen < PAKKA_ENTRY_NAME_SIZE ∧ (0 : UInt8) ∉ e.filename.bytes
  nodup : pakka_format_is_wad pak.format = false → (pak.entries.map Entry.filename).Nodup
  payload_end : pak.payload_end = (pak.entries.map fun e =>
    e.offset.toNat + (pak_entry_on_disk_extent e).toNat).foldl max PAKFILE_HEADER_SIZE

/-- A row's name fits the name field. -/
theorem read_pak_row_name_le (format : Format) (geom : Geometry) (row : Bytes) :
    (read_pak_row format geom row).filename.strlen ≤ geom.name_field_len := by
  have hslice : ∀ off, (CStr.ofField (slice row off geom.name_field_len)).strlen ≤
      geom.name_field_len := by
    intro off
    refine Nat.le_trans (CStr.strlen_ofField_le _) ?_
    rw [length_slice]
    omega
  unfold read_pak_row
  simp only
  split
  · exact hslice 8
  · exact hslice 0

/-- What the range check lets through. -/
theorem pak_row_in_range_iff {format : Format} {file_size : ℕ} {e : Entry} :
    pak_row_in_range format file_size e = true ↔
      (PAKFILE_HEADER_SIZE ≤ e.offset.toNat ∨
        (pakka_format_is_wad format = true ∧ e.length = 0)) ∧ e.payloadEnd ≤ file_size := by
  unfold pak_row_in_range Entry.payloadEnd
  simp only [Bool.or_eq_false_iff, Bool.and_eq_false_iff,
    Bool.not_eq_eq_eq_not, Bool.not_true, Bool.not_false, decide_eq_false_iff_not,
    Bool.and_eq_true, decide_eq_true_eq, not_lt]
  constructor
  · rintro ⟨⟨h1 | h1, h2⟩, h3⟩
    · exact ⟨Or.inr h1, by omega⟩
    · exact ⟨Or.inl h1, by omega⟩
  · rintro ⟨h1 | h1, h2⟩
    · exact ⟨⟨Or.inr h1, by omega⟩, by omega⟩
    · exact ⟨⟨Or.inl h1, by omega⟩, by omega⟩

theorem max_payload_end_eq (start : ℕ) (es : List Entry) :
    max_payload_end start es = (es.map Entry.payloadEnd).foldl max start := by
  rw [max_payload_end, List.foldl_map]

/-- The handle of an explicit open satisfies the invariant. -/
theorem opened_pak_loaded {mode : OpenMode} {format : Format} {geom : Geometry} {disk : Bytes}
    {diroffset dirlength : UInt32} (hg : pakka_pak_geometry format = some geom)
    (h : PakDirectory disk format geom diroffset dirlength) :
    LoadedPak disk (opened_pak mode format geom disk diroffset dirlength) := by
  obtain ⟨-, hcount⟩ := row_count_eq hg dirlength
  obtain ⟨-, hname, -, -⟩ := geometry_bounds hg
  have hrange := fun e he => pak_row_in_range_iff.mp (h.in_range e he)
  have hfits : ∀ e ∈ (opened_pak mode format geom disk diroffset dirlength).entries,
      e.filename.strlen ≤ geom.name_field_len := by
    intro e he
    obtain ⟨row, -, rfl⟩ := List.mem_map.mp he
    exact read_pak_row_name_le format geom row
  refine ⟨?_, rfl, fun e he => (hrange e he).1, fun e he => (hrange e he).2, ?_, ?_, h.nodup,
    max_payload_end_eq _ _⟩
  · simp only [opened_pak, length_pak_row_entries, hcount]
  · intro geom' hg' e he
    obtain rfl := Option.some.inj (hg.symm.trans hg')
    exact hfits e he
  · intro e he
    have := hfits e he
    exact ⟨by simp only [PAKKA_ENTRY_NAME_SIZE]; omega, e.filename.no_nul⟩

/-- The invariant does not look at the hint. -/
theorem LoadedPak.of_hint {disk : Bytes} {pak : Archive} (hint : Format)
    (h : LoadedPak disk { pak with format_hint := hint }) : LoadedPak disk pak :=
  ⟨h.count, h.tail, h.offset_ge, h.in_file, h.name_fits, h.nul_terminated, h.nodup, h.payload_end⟩

/-- Every PAK-class open is an explicit one, whatever the hint was. -/
theorem open_pak_class {path : CStr} {mode : OpenMode} {hint : Format} {disk : Bytes}
    {pak : Archive} (hhint : IsPakClass hint ∨ hint = .auto ∧ IsPakClass pak.format)
    (h : pakka_open_ex path mode hint (some disk) = .ok pak) :
    ∃ geom diroffset dirlength, pakka_pak_geometry pak.format = some geom ∧
      PakDirectory disk pak.format geom diroffset dirlength ∧
      { pak with format_hint := pak.format } =
        opened_pak mode pak.format geom disk diroffset dirlength := by
  rcases hhint with hh | ⟨rfl, hcls⟩
  · obtain ⟨geom, hg⟩ := Option.isSome_iff_exists.mp hh
    obtain ⟨-, diroffset, dirlength, hd, rfl⟩ := (open_pak_iff hg).mp h
    exact ⟨geom, diroffset, dirlength, hg, hd, rfl⟩
  · obtain ⟨geom, hg⟩ := Option.isSome_iff_exists.mp hcls
    obtain ⟨-, diroffset, dirlength, hd, heq⟩ := (open_pak_iff hg).mp (open_auto_pak h hcls)
    exact ⟨geom, diroffset, dirlength, hg, hd, heq⟩

/-- A ZIP hint opens ZIP archives only. -/
theorem open_pak_class_hint {path : CStr} {mode : OpenMode} {hint : Format} {disk : Bytes}
    {pak : Archive} (hcls : IsPakClass pak.format)
    (h : pakka_open_ex path mode hint (some disk) = .ok pak) :
    IsPakClass hint ∨ hint = .auto ∧ IsPakClass pak.format := by
  by_cases hh : IsPakClass hint
  · exact Or.inl hh
  right
  refine ⟨?_, hcls⟩
  obtain ⟨geom, hg⟩ := Option.isSome_iff_exists.mp hcls
  by_contra hauto
  have hzip : hint = .pk3 ∨ hint = .pk4 := by
    cases hint <;> simp_all [IsPakClass, pakka_pak_geometry]
  simp only [pakka_open_ex, ite_error_eq_ok, except_bind_eq_ok, orError_eq_ok,
    except_pure_eq_ok] at h
  obtain ⟨-, disk', -, pak1, hload, pak2, hdir, -, -, rfl⟩ := h
  simp only [load_pakfile, except_bind_eq_ok, orError_eq_ok] at hload
  obtain ⟨sig, -, hload⟩ := hload
  have hz := not_zip_of_geometry hg
  by_cases hm : is_zip_magic sig = true
  · rw [if_pos hm, ite_error_eq_ok] at hload
    rw [load_entries_format hdir, pakka_pk3_open_impl_format hload.2] at hz
    exact Bool.false_ne_true (hz.symm.trans (zip_format_is_zip path hint))
  · rw [if_neg hm] at hload
    simp only [load_pak_class, except_bind_eq_ok] at hload
    obtain ⟨f, hf, -⟩ := hload
    simp only [pak_format_of_signature, open_initial] at hf
    rcases hzip with rfl | rfl <;> split_ifs at hf <;> simp_all

/-- What opening a PAK-class archive hands over: a live handle with every entry on disk, and
compressed ones in Daikatana archives only. -/
structure FreshPak (disk : Bytes) (pak : Archive) : Prop where
  invariant : LoadedPak disk pak
  live : pak.fp = true
  on_disk : ∀ e ∈ pak.entries, e.staged = false
  compressed : ∀ e ∈ pak.entries, e.dk_is_compressed = true → pak.format = .daikatana

/-- What a directory row becomes. -/
theorem read_pak_row_fresh {format : Format} {geom : Geometry} {row : Bytes}
    (hg : pakka_pak_geometry format = some geom) :
    (read_pak_row format geom row).staged = false ∧
      ((read_pak_row format geom row).dk_is_compressed = true → format = .daikatana) := by
  unfold read_pak_row
  simp only
  split
  · exact ⟨rfl, fun h => by cases h⟩
  · refine ⟨rfl, fun h => ?_⟩
    rw [Bool.and_eq_true] at h
    exact (geometry_has_compression hg).mp h.1

/-- **Opening hands over a fresh handle.** -/
theorem open_pak_fresh {path : CStr} {mode : OpenMode} {hint : Format} {disk : Bytes}
    {pak : Archive} (hcls : IsPakClass pak.format)
    (h : pakka_open_ex path mode hint (some disk) = .ok pak) : FreshPak disk pak := by
  obtain ⟨geom, diroffset, dirlength, hg, hd, heq⟩ :=
    open_pak_class (open_pak_class_hint hcls h) h
  have hents : pak.entries =
      (opened_pak mode pak.format geom disk diroffset dirlength).entries := by
    rw [← heq]
  refine ⟨LoadedPak.of_hint pak.format ?_, ?_, fun e he => ?_, fun e he => ?_⟩
  · rw [heq]
    exact opened_pak_loaded hg hd
  · have := congrArg Archive.fp heq
    exact this
  · rw [hents] at he
    obtain ⟨row, -, rfl⟩ := List.mem_map.mp he
    exact (read_pak_row_fresh hg).1
  · rw [hents] at he
    obtain ⟨row, -, rfl⟩ := List.mem_map.mp he
    exact (read_pak_row_fresh hg).2

/-- **The loader invariant.** Whatever file opens as a PAK-class archive, the handle's list,
tail, offsets, names and payload end are in order, and every uncompressed entry reads to its
end in any chunk sizes without coming up short. -/
theorem loader_invariant (path : CStr) (mode : OpenMode) (hint : Format) (disk : Bytes)
    (pak : Archive) (hhint : IsPakClass hint ∨ hint = .auto ∧ IsPakClass pak.format)
    (h : pakka_open_ex path mode hint (some disk) = .ok pak) :
    LoadedPak disk pak ∧
      ∀ e ∈ pak.entries, e.dk_is_compressed = false →
        ∀ df sources, Delivers df sources disk pak e (slice disk e.offset.toNat e.length.toNat) := by
  obtain ⟨geom, -, -, hg, -, -⟩ := open_pak_class hhint h
  have hf := open_pak_fresh (Option.isSome_iff_exists.mpr ⟨geom, hg⟩) h
  refine ⟨hf.invariant, ?_⟩
  intro e he hdk df sources
  have hin := hf.invariant.in_file e he
  have hfp := hf.live
  rw [pak_entry_on_disk_extent, hdk, if_neg (by simp)] at hin
  have hopen : pakka_open_entry_handle df sources disk pak e =
      .ok { next_offset := e.offset.toNat, remaining := e.length.toNat } := by
    unfold pakka_open_entry_handle
    rw [if_neg (by simpa using hfp), not_zip_of_geometry hg, if_neg (by simp),
      hf.on_disk e he, if_neg (by simp), hdk, if_neg (by simp)]
  exact ⟨_, hopen, fun lens => reader_run_streams hfp lens ⟨rfl, rfl, hin⟩⟩

/-- A one-lump WAD file. -/
def tiny_wad : Bytes :=
  ascii "IWAD" ++ [1, 0, 0, 0, 15, 0, 0, 0] ++ [7, 8, 9] ++
    [12, 0, 0, 0, 3, 0, 0, 0] ++ ascii "LUMP" ++ [0, 0, 0, 0]

/-- The handle it opens as under an `auto` hint. -/
def tiny_wad_pak : Archive :=
  { opened_pak .read .iwad ⟨[0x49, 0x57, 0x41, 0x44], 8, 16, false⟩ tiny_wad 15 16 with
    format_hint := .auto }

/-- The invariant at a file that opens: it has one lump, and the lump reads. -/
theorem loader_invariant_tiny_wad :
    tiny_wad_pak.entries.length = 1 ∧ LoadedPak tiny_wad tiny_wad_pak ∧
      ∀ e ∈ tiny_wad_pak.entries, e.dk_is_compressed = false →
        ∀ df sources, Delivers df sources tiny_wad tiny_wad_pak e
          (slice tiny_wad e.offset.toNat e.length.toNat) :=
  ⟨by decide +kernel,
    loader_invariant CStr.empty .read .auto tiny_wad tiny_wad_pak (Or.inr (by decide))
      (by decide +kernel)⟩

end Pakka
