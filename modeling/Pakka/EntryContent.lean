/-
What the readers of an entry deliver, in terms of its item.

An entry on disk is read from the archive file or decoded from it, a staged one from its source or
its buffer, and for either family of formats by code of its own. But whatever opens delivers one
thing: the content of the item (`open_yields`). On disk it opens when the item has a content and the
decompression cap allows it (`pak_on_disk_opens_iff`, `zip_on_disk_opens_iff`). So what is known of
items under commits and calls is known of reading.

`Yields` is the notion that carries this: a reader yields some bytes if every sequence of reads
hands them out in order and then nothing. A lemma for each way to open an entry ends in it. Nothing
later looks into a reader again; interleaved readers, the staged view and the cap all start from
`open_yields`.
-/
import Pakka.StagedBuffers
import Pakka.VerifySound

set_option autoImplicit false

namespace Pakka

open ByteImage

variable {df : Deflate} {sources : CStr → SourceView} {disk : Bytes} {pak : Archive} {e : Entry}
  {r : Reader}

/-! ## Content

An entry has a content if its stored bytes can be decoded. A reader yields bytes if every run of
reads hands them out in order, whatever the sizes asked for, and stops at their end.
-/

/-- The bytes a source holds for a reader that opens it. -/
def streams_of (sources : CStr → SourceView) (path : CStr) : Bytes :=
  ((sources path).stream).getD []

/-- The decoded payload of an entry. -/
def entry_content (df : Deflate) (sources : CStr → Bytes) (disk : Bytes) (format : Format)
    (e : Entry) : Option Bytes :=
  if pakka_format_is_zip format then (zip_item sources disk e).content df
  else (pak_item sources disk e).content

/-- What a reader still has to deliver, and from where: the rest of a range of the archive file,
the rest of a buffer, or nothing. -/
inductive Yields (disk : Bytes) (r : Reader) (content : Bytes) : Prop where
  | streams (h : Streams disk r) (hc : content = slice disk r.next_offset r.remaining) :
      Yields disk r content
  | serves {buf : Bytes} (h : Serves buf r) (hc : content = buf.drop r.inflated_cursor) :
      Yields disk r content
  | done (h : r.remaining = 0) (hc : content = []) : Yields disk r content

/-- **One read** delivers the next bytes, as many as asked for or as many as are left, and leaves a
reader that still has to deliver the rest. -/
theorem Yields.read {content : Bytes} (hfp : pak.fp = true) (h : Yields disk r content)
    (len : ℕ) : ∃ r', pakka_reader_read disk pak r len = ⟨.ok, r', content.take len⟩ ∧
      Yields disk r' (content.drop len) := by
  cases h with
  | streams h hc =>
    rw [pakka_reader_read_streams hfp h len, ← take_slice, ← hc]
    refine ⟨_, rfl, .streams (h.advance len) ?_⟩
    rw [hc, drop_slice]
    rcases Nat.le_total len r.remaining with hle | hle
    · rw [Nat.min_eq_left hle]
    · have h0 : r.remaining - len = 0 := by omega
      have h1 : r.remaining - min len r.remaining = 0 := by omega
      rw [h0, h1, slice_zero_len, slice_zero_len]
  | @serves buf h hc =>
    have hrest := h.rest
    have hbytes : slice buf r.inflated_cursor (min len r.remaining) = content.take len := by
      rw [hc, slice, List.take_eq_take_iff, List.length_drop]
      omega
    rw [pakka_reader_read_serves hfp h len, hbytes]
    refine ⟨_, rfl, .serves (h.advance len) ?_⟩
    rw [hc, List.drop_drop]
    rcases Nat.le_total len r.remaining with hle | hle
    · rw [Nat.min_eq_left hle]
    · rw [List.drop_of_length_le (by omega), List.drop_of_length_le (by simp only; omega)]
  | done h hc =>
    refine ⟨r, ?_, .done h (by rw [hc, List.drop_nil])⟩
    unfold pakka_reader_read
    rw [if_neg (by simp [hfp]), if_pos (Or.inl h), hc, List.take_nil]

/-- **Any chunk sizes.** A run of reads delivers the content from the front. -/
theorem Yields.run {content : Bytes} (hfp : pak.fp = true) (lens : List ℕ)
    (h : Yields disk r content) :
    reader_run disk pak r lens = .ok (content.take lens.sum) := by
  induction lens generalizing r content with
  | nil => simp [reader_run]
  | cons len lens ih =>
    obtain ⟨r', hread, hrest⟩ := h.read hfp len
    rw [reader_run_cons hread, ih hrest, List.sum_cons]
    simp only [Except.map]
    rw [List.take_add]

/-! ## PAK-class entries

Uncompressed entries stream from the file. A Daikatana entry that is compressed is decoded into a
buffer first, and so is what is staged from memory.
-/

/-- The empty payload decodes to nothing only. -/
theorem pakka_dk_inflate_nil {out : Bytes} {n : ℕ} (h : pakka_dk_inflate [] n = .ok out) :
    out = [] := by
  unfold pakka_dk_inflate at h
  simp only [List.length_nil, dk_inflate_loop, ite_error_eq_ok, Except.ok.injEq] at h
  exact h.2.symm

/-- What a reader finds staged. -/
theorem read_pending_ok {n : ℕ} {bs : Bytes} (h : read_pending sources e n = .ok bs) :
    (∃ path, e.pending_source = some path ∧ bs = (streams_of sources path).take n ∧
        bs.length = n) ∨
      e.pending_source = none ∧ bs = (e.pending_data.getD []).take n := by
  unfold read_pending at h
  cases hs : e.pending_source with
  | none =>
    rw [hs] at h
    obtain rfl := Except.ok.inj h
    exact Or.inr ⟨rfl, rfl⟩
  | some path =>
    rw [hs] at h
    simp only [except_bind_eq_ok, orError_eq_ok] at h
    obtain ⟨_, -, stream, hst, hread⟩ := h
    obtain ⟨rfl, hlen⟩ := readExact_eq_some.mp hread
    refine Or.inl ⟨path, rfl, ?_, hlen⟩
    rw [streams_of, hst]
    rfl

/-- What a staged entry has: a source, or a buffer. -/
theorem staged_cases (hstage : e.pending_source = none ∨ e.pending_data = none)
    (hs : e.staged = true) :
    (∃ path, e.pending_source = some path ∧ e.pending_data = none) ∨
      ∃ data, e.pending_source = none ∧ e.pending_data = some data := by
  rcases hstage with h | h
  · obtain ⟨data, hd⟩ : ∃ data, e.pending_data = some data := by
      simpa [Entry.staged, h, Option.isSome_iff_exists] using hs
    exact Or.inr ⟨data, h, hd⟩
  · obtain ⟨path, hp⟩ : ∃ path, e.pending_source = some path := by
      simpa [Entry.staged, h, Option.isSome_iff_exists] using hs
    exact Or.inl ⟨path, hp, h⟩

theorem toNat_eq_zero {w : UInt32} : w.toNat = 0 ↔ w = 0 := by
  rw [← UInt32.toNat_inj]
  rfl

/-- A buffer that is served from its start. -/
theorem Yields.of_buffer {content : Bytes} {next remaining len : ℕ}
    (hrem : remaining = content.length) (hlen : len = content.length) :
    Yields disk ⟨next, remaining, some content, len, 0⟩ content :=
  .serves ⟨rfl, hlen, by rw [Nat.zero_add]; exact hrem⟩ (List.drop_zero).symm

/-- **A PAK-class entry with a staged source that opens** delivers the source. -/
theorem pak_source_yields {geom : Geometry} {path : CStr} (hok : PakEntryOk pak geom e)
    (hp : e.pending_source = some path)
    (hopen : pak_open_pending_reader sources pak
      { next_offset := e.offset.toNat, remaining := e.length.toNat } e = .ok r) :
    ∃ content, (pak_item (streams_of sources) disk e).content = some content ∧
      content.length = e.length.toNat ∧ Yields disk r content := by
  have hdk : e.dk_is_compressed = false := hok.source (by rw [hp]; rfl)
  have hext : pak_entry_on_disk_extent e = e.length := by
    rw [pak_entry_on_disk_extent, hdk, if_neg (by simp)]
  have hitem : (pak_item (streams_of sources) disk e).content =
      some ((streams_of sources path).take e.length.toNat) := by
    simp [pak_item, pak_stored, PakItem.content, hp, hdk]
  rw [hitem]
  unfold pak_open_pending_reader at hopen
  simp only [hext, hdk, Bool.false_eq_true, if_false] at hopen
  by_cases h0 : e.length = 0
  · rw [if_pos h0] at hopen
    obtain rfl := Except.ok.inj hopen
    rw [h0]
    exact ⟨[], by simp, rfl, .done rfl rfl⟩
  · rw [if_neg h0] at hopen
    simp only [except_bind_eq_ok, except_pure_eq_ok] at hopen
    obtain ⟨buf, hbuf, rfl⟩ := hopen
    rcases read_pending_ok hbuf with ⟨path', hp', rfl, hlen⟩ | ⟨hn, -⟩
    · obtain rfl := Option.some.inj (hp.symm.trans hp')
      exact ⟨_, rfl, hlen, .of_buffer hlen.symm hlen.symm⟩
    · rw [hp] at hn
      cases hn

/-- **A PAK-class entry with a staged buffer that opens** delivers what the buffer holds. -/
theorem pak_data_yields {geom : Geometry} {data : Bytes} (hok : PakEntryOk pak geom e)
    (hdec : BufferDecodes e) (hp : e.pending_source = none) (hd : e.pending_data = some data)
    (hopen : pak_open_pending_reader sources pak
      { next_offset := e.offset.toNat, remaining := e.length.toNat } e = .ok r) :
    ∃ content, (pak_item (streams_of sources) disk e).content = some content ∧
      content.length = e.length.toNat ∧ Yields disk r content := by
  obtain ⟨content, hcontent, hlen⟩ := hdec data hd
  have hitem : pak_item (streams_of sources) disk e =
      ⟨e.length, e.dk_is_compressed, e.dk_compressed_size, data⟩ := by
    simp [pak_item, pak_stored, hp, hd]
  have hsize := hok.data data hd
  rw [hitem]
  refine ⟨content, hcontent, hlen.symm, ?_⟩
  unfold PakItem.content at hcontent
  simp only at hcontent
  unfold pak_open_pending_reader at hopen
  simp only at hopen
  by_cases h0 : pak_entry_on_disk_extent e = 0
  · rw [if_pos h0] at hopen
    obtain rfl := Except.ok.inj hopen
    rw [h0] at hsize
    obtain rfl := List.eq_nil_of_length_eq_zero hsize.symm
    -- nothing is stored, so nothing may be delivered: the decoder makes nothing of nothing
    refine .done rfl ?_
    split_ifs at hcontent
    · split at hcontent
      · rename_i out hout
        rw [← Option.some.inj hcontent]
        exact pakka_dk_inflate_nil hout
      · cases hcontent
    · exact (Option.some.inj hcontent).symm
  rw [if_neg h0] at hopen
  simp only [except_bind_eq_ok] at hopen
  obtain ⟨buf, hbuf, hopen⟩ := hopen
  obtain rfl : buf = data := by
    rcases read_pending_ok hbuf with ⟨path, hp', -⟩ | ⟨-, rfl⟩
    · rw [hp] at hp'
      cases hp'
    · rw [hd, Option.getD_some, hsize, List.take_length]
  by_cases hdk : e.dk_is_compressed = true
  · rw [if_pos hdk, ite_error_eq_ok] at hopen
    rw [if_pos hdk] at hcontent
    obtain ⟨-, hopen⟩ := hopen
    by_cases hl0 : e.length = 0
    · rw [if_pos hl0] at hopen
      obtain rfl := Except.ok.inj hopen
      refine .done rfl (List.eq_nil_of_length_eq_zero ?_)
      rw [← hlen, hl0]
      rfl
    · rw [if_neg hl0] at hopen
      simp only [except_bind_eq_ok, except_pure_eq_ok] at hopen
      obtain ⟨out, hout, rfl⟩ := hopen
      rw [hout] at hcontent
      obtain rfl := Option.some.inj hcontent
      exact .of_buffer hlen hlen
  · rw [if_neg hdk] at hopen hcontent
    obtain rfl := Except.ok.inj hopen
    obtain rfl := Option.some.inj hcontent
    exact .of_buffer hlen hsize

/-- Only Daikatana entries are compressed. -/
theorem PakEntryOk.daikatana {geom : Geometry} (hg : pakka_pak_geometry pak.format = some geom)
    (hok : PakEntryOk pak geom e) (hdk : e.dk_is_compressed = true) : pak.format = .daikatana := by
  by_contra hne
  have hplain : geom.has_compression = false := by
    rw [← Bool.not_eq_true, geometry_has_compression hg]
    exact hne
  rw [(hok.plain hplain).1] at hdk
  cases hdk

/-- An entry on disk is not waiting for anything. -/
theorem on_disk_none (hs : e.staged = false) :
    e.pending_source = none ∧ e.pending_data = none := by
  simpa [Entry.staged, Option.isSome_eq_false_iff] using hs

/-- **A PAK-class entry on disk that opens** delivers its payload, or what it decodes to. -/
theorem pak_on_disk_yields {geom : Geometry} (hg : pakka_pak_geometry pak.format = some geom)
    (hok : PakEntryOk pak geom e) (hin : pak.payload_end ≤ disk.length) (hs : e.staged = false)
    (hopen : pakka_open_entry_handle df sources disk pak e = .ok r) :
    ∃ content, (pak_item (streams_of sources) disk e).content = some content ∧
      content.length = e.length.toNat ∧ Yields disk r content := by
  have hz := not_zip_of_geometry hg
  have hend := hok.before_end hs
  have hnone := on_disk_none hs
  have hstored : pak_stored (streams_of sources) disk e = e.payload disk := by
    simp [pak_stored, hnone.1, hnone.2]
  unfold Entry.payloadEnd at hend
  unfold pakka_open_entry_handle at hopen
  simp only [hz, hs, ite_error_eq_ok, Bool.false_eq_true, if_false] at hopen
  obtain ⟨-, hopen⟩ := hopen
  by_cases hdk : e.dk_is_compressed = true
  · have hformat := hok.daikatana hg hdk
    have hext : pak_entry_on_disk_extent e = e.dk_compressed_size := by
      rw [pak_entry_on_disk_extent, if_pos hdk]
    rw [hext] at hend
    simp only [hformat, hdk, and_self, if_true, ite_error_eq_ok, except_bind_eq_ok,
      orError_eq_ok] at hopen
    obtain ⟨-, compressed, hread, out, hout, hopen⟩ := hopen
    have hlen := pakka_dk_inflate_length hout
    obtain ⟨rfl, -⟩ := readExact_eq_some.mp hread
    refine ⟨out, ?_, hlen, ?_⟩
    · simp only [PakItem.content, pak_item, hstored, hdk, if_true, Entry.payload, hext, hout]
    · by_cases h0 : e.length = 0
      · rw [if_pos h0] at hopen
        obtain rfl := except_pure_eq_ok.mp hopen
        rw [h0] at hlen
        exact .done (by simp only [h0]; rfl) (List.eq_nil_of_length_eq_zero hlen)
      · rw [if_neg h0] at hopen
        obtain rfl := except_pure_eq_ok.mp hopen
        exact .of_buffer hlen.symm hlen.symm
  · have hext : pak_entry_on_disk_extent e = e.length := by
      rw [pak_entry_on_disk_extent, if_neg hdk]
    rw [hext] at hend
    rw [if_neg (by rintro ⟨-, hx⟩; exact hdk hx)] at hopen
    obtain rfl := Except.ok.inj hopen
    refine ⟨slice disk e.offset.toNat e.length.toNat, ?_, length_slice_of_le (by omega),
      .streams ⟨rfl, rfl, by simp only; omega⟩ rfl⟩
    simp only [PakItem.content, pak_item, hstored, if_neg hdk, Entry.payload, hext]

/-! ## ZIP entries

Stored or deflated, from the file or staged. A deflated entry is inflated as a whole when it is
opened.
-/

/-- What a checked payload inflated to is the content of the item. -/
theorem zip_content_of_inflated {x : ZipItem} {out : Bytes} {csize : ℕ}
    (hmethod : ¬ x.method = PK3_METHOD_STORED) (hsize : x.stored.length = csize)
    (h : pk3_inflate_checked df x.stored x.length.toNat csize = .ok out) :
    x.content df = some out ∧ out.length = x.length.toNat := by
  obtain ⟨hinf, hlen⟩ := pk3_inflate_checked_ok.mp h
  unfold ZipItem.content
  rw [if_neg hmethod, hinf]
  simp only [hlen, hsize, and_self, if_true]

/-- A reader that has the decoded payload, unless there is none. -/
theorem Yields.of_decoded {out : Bytes} {next : ℕ} {len : UInt32}
    (hlen : out.length = len.toNat)
    (hr : (if len = 0 then pure { next_offset := next, remaining := len.toNat }
      else pure { next_offset := next, remaining := len.toNat, inflated_buf := some out,
                  inflated_len := len.toNat } : Except Status Reader) = .ok r) :
    Yields disk r out := by
  by_cases h0 : len = 0
  · rw [if_pos h0] at hr
    obtain rfl := except_pure_eq_ok.mp hr
    rw [h0] at hlen
    exact .done (by simp only [h0]; rfl) (List.eq_nil_of_length_eq_zero hlen)
  · rw [if_neg h0] at hr
    obtain rfl := except_pure_eq_ok.mp hr
    exact .of_buffer hlen.symm hlen.symm

/-- **A staged ZIP entry that opens** delivers the content of its item. -/
theorem zip_pending_yields (hdf : df.NothingFromNothing) {n : ℕ} (hok : ZipEntryOk n e)
    (hrec : BufferRecorded df e) (hs : e.staged = true)
    (hopen : pakka_pk3_open_entry_impl df sources disk pak e = .ok r) :
    ∃ content, (zip_item (streams_of sources) disk e).content df = some content ∧
      content.length = e.length.toNat ∧ Yields disk r content := by
  unfold pakka_pk3_open_entry_impl at hopen
  simp only [hs, ite_error_eq_ok, if_true] at hopen
  obtain ⟨-, hopen⟩ := hopen
  rcases staged_cases hok.one_stage hs with ⟨path, hp, hd⟩ | ⟨data, hp, hd⟩
  · -- a source is stored as it is
    have hmethod := hok.source (by rw [hp]; rfl)
    have hsize := hok.stored hmethod
    have hdeflate : ¬ e.pk3_method = PK3_METHOD_DEFLATE := by
      rw [hmethod]
      decide
    have hitem : (zip_item (streams_of sources) disk e).content df =
        some ((streams_of sources path).take e.length.toNat) := by
      simp [zip_item, zip_stored, ZipItem.content, hp, hmethod, hsize]
    rw [hitem]
    rw [hsize] at hopen
    by_cases h0 : e.length = 0
    · rw [if_pos h0] at hopen
      obtain rfl := Except.ok.inj hopen
      rw [h0]
      exact ⟨[], by simp, rfl, .done rfl rfl⟩
    · rw [if_neg h0] at hopen
      simp only [except_bind_eq_ok, if_neg hdeflate, except_pure_eq_ok] at hopen
      obtain ⟨buf, hbuf, rfl⟩ := hopen
      rcases read_pending_ok hbuf with ⟨path', hp', rfl, hlen⟩ | ⟨hn, -⟩
      · obtain rfl := Option.some.inj (hp.symm.trans hp')
        exact ⟨_, rfl, hlen, .of_buffer hlen.symm hlen.symm⟩
      · rw [hp] at hn
        cases hn
  -- a buffer holds what the add has stored or encoded, and its numbers are right
  · obtain ⟨⟨content, hcontent, hlen, hcsize, -⟩, -⟩ := hrec data hd
    have hitem : zip_item (streams_of sources) disk e =
        ⟨e.pk3_method, e.crc32, e.pk3_compressed_size, e.length, data⟩ := by
      simp [zip_item, zip_stored, hp, hd]
    simp only at hlen hcsize
    rw [hitem]
    refine ⟨content, hcontent, hlen.symm, ?_⟩
    by_cases h0 : e.pk3_compressed_size = 0
    · rw [if_pos h0] at hopen
      obtain rfl := Except.ok.inj hopen
      rw [h0] at hcsize
      obtain rfl := List.eq_nil_of_length_eq_zero hcsize.symm
      -- no stored bytes: what opens is at its end, so the content must be empty as well
      refine .done rfl ?_
      unfold ZipItem.content at hcontent
      simp only at hcontent
      split_ifs at hcontent
      · exact (Option.some.inj hcontent).symm
      · split at hcontent
        · rename_i out used hinf
          split_ifs at hcontent
          rw [← Option.some.inj hcontent]
          exact hdf hinf
        · cases hcontent
    · rw [if_neg h0] at hopen
      simp only [except_bind_eq_ok] at hopen
      obtain ⟨buf, hbuf, hopen⟩ := hopen
      obtain rfl : buf = data := by
        rcases read_pending_ok hbuf with ⟨path, hp', -⟩ | ⟨-, rfl⟩
        · rw [hp] at hp'
          cases hp'
        · rw [hd, Option.getD_some, hcsize, List.take_length]
      by_cases hdeflate : e.pk3_method = PK3_METHOD_DEFLATE
      · rw [if_pos hdeflate] at hopen
        simp only [except_bind_eq_ok] at hopen
        obtain ⟨out, hout, hopen⟩ := hopen
        have hstored : ¬ e.pk3_method = PK3_METHOD_STORED := by
          rw [hdeflate]
          decide
        obtain ⟨hc, hol⟩ := zip_content_of_inflated
          (x := ⟨e.pk3_method, e.crc32, e.pk3_compressed_size, e.length, buf⟩) hstored
          hcsize.symm hout
        obtain rfl := Option.some.inj (hcontent.symm.trans hc)
        exact .of_decoded hol hopen
      · have hstored := hok.method.resolve_right hdeflate
        rw [if_neg hdeflate] at hopen
        obtain rfl := except_pure_eq_ok.mp hopen
        unfold ZipItem.content at hcontent
        rw [if_pos hstored] at hcontent
        obtain rfl := Option.some.inj hcontent
        exact .of_buffer hlen hcsize

/-- **A ZIP entry on disk that opens** delivers its payload, or what it inflates to. -/
theorem zip_on_disk_yields (hok : ZipEntryOk disk.length e) (hs : e.staged = false)
    (hopen : pakka_pk3_open_entry_impl df sources disk pak e = .ok r) :
    ∃ content, (zip_item (streams_of sources) disk e).content df = some content ∧
      content.length = e.length.toNat ∧ Yields disk r content := by
  have hin := hok.in_file hs
  have hnone := on_disk_none hs
  have hstored : zip_stored (streams_of sources) disk e =
      slice disk e.pk3_payload_offset.toNat e.pk3_compressed_size.toNat := by
    simp [zip_stored, hnone.1, hnone.2]
  unfold pakka_pk3_open_entry_impl at hopen
  simp only [hs, ite_error_eq_ok, Bool.false_eq_true, if_false] at hopen
  obtain ⟨-, hopen⟩ := hopen
  by_cases hm : e.pk3_method = PK3_METHOD_STORED
  · rw [if_pos hm] at hopen
    obtain rfl := Except.ok.inj hopen
    rw [hok.stored hm] at hin hstored
    refine ⟨_, ?_, length_slice_of_le hin, .streams ⟨rfl, rfl, hin⟩ rfl⟩
    simp only [ZipItem.content, zip_item, if_pos hm, hstored]
  · rw [if_neg hm] at hopen
    simp only [ite_error_eq_ok, except_bind_eq_ok, orError_eq_ok] at hopen
    obtain ⟨-, compressed, hread, out, hout, hopen⟩ := hopen
    obtain ⟨rfl, hcl⟩ := readExact_eq_some.mp hread
    have hx : (zip_item (streams_of sources) disk e).stored.length =
        e.pk3_compressed_size.toNat := by
      simp only [zip_item, hstored, hcl]
    obtain ⟨hc, hol⟩ := zip_content_of_inflated (x := zip_item (streams_of sources) disk e) hm hx
      (by simp only [zip_item, hstored]; exact hout)
    exact ⟨out, hc, hol, .of_decoded hol hopen⟩

/-! ## Both families

What every reached handle guarantees of its entries, and from there the statements that do not
depend on the family.
-/

/-- An entry in order, of a handle whose file has `n` bytes, with the staged buffer that was
recorded for it. -/
inductive EntryReady (df : Deflate) (n : ℕ) (pak : Archive) (e : Entry) : Prop where
  | pak {geom : Geometry} (hg : pakka_pak_geometry pak.format = some geom)
      (hok : PakEntryOk pak geom e) (hin : pak.payload_end ≤ n) (hdec : BufferDecodes e) :
      EntryReady df n pak e
  | zip (hz : pakka_format_is_zip pak.format = true) (hok : ZipEntryOk n e)
      (hrec : BufferRecorded df e) : EntryReady df n pak e

/-- The entries of a reached handle that has its file are ready to be read. -/
theorem Reached.ready {s : Session} (h : Reached s) (hrec : Recorded df s.pak)
    (hfp : s.pak.fp = true) {e : Entry} (he : e ∈ s.pak.entries) :
    EntryReady df s.disk.length s.pak e := by
  cases h with
  | lost hlost =>
    rw [hfp] at hlost
    cases hlost
  | pak hl =>
    have hstate := hl.disk_state
    have hcls : IsPakClass s.pak.format := Option.isSome_iff_exists.mpr ⟨_, hstate.geometry⟩
    exact .pak hstate.geometry (hstate.entries e he) hstate.end_in_file
      (hrec.decodes hfp hcls e he)
  | zip hl =>
    have hstate := hl.disk_state
    exact .zip hstate.zip (hstate.entries e he) (hrec.buffers hfp hstate.zip e he)

/-- A handle that opens an entry has its file. -/
theorem live_of_open (hopen : pakka_open_entry_handle df sources disk pak e = .ok r) :
    pak.fp = true := by
  unfold pakka_open_entry_handle at hopen
  simp only [ite_error_eq_ok] at hopen
  simpa using hopen.1

/-- **An entry that opens delivers its content**, which is as long as the entry says. -/
theorem open_yields (hdf : df.NothingFromNothing) (h : EntryReady df disk.length pak e)
    (hopen : pakka_open_entry_handle df sources disk pak e = .ok r) :
    ∃ content, entry_content df (streams_of sources) disk pak.format e = some content ∧
      content.length = e.length.toNat ∧ Yields disk r content := by
  have hfp := live_of_open hopen
  unfold entry_content
  cases h with
  | pak hg hok hin hdec =>
    have hz := not_zip_of_geometry hg
    rw [hz, if_neg (by simp)]
    cases hs : e.staged with
    | false => exact pak_on_disk_yields hg hok hin hs hopen
    | true =>
      unfold pakka_open_entry_handle at hopen
      rw [if_neg (by simp [hfp]), hz, if_neg (by simp), if_pos hs] at hopen
      rcases staged_cases hok.one_stage hs with ⟨path, hp, -⟩ | ⟨data, hp, hd⟩
      · exact pak_source_yields hok hp hopen
      · exact pak_data_yields hok hdec hp hd hopen
  | zip hz hok hrec =>
    rw [if_pos hz]
    unfold pakka_open_entry_handle at hopen
    rw [if_neg (by simp [hfp]), if_pos hz] at hopen
    cases hs : e.staged with
    | false => exact zip_on_disk_yields hok hs hopen
    | true => exact zip_pending_yields hdf hok hrec hs hopen

/-- Byte strings with the same beginnings are equal. -/
theorem eq_of_take_eq {a b : Bytes} (h : ∀ n, a.take n = b.take n) : a = b := by
  have hn := h (a.length + b.length)
  rwa [List.take_of_length_le (Nat.le_add_right _ _),
    List.take_of_length_le (Nat.le_add_left _ _)] at hn

/-- What an entry delivers, where it is known what its readers yield. -/
theorem delivers_iff_of_yields {x : Option Bytes}
    (hyields : ∀ r, pakka_open_entry_handle df sources disk pak e = .ok r →
      ∃ content, x = some content ∧ content.length = e.length.toNat ∧ Yields disk r content)
    {content : Bytes} : Delivers df sources disk pak e content ↔
      (∃ r, pakka_open_entry_handle df sources disk pak e = .ok r) ∧ x = some content := by
  constructor
  · rintro ⟨r, hopen, hrun⟩
    obtain ⟨c, rfl, -, hy⟩ := hyields r hopen
    refine ⟨⟨r, hopen⟩, ?_⟩
    congr 1
    apply eq_of_take_eq
    intro n
    have h1 := hrun [n]
    rw [hy.run (live_of_open hopen), List.sum_singleton] at h1
    exact Except.ok.inj h1
  · rintro ⟨⟨r, hopen⟩, hc⟩
    obtain ⟨c, rfl, -, hy⟩ := hyields r hopen
    obtain rfl := Option.some.inj hc
    exact ⟨r, hopen, fun lens => hy.run (live_of_open hopen) lens⟩

/-- **Reading an entry**: it opens, and what it delivers is its content. -/
theorem delivers_iff (hdf : df.NothingFromNothing) (h : EntryReady df disk.length pak e)
    {content : Bytes} : Delivers df sources disk pak e content ↔
      (∃ r, pakka_open_entry_handle df sources disk pak e = .ok r) ∧
        entry_content df (streams_of sources) disk pak.format e = some content :=
  delivers_iff_of_yields fun _ hopen => open_yields hdf h hopen

/-- The decompression cap allows an entry. -/
def within_cap (pak : Archive) (e : Entry) : Prop :=
  if pakka_format_is_zip pak.format then
    exceeds_cap pak.max_decompressed e.length e.pk3_compressed_size = false
  else e.dk_is_compressed = true →
    exceeds_cap pak.max_decompressed e.length e.dk_compressed_size = false

/-- **Which PAK-class entries on disk open**: those with a content, within the cap. -/
theorem pak_on_disk_opens_iff {geom : Geometry} (hg : pakka_pak_geometry pak.format = some geom)
    (hok : PakEntryOk pak geom e) (hin : pak.payload_end ≤ disk.length) (hs : e.staged = false)
    (hfp : pak.fp = true) :
    (∃ r, pakka_open_entry_handle df sources disk pak e = .ok r) ↔
      (pak_item (streams_of sources) disk e).content.isSome = true ∧ within_cap pak e := by
  have hz := not_zip_of_geometry hg
  have hend := hok.before_end hs
  obtain ⟨hn1, hn2⟩ := on_disk_none hs
  unfold Entry.payloadEnd at hend
  unfold within_cap
  rw [hz, if_neg (by simp)]
  constructor
  · rintro ⟨r, hopen⟩
    obtain ⟨content, hc, -⟩ := pak_on_disk_yields hg hok hin hs hopen
    rw [hc]
    refine ⟨rfl, fun hdk => ?_⟩
    unfold pakka_open_entry_handle at hopen
    simp only [hz, hs, ite_error_eq_ok, Bool.false_eq_true, if_false] at hopen
    rw [if_pos ⟨hok.daikatana hg hdk, hdk⟩, ite_error_eq_ok] at hopen
    simpa using hopen.2.1
  · rintro ⟨hsome, hcap⟩
    obtain ⟨content, hc⟩ := Option.isSome_iff_exists.mp hsome
    unfold pakka_open_entry_handle
    simp only [hfp, hz, hs, not_true_eq_false, Bool.false_eq_true, if_false]
    by_cases hdk : e.dk_is_compressed = true
    · have hext : pak_entry_on_disk_extent e = e.dk_compressed_size := by
        rw [pak_entry_on_disk_extent, if_pos hdk]
      rw [hext] at hend
      simp only [PakItem.content, pak_item, pak_stored, hn1, hn2, hdk, if_true, Entry.payload,
        hext] at hc
      rw [if_pos ⟨hok.daikatana hg hdk, hdk⟩, if_neg (by simp [hcap hdk]),
        readExact_of_le (by omega)]
      split at hc
      · rename_i out hout
        simp only [orError, bind, Except.bind, hout]
        split_ifs <;> exact ⟨_, rfl⟩
      · cases hc
    · rw [if_neg (by rintro ⟨-, hx⟩; exact hdk hx)]
      exact ⟨_, rfl⟩

/-- **Reading a PAK-class entry on disk.** -/
theorem pak_on_disk_delivers_iff {geom : Geometry}
    (hg : pakka_pak_geometry pak.format = some geom) (hok : PakEntryOk pak geom e)
    (hin : pak.payload_end ≤ disk.length) (hs : e.staged = false) (hfp : pak.fp = true)
    {content : Bytes} : Delivers df sources disk pak e content ↔
      (pak_item (streams_of sources) disk e).content = some content ∧ within_cap pak e := by
  rw [delivers_iff_of_yields fun _ hopen => pak_on_disk_yields hg hok hin hs hopen,
    pak_on_disk_opens_iff hg hok hin hs hfp]
  constructor
  · rintro ⟨⟨-, hcap⟩, hc⟩
    exact ⟨hc, hcap⟩
  · rintro ⟨hc, hcap⟩
    exact ⟨⟨by rw [hc]; rfl, hcap⟩, hc⟩

/-- **Which ZIP entries on disk open**: those with a content, within the cap, unless they claim to
be compressed from no bytes at all. -/
theorem zip_on_disk_opens_iff (hz : pakka_format_is_zip pak.format = true)
    (hok : ZipEntryOk disk.length e) (hs : e.staged = false) (hfp : pak.fp = true) :
    (∃ r, pakka_open_entry_handle df sources disk pak e = .ok r) ↔
      ((zip_item (streams_of sources) disk e).content df).isSome = true ∧ within_cap pak e ∧
        (e.pk3_method = PK3_METHOD_STORED ∨ e.pk3_compressed_size ≠ 0) := by
  have hin := hok.in_file hs
  obtain ⟨hn1, hn2⟩ := on_disk_none hs
  have himpl : pakka_open_entry_handle df sources disk pak e =
      pakka_pk3_open_entry_impl df sources disk pak e := by
    unfold pakka_open_entry_handle
    rw [if_neg (by simp [hfp]), if_pos hz]
  unfold within_cap
  rw [if_pos hz, himpl]
  constructor
  · rintro ⟨r, hopen⟩
    obtain ⟨content, hc, -⟩ := zip_on_disk_yields hok hs hopen
    rw [hc]
    unfold pakka_pk3_open_entry_impl at hopen
    simp only [hs, ite_error_eq_ok, Bool.false_eq_true, if_false] at hopen
    refine ⟨rfl, by simpa using hopen.1, ?_⟩
    by_cases hm : e.pk3_method = PK3_METHOD_STORED
    · exact Or.inl hm
    · rw [if_neg hm, ite_error_eq_ok] at hopen
      exact Or.inr hopen.2.1
  · rintro ⟨hsome, hcap, hbytes⟩
    obtain ⟨content, hc⟩ := Option.isSome_iff_exists.mp hsome
    unfold pakka_pk3_open_entry_impl
    simp only [hcap, hs, Bool.false_eq_true, if_false]
    by_cases hm : e.pk3_method = PK3_METHOD_STORED
    · rw [if_pos hm]
      exact ⟨_, rfl⟩
    · rw [if_neg hm, if_neg (hbytes.resolve_left hm), readExact_of_le hin]
      have hsl := length_slice_of_le hin
      simp only [ZipItem.content, zip_item, zip_stored, hn1, hn2, if_neg hm] at hc
      split at hc
      · rename_i out used hinf
        split_ifs at hc with hboth
        obtain ⟨hused, hlen⟩ := hboth
        have hout : pk3_inflate_checked df (slice disk e.pk3_payload_offset.toNat
            e.pk3_compressed_size.toNat) e.length.toNat e.pk3_compressed_size.toNat = .ok out := by
          obtain rfl := hused.trans hsl
          exact pk3_inflate_checked_ok.mpr ⟨hinf, hlen⟩
        simp only [orError, bind, Except.bind, hout]
        split_ifs <;> exact ⟨_, rfl⟩
      · cases hc

end Pakka
