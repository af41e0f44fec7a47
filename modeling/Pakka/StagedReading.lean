/-
Reading what is staged.

Before a commit an entry is read from its source or its buffer, which for a compressed one means
decoding what the add has encoded. This is its own code, and so are the limits it checks on the way.
Within the decompression cap it opens whenever the source can still be read, and then it delivers
the content of its item, as an entry on disk does.

The condition on the source is stated in terms of what reading it gives, since nothing else is known
of it. For buffers there is no condition.
-/
import Pakka.EntryContent
import Pakka.SourceBinding

set_option autoImplicit false

namespace Pakka

open ByteImage

variable {df : Deflate} {sources : CStr → SourceView} {disk : Bytes} {pak : Archive} {e : Entry}
  {env : Env}

/-! ## Reading what is staged

Opening and delivering, for a source and for a buffer, in either family.
-/

/-- A source that a commit copied can be read by a reader that finds the same. -/
theorem SourceCopied.readable {k : ℕ} {path : CStr} {size crc : UInt32}
    (h : SourceCopied env k path size crc) (hp : e.pending_source = some path) :
    ∃ bs, read_pending (env.view k) e size.toNat = .ok bs := by
  obtain ⟨pos, bs, hbs⟩ := h
  unfold copy_pending_source at hbs
  simp only [Logged.bind_res_ok, Logged.ofExcept_res] at hbs
  obtain ⟨found, hfound, hbs⟩ := hbs
  by_cases hne : found ≠ size.toNat
  · rw [if_pos hne] at hbs
    cases hbs
  rw [if_neg hne] at hbs
  simp only [Logged.bind_res_ok, Logged.ofOption_res_ok] at hbs
  obtain ⟨stream, hst, b, hb, -⟩ := hbs
  obtain ⟨hread, -⟩ := Logged.copyChunks_ok (by decide) _ hb
  refine ⟨b, ?_⟩
  unfold read_pending
  rw [hp]
  simp only [hfound, hst, orError, bind, Except.bind, hread]

/-- What is staged in a buffer can be read. -/
theorem read_pending_data {n : ℕ} {data : Bytes} (hp : e.pending_source = none)
    (hd : e.pending_data = some data) (hn : n = data.length) :
    read_pending sources e n = .ok data := by
  unfold read_pending
  rw [hp, hd, hn, Option.getD_some, slice_full]

/-- **A staged PAK-class entry opens**, within the cap, when its source can be read. -/
theorem pak_staged_opens {geom : Geometry} (hg : pakka_pak_geometry pak.format = some geom)
    (hok : PakEntryOk pak geom e) (hdec : BufferDecodes e) (hfp : pak.fp = true)
    (hs : e.staged = true) (hcap : within_cap pak e)
    (hread : ∀ path, e.pending_source = some path →
      ∃ bs, read_pending sources e e.length.toNat = .ok bs) :
    ∃ r, pakka_open_entry_handle df sources disk pak e = .ok r := by
  have hz := not_zip_of_geometry hg
  unfold within_cap at hcap
  rw [hz, if_neg (by simp)] at hcap
  unfold pakka_open_entry_handle
  rw [if_neg (by simp [hfp]), hz, if_neg (by simp), if_pos hs]
  unfold pak_open_pending_reader
  by_cases h0 : pak_entry_on_disk_extent e = 0
  · rw [if_pos h0]
    exact ⟨_, rfl⟩
  rw [if_neg h0]
  rcases staged_cases hok.one_stage hs with ⟨path, hp, -⟩ | ⟨data, hp, hd⟩
  · have hdk : e.dk_is_compressed = false := hok.source (by rw [hp]; rfl)
    have hext : pak_entry_on_disk_extent e = e.length := by
      rw [pak_entry_on_disk_extent, hdk, if_neg (by simp)]
    obtain ⟨bs, hbs⟩ := hread path hp
    simp only [hext, hbs, hdk, bind, Except.bind, Bool.false_eq_true, if_false]
    exact ⟨_, rfl⟩
  · have hbuf : read_pending sources e (pak_entry_on_disk_extent e).toNat = .ok data :=
      read_pending_data hp hd (hok.data data hd)
    obtain ⟨content, hcontent, -⟩ := hdec data hd
    simp only [hbuf, bind, Except.bind]
    by_cases hdk : e.dk_is_compressed = true
    · have hext : pak_entry_on_disk_extent e = e.dk_compressed_size := by
        rw [pak_entry_on_disk_extent, if_pos hdk]
      rw [if_pos hdk, hext, if_neg (by simp [hcap hdk])]
      by_cases hl0 : e.length = 0
      · rw [if_pos hl0]
        exact ⟨_, rfl⟩
      rw [if_neg hl0]
      unfold PakItem.content at hcontent
      simp only [if_pos hdk] at hcontent
      split at hcontent
      · rename_i out hout
        rw [hout]
        exact ⟨_, rfl⟩
      · cases hcontent
    · rw [if_neg hdk]
      exact ⟨_, rfl⟩

/-- **Reading a PAK-class entry**, on disk or staged: it delivers the content of its item. -/
theorem pak_delivers_iff (hnothing : df.NothingFromNothing) {geom : Geometry}
    (hg : pakka_pak_geometry pak.format = some geom) (hok : PakEntryOk pak geom e)
    (hin : pak.payload_end ≤ disk.length) (hdec : BufferDecodes e) (hfp : pak.fp = true)
    (hcap : within_cap pak e) (hread : ∀ path, e.pending_source = some path →
      ∃ bs, read_pending sources e e.length.toNat = .ok bs) {content : Bytes} :
    Delivers df sources disk pak e content ↔
      (pak_item (streams_of sources) disk e).content = some content := by
  cases hs : e.staged with
  | false =>
    rw [pak_on_disk_delivers_iff hg hok hin hs hfp, and_iff_left hcap]
  | true =>
    have hopens : ∃ r, pakka_open_entry_handle df sources disk pak e = .ok r :=
      pak_staged_opens hg hok hdec hfp hs hcap hread
    rw [delivers_iff hnothing (.pak hg hok hin hdec), and_iff_right hopens, entry_content,
      not_zip_of_geometry hg, if_neg (by simp)]

/-- **A staged ZIP entry opens**, within the cap, when its source can be read. -/
theorem zip_staged_opens {n : ℕ} (hz : pakka_format_is_zip pak.format = true) (hok : ZipEntryOk n e)
    (hrec : BufferRecorded df e) (hfp : pak.fp = true) (hs : e.staged = true)
    (hcap : within_cap pak e) (hread : ∀ path, e.pending_source = some path →
      ∃ bs, read_pending sources e e.pk3_compressed_size.toNat = .ok bs) :
    ∃ r, pakka_open_entry_handle df sources disk pak e = .ok r := by
  unfold within_cap at hcap
  rw [if_pos hz] at hcap
  unfold pakka_open_entry_handle
  rw [if_neg (by simp [hfp]), if_pos hz]
  unfold pakka_pk3_open_entry_impl
  simp only [hcap, hs, Bool.false_eq_true, if_false, if_true]
  by_cases h0 : e.pk3_compressed_size = 0
  · rw [if_pos h0]
    exact ⟨_, rfl⟩
  rw [if_neg h0]
  rcases staged_cases hok.one_stage hs with ⟨path, hp, -⟩ | ⟨data, hp, hd⟩
  · have hdeflate : ¬ e.pk3_method = PK3_METHOD_DEFLATE := by
      rw [hok.source (by rw [hp]; rfl)]
      decide
    obtain ⟨bs, hbs⟩ := hread path hp
    simp only [hbs, bind, Except.bind, if_neg hdeflate]
    exact ⟨_, rfl⟩
  · have hbuf : read_pending sources e e.pk3_compressed_size.toNat = .ok data :=
      read_pending_data hp hd (hok.data data hd)
    obtain ⟨⟨content, hcontent, -, hcsize, -⟩, -⟩ := hrec data hd
    simp only [hbuf, bind, Except.bind]
    by_cases hdeflate : e.pk3_method = PK3_METHOD_DEFLATE
    · have hstored : ¬ e.pk3_method = PK3_METHOD_STORED := by
        rw [hdeflate]
        decide
      rw [if_pos hdeflate]
      unfold ZipItem.content at hcontent
      simp only [if_neg hstored] at hcontent hcsize
      split at hcontent
      · rename_i out used hinf
        split_ifs at hcontent with hboth
        obtain ⟨hused, hlen⟩ := hboth
        rw [← hused] at hcsize
        have hout : pk3_inflate_checked df data e.length.toNat e.pk3_compressed_size.toNat =
            .ok out := pk3_inflate_checked_ok.mpr ⟨hcsize ▸ hinf, hlen⟩
        rw [hout]
        by_cases hl0 : e.length = 0
        · simp only [if_pos hl0]
          exact ⟨_, rfl⟩
        · simp only [if_neg hl0]
          exact ⟨_, rfl⟩
      · cases hcontent
    · rw [if_neg hdeflate]
      exact ⟨_, rfl⟩

/-- What readers of a ZIP archive make of an item: its content, unless it claims to be compressed
from no bytes at all. -/
def ZipItem.ReadsAs (df : Deflate) (x : ZipItem) (content : Bytes) : Prop :=
  x.content df = some content ∧ (x.method = PK3_METHOD_STORED ∨ x.compressed_size ≠ 0)

/-- What an add has compressed has bytes. -/
theorem staged_has_bytes (hnothing : df.NothingFromNothing) {n : ℕ} (hok : ZipEntryOk n e)
    (hrec : BufferRecorded df e) (hs : e.staged = true) :
    e.pk3_method = PK3_METHOD_STORED ∨ e.pk3_compressed_size ≠ 0 := by
  rcases staged_cases hok.one_stage hs with ⟨path, hp, -⟩ | ⟨data, -, hd⟩
  · exact Or.inl (hok.source (by rw [hp]; rfl))
  obtain ⟨⟨content, hcontent, hlen, hcsize, -⟩, hfull⟩ := hrec data hd
  rcases hok.method with hm | hm
  · exact Or.inl hm
  right
  intro h0
  have hstored : ¬ e.pk3_method = PK3_METHOD_STORED := by
    rw [hm]
    decide
  -- nothing would have been made of no bytes
  simp only at hlen hcsize
  rw [h0] at hcsize
  obtain rfl := List.eq_nil_of_length_eq_zero hcsize.symm
  unfold ZipItem.content at hcontent
  simp only [if_neg hstored] at hcontent
  split at hcontent
  · rename_i out used hinf
    split_ifs at hcontent
    obtain rfl := Option.some.inj hcontent
    rw [hnothing hinf] at hlen
    exact hfull.resolve_left hstored (toNat_eq_zero.mp hlen)
  · cases hcontent

/-- **Reading a ZIP entry**, on disk or staged. -/
theorem zip_delivers_iff (hnothing : df.NothingFromNothing)
    (hz : pakka_format_is_zip pak.format = true) (hok : ZipEntryOk disk.length e)
    (hrec : BufferRecorded df e) (hfp : pak.fp = true) (hcap : within_cap pak e)
    (hread : ∀ path, e.pending_source = some path →
      ∃ bs, read_pending sources e e.pk3_compressed_size.toNat = .ok bs) {content : Bytes} :
    Delivers df sources disk pak e content ↔
      (zip_item (streams_of sources) disk e).ReadsAs df content := by
  rw [delivers_iff hnothing (.zip hz hok hrec), entry_content, if_pos hz, ZipItem.ReadsAs]
  cases hs : e.staged with
  | false =>
    rw [zip_on_disk_opens_iff hz hok hs hfp]
    constructor
    · rintro ⟨⟨-, -, hbytes⟩, hc⟩
      exact ⟨hc, hbytes⟩
    · rintro ⟨hc, hbytes⟩
      exact ⟨⟨by rw [hc]; rfl, hcap, hbytes⟩, hc⟩
  | true =>
    have hopens : ∃ r, pakka_open_entry_handle df sources disk pak e = .ok r :=
      zip_staged_opens hz hok hrec hfp hs hcap hread
    rw [and_iff_right hopens]
    exact (and_iff_left (staged_has_bytes hnothing hok hrec hs)).symm

end Pakka
