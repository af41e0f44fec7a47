/-
What a clean deep verify says about reading.

Verifying and reading are separate code. For every shape of entry the loaders admit,
the lemmas here put the two side by side: if `verify_entry` reports no error under the
deep flag, then the entry opens, reads to its end and has the recorded checksum. The one
shape on which they part is a ZIP entry of no bytes, which `verify_entry` passes before it
looks at method or checksum.

The theorem is an equivalence over the archive: of one that passes, every entry reads back exactly
when every empty ZIP entry is stored and carries the checksum of nothing. The converse direction is
not needed for soundness; it shows that the exception is exactly this one.
-/
import Pakka.Verify
import Pakka.LoaderInvariant
import Pakka.HeaderAgreement

set_option autoImplicit false

namespace Pakka

open ByteImage

/-! ## Statuses of failures

A decoder that fails does not report `PAKKA_OK`; without this a finding could be lost.
-/

/-- A result that does not report a failure as `ok`. -/
def Honest {α : Type} (x : Except Status α) : Prop := x ≠ .error .ok

namespace Honest

variable {α β : Type}

theorem ok (a : α) : Honest (.ok a : Except Status α) := by
  intro h
  cases h

theorem error {s : Status} (hs : s ≠ .ok) : Honest (.error s : Except Status α) := by
  intro h
  exact hs (Except.error.inj h)

theorem ite {c : Prop} [Decidable c] {x y : Except Status α} (hx : Honest x) (hy : Honest y) :
    Honest (if c then x else y) := by
  split_ifs
  · exact hx
  · exact hy

theorem bind {x : Except Status α} {k : α → Except Status β} (hx : Honest x)
    (hk : ∀ a, Honest (k a)) : Honest (x >>= k) := by
  cases x with
  | error s =>
    intro h
    exact hx (congrArg _ (Except.error.inj h))
  | ok a => exact hk a

theorem orError {o : Option α} {s : Status} (hs : s ≠ .ok) : Honest (orError o s) := by
  cases o with
  | none => exact error hs
  | some a => exact ok a

end Honest

theorem dk_inflate_loop_error {out_len fuel : ℕ} {inp out : Bytes} {s : Status}
    (h : dk_inflate_loop out_len fuel inp out = .error s) : s = .format := by
  induction fuel generalizing inp out with
  | zero => cases h
  | succ fuel ih =>
    cases inp with
    | nil => cases h
    | cons b inp =>
      simp only [dk_inflate_loop] at h
      repeat' split at h
      all_goals first | exact (Except.error.inj h).symm | exact ih h | cases h

theorem pakka_dk_inflate_honest {inp : Bytes} {out_len : ℕ} :
    Honest (pakka_dk_inflate inp out_len) := by
  unfold pakka_dk_inflate
  split
  · rename_i t ht
    rw [dk_inflate_loop_error ht]
    exact Honest.error (by simp)
  · exact Honest.ite (Honest.error (by simp)) (Honest.ok _)

theorem pakka_dk_inflate_length {inp out : Bytes} {out_len : ℕ}
    (h : pakka_dk_inflate inp out_len = .ok out) : out.length = out_len := by
  unfold pakka_dk_inflate at h
  split at h
  · cases h
  · split_ifs at h with hl
    rw [← Except.ok.inj h]
    exact not_not.mp hl

theorem pk3_inflate_checked_ok {df : Deflate} {src out : Bytes} {length csize : ℕ} :
    pk3_inflate_checked df src length csize = .ok out ↔
      df.inflate src length = .ok (out, csize) ∧ out.length = length := by
  simp only [pk3_inflate_checked, except_bind_eq_ok, ite_error_eq_ok, except_pure_eq_ok, not_or,
    not_not]
  constructor
  · rintro ⟨⟨bs, used⟩, hr, ⟨h1, h2⟩, rfl⟩
    simp only at h1 h2 ⊢
    rw [← h2]
    exact ⟨hr, h1⟩
  · rintro ⟨hr, hl⟩
    exact ⟨_, hr, ⟨hl, rfl⟩, rfl⟩

theorem pk3_inflate_checked_honest {df : Deflate} {src : Bytes} {length csize : ℕ} :
    Honest (pk3_inflate_checked df src length csize) :=
  Honest.bind (fun h => df.inflate_error h rfl) fun _ =>
    Honest.ite (Honest.error (by simp)) (Honest.ok _)

theorem deep_verify_entry_honest {df : Deflate} {disk : Bytes} {pak : Archive} {e : Entry} :
    Honest (deep_verify_entry df disk pak e) := by
  have hcrc : ∀ c : Prop, [Decidable c] →
      Honest (if c then .error .format else .ok () : Except Status Unit) := fun c =>
    Honest.ite (Honest.error (by simp)) (Honest.ok _)
  refine Honest.ite ?_ (Honest.ite ?_ (Honest.ok _))
  · refine Honest.ite (Honest.ok _) (Honest.ite (Honest.error (by simp))
      (Honest.ite (hcrc _) (Honest.bind (Honest.orError (by simp)) fun _ => ?_)))
    refine Honest.ite (hcrc _) (Honest.ite ?_ ?_)
    · exact Honest.bind pk3_inflate_checked_honest fun _ =>
        Honest.ite (Honest.ok _) (Honest.error (by simp))
    · exact Honest.bind pk3_inflate_checked_honest fun _ => hcrc _
  · refine Honest.ite (Honest.error (by simp)) (Honest.bind (Honest.orError (by simp)) fun _ => ?_)
    exact Honest.bind pakka_dk_inflate_honest fun _ => Honest.ok _

/-! ## Clean reports

No error among the findings means none for any entry.
-/

/-- No error was reported when the status is `ok`, as every error has a status of its own. -/
theorem first_error_eq_ok {fs : List Finding} (hfs : ∀ f ∈ fs, f.severity = .error → f.status ≠ .ok)
    (h : first_error fs = .ok) : ∀ f ∈ fs, f.severity ≠ .error := by
  induction fs with
  | nil => simp
  | cons f fs ih =>
    rw [first_error] at h
    split_ifs at h with hf
    · exact absurd h (hfs f List.mem_cons_self hf)
    · intro g hg
      rcases List.mem_cons.mp hg with rfl | hg
      · exact hf
      · exact ih (fun x hx => hfs x (List.mem_cons_of_mem _ hx)) h g hg

theorem verify_collisions_status {format : Format} {rs : List CollisionRecord} :
    ∀ f ∈ verify_collisions format rs, f.status = .duplicate := by
  induction rs with
  | nil => simp [verify_collisions]
  | cons a rs ih =>
    cases rs with
    | nil => simp [verify_collisions]
    | cons b rest =>
      intro f hf
      rw [verify_collisions] at hf
      rcases List.mem_append.mp hf with hf | hf
      · split_ifs at hf
        · rw [List.mem_singleton.mp hf]
        · rw [List.mem_singleton.mp hf]
        · cases hf
      · exact ih f hf

/-- What `verify_entry` reports under the deep flag, by the first check that decides. -/
theorem verify_entry_deep (df : Deflate) (disk : Bytes) (pak : Archive) {e : Entry}
    (hstaged : e.staged = false) :
    let f := verify_entry df disk pak true e
    (f.severity = .error ∧ f.status ≠ .ok) ∨
      f.severity = .info ∧ (((verify_extent pak.format e).2 = 0 ∧ e.length = 0) ∨
        deep_verify_entry df disk pak e = .ok ()) := by
  unfold verify_entry
  by_cases h1 : pakka_unsafe_entry_name e.filename = true
  · simp [h1]
  by_cases h2 : (verify_extent pak.format e).2 = 0 ∧ e.length = 0
  · simp [h1, hstaged, h2]
  cases h3 : verify_stream disk (verify_extent pak.format e).1.toNat
      (verify_extent pak.format e).2.toNat with
  | false => simp [h1, hstaged, h2, h3]
  | true =>
    cases h4 : deep_verify_entry df disk pak e with
    | error s =>
      have hs : s ≠ .ok := by
        rintro rfl
        exact deep_verify_entry_honest h4
      simp [h1, hstaged, h2, h3, hs]
    | ok u => simp [h1, hstaged, h2, h3]

/-- **A clean deep verify.** Every entry is empty on both counts or was decoded. -/
theorem pakka_verify_clean {df : Deflate} {disk : Bytes} {pak : Archive}
    (hstaged : ∀ e ∈ pak.entries, e.staged = false)
    (h : (pakka_verify df disk pak PAKKA_VERIFY_DEEP).1 = .ok) :
    ∀ e ∈ pak.entries, ((verify_extent pak.format e).2 = 0 ∧ e.length = 0) ∨
      deep_verify_entry df disk pak e = .ok () := by
  unfold pakka_verify at h
  rw [if_neg (by decide)] at h
  split_ifs at h with hfp
  have hdeep : decide (PAKKA_VERIFY_DEEP &&& PAKKA_VERIFY_DEEP ≠ 0) = true := by decide
  simp only [hdeep, verify_findings] at h
  have hall := first_error_eq_ok ?_ h
  · intro e he
    have hsev := hall _ (List.mem_append_left _ (List.mem_map_of_mem he))
    rcases verify_entry_deep df disk pak (hstaged e he) with hf | hf
    · exact absurd hf.1 hsev
    · exact hf.2
  · intro f hf hsev
    rcases List.mem_append.mp hf with hf | hf
    · obtain ⟨e, he, rfl⟩ := List.mem_map.mp hf
      rcases verify_entry_deep df disk pak (hstaged e he) with hf | hf
      · exact hf.2
      · rw [hf.1] at hsev
        cases hsev
    · rw [verify_collisions_status f hf]
      simp

/-! ## Reading what was verified

What it takes for a reader of each kind to deliver.
-/

/-- An entry reads back: it opens, reads to its end in any chunk sizes, has the length it is
listed with and, in a ZIP archive, the checksum. -/
def ReadsBack (df : Deflate) (sources : CStr → SourceView) (disk : Bytes) (pak : Archive)
    (e : Entry) : Prop :=
  ∃ content, Delivers df sources disk pak e content ∧ content.length = e.length.toNat ∧
    (pakka_format_is_zip pak.format = true → crc32_of content = e.crc32)

/-- A reader that streams delivers the slice it starts with. -/
theorem delivers_streams {df : Deflate} {sources : CStr → SourceView} {disk : Bytes}
    {pak : Archive} {e : Entry} {r : Reader} (hfp : pak.fp = true)
    (hopen : pakka_open_entry_handle df sources disk pak e = .ok r) (h : Streams disk r) :
    Delivers df sources disk pak e (slice disk r.next_offset r.remaining) :=
  ⟨r, hopen, fun lens => reader_run_streams hfp lens h⟩

/-- A reader that serves a whole buffer delivers it. -/
theorem delivers_serves {df : Deflate} {sources : CStr → SourceView} {disk buf : Bytes}
    {pak : Archive} {e : Entry} {r : Reader} (hfp : pak.fp = true)
    (hopen : pakka_open_entry_handle df sources disk pak e = .ok r) (h : Serves buf r)
    (hcursor : r.inflated_cursor = 0) : Delivers df sources disk pak e buf := by
  refine ⟨r, hopen, fun lens => ?_⟩
  rw [reader_run_serves hfp lens h, hcursor, List.drop_zero]

/-- A reader with nothing to deliver delivers the empty string. -/
theorem delivers_done {df : Deflate} {sources : CStr → SourceView} {disk : Bytes}
    {pak : Archive} {e : Entry} {r : Reader} (hfp : pak.fp = true)
    (hopen : pakka_open_entry_handle df sources disk pak e = .ok r) (h : r.remaining = 0) :
    Delivers df sources disk pak e [] := by
  refine ⟨r, hopen, fun lens => ?_⟩
  rw [reader_run_done hfp lens h, List.take_nil]

/-! ### PAK-class entries

Stored, or compressed by the Daikatana codec.
-/

/-- An entry stored as it is delivers its bytes: its extent lies in the file. -/
theorem delivers_plain {df : Deflate} {sources : CStr → SourceView} {disk : Bytes}
    {pak : Archive} {e : Entry} (hfp : pak.fp = true)
    (hz : pakka_format_is_zip pak.format = false) (hstaged : e.staged = false)
    (hdk : ¬ (pak.format = .daikatana ∧ e.dk_is_compressed = true))
    (hin : e.offset.toNat + e.length.toNat ≤ disk.length) :
    Delivers df sources disk pak e (slice disk e.offset.toNat e.length.toNat) := by
  have hopen : pakka_open_entry_handle df sources disk pak e =
      .ok { next_offset := e.offset.toNat, remaining := e.length.toNat } := by
    unfold pakka_open_entry_handle
    rw [if_neg (by simpa using hfp), hz, if_neg (by simp), hstaged, if_neg (by simp), if_neg hdk]
  exact delivers_streams hfp hopen ⟨rfl, rfl, hin⟩

/-- So it reads back. -/
theorem reads_back_plain {df : Deflate} {sources : CStr → SourceView} {disk : Bytes}
    {pak : Archive} {e : Entry} (hfp : pak.fp = true)
    (hz : pakka_format_is_zip pak.format = false) (hstaged : e.staged = false)
    (hdk : ¬ (pak.format = .daikatana ∧ e.dk_is_compressed = true))
    (hin : e.offset.toNat + e.length.toNat ≤ disk.length) :
    ReadsBack df sources disk pak e := by
  refine ⟨_, delivers_plain hfp hz hstaged hdk hin, length_slice_of_le hin, ?_⟩
  rw [hz]
  intro h
  cases h

/-- A compressed Daikatana entry reads back once its payload decodes within the cap. -/
theorem reads_back_dk {df : Deflate} {sources : CStr → SourceView} {disk : Bytes}
    {pak : Archive} {e : Entry} {out : Bytes} (hfp : pak.fp = true)
    (hz : pakka_format_is_zip pak.format = false) (hstaged : e.staged = false)
    (hdk : pak.format = .daikatana ∧ e.dk_is_compressed = true)
    (hcap : exceeds_cap pak.max_decompressed e.length e.dk_compressed_size = false)
    (hin : e.offset.toNat + e.dk_compressed_size.toNat ≤ disk.length)
    (hout : pakka_dk_inflate (slice disk e.offset.toNat e.dk_compressed_size.toNat)
      e.length.toNat = .ok out) : ReadsBack df sources disk pak e := by
  have hlen := pakka_dk_inflate_length hout
  have hopen : pakka_open_entry_handle df sources disk pak e =
      .ok (if e.length = 0 then { next_offset := e.offset.toNat, remaining := e.length.toNat }
        else { next_offset := e.offset.toNat, remaining := e.length.toNat
               inflated_buf := some out, inflated_len := e.length.toNat }) := by
    unfold pakka_open_entry_handle
    rw [if_neg (by simpa using hfp), hz, if_neg (by simp), hstaged, if_neg (by simp), if_pos hdk,
      if_neg (by simp [hcap]), readExact_of_le hin]
    change (pakka_dk_inflate _ _ >>= _) = _
    rw [hout]
    change (if e.length = 0 then _ else _) = _
    split_ifs <;> rfl
  have hzip : pakka_format_is_zip pak.format = true → crc32_of out = e.crc32 := by
    rw [hz]
    intro h
    cases h
  refine ⟨out, ?_, hlen, hzip⟩
  by_cases h0 : e.length = 0
  · rw [if_pos h0] at hopen
    have hout0 : out = [] := by
      apply List.eq_nil_of_length_eq_zero
      rw [hlen, h0]
      rfl
    rw [hout0]
    refine delivers_done hfp hopen ?_
    change e.length.toNat = 0
    rw [h0]
    rfl
  · rw [if_neg h0] at hopen
    exact delivers_serves hfp hopen ⟨rfl, hlen.symm, by simp [hlen]⟩ rfl

/-- **PAK-class entries.** What a deep verify passed reads back. -/
theorem pak_entry_reads_back {df : Deflate} {sources : CStr → SourceView} {disk : Bytes}
    {pak : Archive} {e : Entry} (hfp : pak.fp = true)
    (hz : pakka_format_is_zip pak.format = false) (hstaged : e.staged = false)
    (hdk : e.dk_is_compressed = true → pak.format = .daikatana)
    (hin : e.offset.toNat + (pak_entry_on_disk_extent e).toNat ≤ disk.length)
    (hclean : ((verify_extent pak.format e).2 = 0 ∧ e.length = 0) ∨
      deep_verify_entry df disk pak e = .ok ()) : ReadsBack df sources disk pak e := by
  unfold pak_entry_on_disk_extent at hin
  by_cases hc : e.dk_is_compressed = true
  · rw [if_pos hc] at hin
    have hext : (verify_extent pak.format e).2 = e.dk_compressed_size := by
      simp [verify_extent, hz, hc]
    rw [hext] at hclean
    rcases hclean with ⟨h1, h2⟩ | hdeep
    · -- no bytes on either side, and the empty stream decodes to nothing
      have hempty : pakka_dk_inflate (slice disk e.offset.toNat e.dk_compressed_size.toNat)
          e.length.toNat = .ok [] := by
        rw [h1, h2]
        rfl
      exact reads_back_dk hfp hz hstaged ⟨hdk hc, hc⟩ (by simp [exceeds_cap, h1, h2]) hin hempty
    · unfold deep_verify_entry at hdeep
      rw [hz, if_neg (by simp), if_pos ⟨hdk hc, hc⟩, dk_deep_verify_entry, ite_error_eq_ok] at hdeep
      obtain ⟨hcap, hdeep⟩ := hdeep
      simp only [except_bind_eq_ok, orError_eq_ok, Bool.not_eq_true] at hcap hdeep
      obtain ⟨cbuf, hcbuf, out, hout, -⟩ := hdeep
      obtain ⟨rfl, -⟩ := readExact_eq_some.mp hcbuf
      exact reads_back_dk hfp hz hstaged ⟨hdk hc, hc⟩ hcap hin hout
  · rw [if_neg hc] at hin
    exact reads_back_plain hfp hz hstaged (fun h => hc h.2) hin

/-! ### ZIP entries

Stored, deflated, and empty. For the empty ones the equivalence names the condition.
-/

/-- A stored ZIP entry within the cap delivers its payload. -/
theorem zip_stored_delivers {df : Deflate} {sources : CStr → SourceView} {disk : Bytes}
    {pak : Archive} {e : Entry} (hfp : pak.fp = true)
    (hz : pakka_format_is_zip pak.format = true) (he : LoadedZipEntry disk e)
    (hm : e.pk3_method = PK3_METHOD_STORED)
    (hcap : exceeds_cap pak.max_decompressed e.length e.pk3_compressed_size = false) :
    Delivers df sources disk pak e (slice disk e.pk3_payload_offset.toNat e.length.toNat) := by
  have hin := he.in_file
  rw [he.stored hm] at hin
  refine delivers_streams hfp (r := { next_offset := e.pk3_payload_offset.toNat
                                      remaining := e.length.toNat }) ?_ ⟨rfl, rfl, hin⟩
  unfold pakka_open_entry_handle
  rw [if_neg (by simpa using hfp), if_pos hz]
  unfold pakka_pk3_open_entry_impl
  simp only [hcap, he.not_staged, hm]
  simp

/-- A deflated ZIP entry within the cap delivers what its payload inflates to. -/
theorem zip_deflate_delivers {df : Deflate} {sources : CStr → SourceView} {disk out : Bytes}
    {pak : Archive} {e : Entry} (hfp : pak.fp = true)
    (hz : pakka_format_is_zip pak.format = true) (he : LoadedZipEntry disk e)
    (hm : e.pk3_method ≠ PK3_METHOD_STORED) (hcs : e.pk3_compressed_size ≠ 0)
    (hcap : exceeds_cap pak.max_decompressed e.length e.pk3_compressed_size = false)
    (hout : pk3_inflate_checked df
      (slice disk e.pk3_payload_offset.toNat e.pk3_compressed_size.toNat)
      e.length.toNat e.pk3_compressed_size.toNat = .ok out) :
    Delivers df sources disk pak e out := by
  have hlen := (pk3_inflate_checked_ok.mp hout).2
  have hopen : pakka_open_entry_handle df sources disk pak e =
      .ok (if e.length = 0 then { next_offset := e.pk3_payload_offset.toNat
                                  remaining := e.length.toNat }
        else { next_offset := e.pk3_payload_offset.toNat, remaining := e.length.toNat
               inflated_buf := some out, inflated_len := e.length.toNat }) := by
    unfold pakka_open_entry_handle
    rw [if_neg (by simpa using hfp), if_pos hz]
    unfold pakka_pk3_open_entry_impl
    simp only [hcap, he.not_staged, if_neg hm, if_neg hcs, readExact_of_le he.in_file]
    simp only [Bool.false_eq_true, if_false]
    change (pk3_inflate_checked _ _ _ _ >>= _) = _
    rw [hout]
    change (if e.length = 0 then _ else _) = _
    split_ifs <;> rfl
  by_cases h0 : e.length = 0
  · rw [if_pos h0] at hopen
    have hout0 : out = [] := by
      apply List.eq_nil_of_length_eq_zero
      rw [hlen, h0]
      rfl
    rw [hout0]
    refine delivers_done hfp hopen ?_
    change e.length.toNat = 0
    rw [h0]
    rfl
  · rw [if_neg h0] at hopen
    exact delivers_serves hfp hopen ⟨rfl, hlen.symm, by simp [hlen]⟩ rfl

/-- A ZIP entry that went through the deep check reads back, unless it has no bytes at all. -/
theorem zip_deep_reads_back {df : Deflate} {sources : CStr → SourceView} {disk : Bytes}
    {pak : Archive} {e : Entry} (hdf : df.NothingFromNothing) (hfp : pak.fp = true)
    (hz : pakka_format_is_zip pak.format = true) (he : LoadedZipEntry disk e)
    (hne : ¬ (e.length = 0 ∧ e.pk3_compressed_size = 0))
    (hdeep : pakka_pk3_deep_verify_entry df disk pak e = .ok ()) :
    ReadsBack df sources disk pak e := by
  unfold pakka_pk3_deep_verify_entry at hdeep
  rw [he.not_staged, if_neg (by simp), ite_error_eq_ok, if_neg hne,
    readExact_of_le he.in_file] at hdeep
  obtain ⟨hcap, hdeep⟩ := hdeep
  simp only [Bool.not_eq_true, except_bind_eq_ok, orError_eq_ok, Option.some.injEq,
    exists_eq_left'] at hcap hdeep
  -- stored bytes are compared as they are, deflated ones as what they inflate to
  by_cases hm : e.pk3_method = PK3_METHOD_STORED
  · rw [if_pos hm, ite_error_eq_ok, not_not] at hdeep
    have hin := he.in_file
    rw [he.stored hm] at hin hdeep
    exact ⟨_, zip_stored_delivers hfp hz he hm hcap, length_slice_of_le hin, fun _ => hdeep.1⟩
  · rw [if_neg hm] at hdeep
    by_cases h0 : e.length = 0
    · have hcs : e.pk3_compressed_size ≠ 0 := fun h => hne ⟨h0, h⟩
      rw [if_pos h0] at hdeep
      simp only [except_bind_eq_ok] at hdeep
      obtain ⟨out, hout, hcrc⟩ := hdeep
      have hlen := (pk3_inflate_checked_ok.mp hout).2
      have hz0 : e.length.toNat = 0 := by
        rw [h0]
        rfl
      rw [← hz0] at hout
      refine ⟨out, zip_deflate_delivers hfp hz he hm hcs hcap hout, ?_, fun _ => ?_⟩
      · rw [hlen, hz0]
      · rw [List.eq_nil_of_length_eq_zero hlen, crc32_of_nil]
        split_ifs at hcrc with hc
        exact hc.symm
    · rw [if_neg h0] at hdeep
      simp only [except_bind_eq_ok, ite_error_eq_ok, ne_eq, not_not] at hdeep
      obtain ⟨out, hout, hcrc, -⟩ := hdeep
      have hlen := (pk3_inflate_checked_ok.mp hout).2
      by_cases hcs : e.pk3_compressed_size = 0
      · -- reading refuses an empty stream outright; verifying leaves that to the backend
        exfalso
        have hinf := (pk3_inflate_checked_ok.mp hout).1
        rw [hcs] at hinf
        rw [hdf hinf] at hlen
        exact h0 (UInt32.toNat_inj.mp hlen.symm)
      · exact ⟨out, zip_deflate_delivers hfp hz he hm hcs hcap hout, hlen, fun _ => hcrc⟩

/-- An entry of no bytes reads back exactly when it is stored and has the checksum of no
bytes. -/
theorem zip_empty_reads_back_iff {df : Deflate} {sources : CStr → SourceView} {disk : Bytes}
    {pak : Archive} {e : Entry} (hfp : pak.fp = true)
    (hz : pakka_format_is_zip pak.format = true) (he : LoadedZipEntry disk e)
    (h0 : e.length = 0) (hcs : e.pk3_compressed_size = 0) :
    ReadsBack df sources disk pak e ↔ e.pk3_method = PK3_METHOD_STORED ∧ e.crc32 = 0 := by
  have hcap : exceeds_cap pak.max_decompressed e.length e.pk3_compressed_size = false := by
    simp [exceeds_cap, h0, hcs]
  constructor
  · rintro ⟨content, hdel, hlen, hcrc⟩
    have hc0 : content = [] := by
      apply List.eq_nil_of_length_eq_zero
      rw [hlen, h0]
      rfl
    have hm : e.pk3_method = PK3_METHOD_STORED := by
      by_contra hm
      obtain ⟨r, hr, -⟩ := hdel
      unfold pakka_open_entry_handle at hr
      rw [if_neg (by simpa using hfp), if_pos hz] at hr
      unfold pakka_pk3_open_entry_impl at hr
      simp only [hcap, he.not_staged, if_neg hm, if_pos hcs] at hr
      simp at hr
    refine ⟨hm, ?_⟩
    rw [← hcrc hz, hc0, crc32_of_nil]
  · rintro ⟨hm, hcrc⟩
    refine ⟨_, zip_stored_delivers hfp hz he hm hcap, ?_, fun _ => ?_⟩
    · rw [h0]
      simp [slice]
    · rw [h0, hcrc]
      simp [slice]

/-- **ZIP entries.** What a deep verify passed reads back, but for entries of no bytes, which it
does not look at. -/
theorem zip_entry_reads_back_iff {df : Deflate} (sources : CStr → SourceView) {disk : Bytes}
    (pak : Archive) {e : Entry} (hdf : df.NothingFromNothing) (hfp : pak.fp = true)
    (hz : pakka_format_is_zip pak.format = true) (he : LoadedZipEntry disk e)
    (hclean : ((verify_extent pak.format e).2 = 0 ∧ e.length = 0) ∨
      deep_verify_entry df disk pak e = .ok ()) :
    ReadsBack df sources disk pak e ↔ (e.pk3_compressed_size = 0 → e.length = 0 →
      e.pk3_method = PK3_METHOD_STORED ∧ e.crc32 = 0) := by
  by_cases hempty : e.length = 0 ∧ e.pk3_compressed_size = 0
  · rw [zip_empty_reads_back_iff hfp hz he hempty.1 hempty.2]
    exact ⟨fun h _ _ => h, fun h => h hempty.2 hempty.1⟩
  · have hext : (verify_extent pak.format e).2 = e.pk3_compressed_size := by
      simp [verify_extent, hz]
    have hdeep : pakka_pk3_deep_verify_entry df disk pak e = .ok () := by
      rcases hclean with ⟨h1, h2⟩ | h
      · exact absurd ⟨h2, by rw [← hext]; exact h1⟩ hempty
      · unfold deep_verify_entry at h
        rwa [if_pos hz] at h
    refine ⟨fun _ h1 h2 => absurd ⟨h2, h1⟩ hempty, fun _ => ?_⟩
    exact zip_deep_reads_back hdf hfp hz he hempty hdeep

/-! ## Soundness

For a whole archive.
-/

/-- **Deep verify and reading.** Of an opened archive under any cap that passes a deep verify,
every entry reads back exactly when every ZIP entry of no bytes is stored and carries the
checksum of no bytes. -/
theorem deep_verify_reads_back_iff (df : Deflate) (sources : CStr → SourceView) (path : CStr)
    (mode : OpenMode) (hint : Format) (disk : Bytes) (pak : Archive) (cap : ℕ)
    (hdf : df.NothingFromNothing)
    (hopen : pakka_open_ex path mode hint (some disk) = .ok pak)
    (hok : (pakka_verify df disk (pakka_set_max_decompressed_size pak cap) PAKKA_VERIFY_DEEP).1 =
      .ok) :
    (∀ e ∈ pak.entries,
        ReadsBack df sources disk (pakka_set_max_decompressed_size pak cap) e) ↔
      ∀ e ∈ pak.entries, pakka_format_is_zip pak.format = true → e.pk3_compressed_size = 0 →
        e.length = 0 → e.pk3_method = PK3_METHOD_STORED ∧ e.crc32 = 0 := by
  by_cases hz : pakka_format_is_zip pak.format = true
  · obtain ⟨h, cdr, l, es, hd, rfl⟩ := open_zip_directory hopen hz
    have hloaded := hd.loaded
    have hclean := pakka_verify_clean (fun e he => (hloaded e he).not_staged) hok
    have hiff : ∀ e ∈ es, _ := fun e he =>
      zip_entry_reads_back_iff sources (pakka_set_max_decompressed_size
        (opened_zip mode hint (zip_format path hint) disk h es) cap)
        hdf (by rfl) hz (hloaded e he) (hclean e he)
    exact ⟨fun hall e he _ => (hiff e he).mp (hall e he),
      fun hall e he => (hiff e he).mpr (hall e he hz)⟩
  · rw [Bool.not_eq_true] at hz
    refine ⟨fun _ e _ hzip => absurd hzip (by simp [hz]), fun _ e he => ?_⟩
    have hcls : IsPakClass pak.format := by
      rcases open_format_class hopen with hzip | ⟨geom, hg⟩
      · rw [hz] at hzip
        cases hzip
      · exact Option.isSome_iff_exists.mpr ⟨geom, hg⟩
    have hl := open_pak_fresh hcls hopen
    have hstaged : ∀ e ∈ (pakka_set_max_decompressed_size pak cap).entries, e.staged = false :=
      hl.on_disk
    have hclean := pakka_verify_clean hstaged hok
    have hlive : (pakka_set_max_decompressed_size pak cap).fp = true := hl.live
    exact pak_entry_reads_back hlive hz (hl.on_disk e he) (hl.compressed e he)
      (hl.invariant.in_file e he) (hclean e he)

/-- Verifying and reading at a file with one stored entry. -/
theorem deep_verify_reads_back_tiny_zip :
    (∀ e ∈ (tiny_zip_pak (ascii "a")).entries,
        ReadsBack .storing (fun _ => .ofFile []) (tiny_zip (ascii "a") (ascii "a"))
          (pakka_set_max_decompressed_size (tiny_zip_pak (ascii "a")) 64) e) ↔
      ∀ e ∈ (tiny_zip_pak (ascii "a")).entries,
        pakka_format_is_zip (tiny_zip_pak (ascii "a")).format = true →
          e.pk3_compressed_size = 0 → e.length = 0 →
            e.pk3_method = PK3_METHOD_STORED ∧ e.crc32 = 0 :=
  deep_verify_reads_back_iff .storing _ CStr.empty .read .auto _ (tiny_zip_pak (ascii "a")) 64
    Deflate.storing_nothing_from_nothing (by decide +kernel) (by decide +kernel)

/-- A ZIP file whose one entry claims to be deflated and has no bytes. -/
def hollow_zip : Bytes := one_entry_zip PK3_METHOD_DEFLATE 0 (ascii "a") (ascii "a") []

/-- It opens and passes a deep verify, and its entry cannot be opened. -/
theorem hollow_entry_passes_deep_verify : ∃ pak e,
    pakka_open_ex CStr.empty .read .auto (some hollow_zip) = .ok pak ∧
      pak.entries = [e] ∧
      (pakka_verify .storing hollow_zip pak PAKKA_VERIFY_DEEP).1 = .ok ∧
      pakka_open_entry_handle .storing (fun _ => .ofFile []) hollow_zip pak e = .error .format ∧
      ¬ ReadsBack .storing (fun _ => .ofFile []) hollow_zip pak e := by
  let e : Entry :=
    { filename := CStr.ofField (ascii "a"), pk3_method := 8, offset := 31, pk3_payload_offset := 31 }
  let pak : Archive :=
    { open_initial .read .auto with
      format := .pk3
      signature := PK3_LFH_SIGNATURE
      num_entries := 1
      file_size := 100
      tail := some 0
      pk3_cdr_offset := 31
      entries := [e] }
  have hopen : pakka_open_entry_handle .storing (fun _ => .ofFile []) hollow_zip pak e =
      .error .format := by decide +kernel
  refine ⟨pak, e, by decide +kernel, rfl, by decide +kernel, hopen, ?_⟩
  rintro ⟨content, ⟨r, hr, -⟩, -⟩
  rw [hopen] at hr
  cases hr

end Pakka
