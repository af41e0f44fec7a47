/-
Several readers of one handle, open at the same time.

The readers share the archive's one `FILE *`, and so its position, which a read by one of them
moves under the others. `Reader.lean` reads the file by its offsets. Here the functions are written
out with the position they share, and it does not matter: each read seeks to an offset of its own
before it reads. So the readers are isolated parties in the sense of `Interleaved`, and what one of
them delivers is known from `EntryContent.lean`.

Two things are to be shown: that a read does not depend on the position it finds, which is a matter
of the code, and that parties of this kind cannot disturb each other in any order of turns, which is
a matter of the library. The two meet in `interleaved_readers`.
-/
import Pakka.EntryContent
import Pakka.Lib.Interleaved

set_option autoImplicit false

namespace Pakka

open ByteImage Interleaved

/-! ## One file, one position

Reading with the position as state is reading by offsets, because every read begins with a seek.
-/

/-- The archive's `FILE *`: the bytes of the file, and the position in it. -/
structure ArchiveFile where
  bytes : Bytes
  position : ℕ
  deriving DecidableEq, Repr

/-- `pakka_platform_fseek`, from the start of the file. -/
def ArchiveFile.fseek (f : ArchiveFile) (offset : ℕ) : ArchiveFile := { f with position := offset }

/-- `fread`: what was read, and the file behind it. -/
def ArchiveFile.fread (f : ArchiveFile) (n : ℕ) : Bytes × ArchiveFile :=
  let got := slice f.bytes f.position n
  (got, { f with position := f.position + got.length })

namespace Shared

/-- `pakka_pk3_reader_read_impl`. -/
def pakka_pk3_reader_read_impl (fp : ArchiveFile) (r : Reader) (len : ℕ) :
    ArchiveFile × ReadResult :=
  let want := if len > r.remaining then r.remaining else len
  if r.remaining = 0 then (fp, ⟨.ok, r, []⟩)
  else if r.inflated_buf.isSome || r.inflated_len > 0 then
    (fp, read_from_buffer r (r.inflated_buf.getD []) want)
  else
    let (got, fp) := (fp.fseek r.next_offset).fread want
    if got.length ≠ want then (fp, ⟨.io, r, []⟩)
    else (fp, ⟨.ok, { r with next_offset := r.next_offset + want, remaining := r.remaining - want },
      got⟩)

/-- `pakka_reader_read`. -/
def pakka_reader_read (fp : ArchiveFile) (pak : Archive) (r : Reader) (len : ℕ) :
    ArchiveFile × ReadResult :=
  if ¬ pak.fp then (fp, ⟨.invalid_argument, r, []⟩)
  else if r.remaining = 0 ∨ len = 0 then (fp, ⟨.ok, r, []⟩)
  else if pakka_format_is_zip pak.format then pakka_pk3_reader_read_impl fp r len
  else
    match r.inflated_buf with
    | some buf =>
      let available := r.inflated_len - r.inflated_cursor
      let chunk := if len < available then len else available
      if chunk = 0 then (fp, ⟨.ok, r, []⟩) else (fp, read_from_buffer r buf chunk)
    | none =>
      let chunk := if len < r.remaining then len else r.remaining
      let (got, fp) := (fp.fseek r.next_offset).fread chunk
      let r' := { r with
        next_offset := r.next_offset + got.length
        remaining := r.remaining - got.length }
      if got.length ≠ chunk then (fp, ⟨.io, r', got⟩) else (fp, ⟨.ok, r', got⟩)

/-- **Wherever the position is**, a read does what it does with the offset of its reader. -/
theorem pk3_reader_read_impl_same (fp : ArchiveFile) (r : Reader) (len : ℕ) :
    (pakka_pk3_reader_read_impl fp r len).1.bytes = fp.bytes ∧
      (pakka_pk3_reader_read_impl fp r len).2 =
        Pakka.pakka_pk3_reader_read_impl fp.bytes r len := by
  unfold pakka_pk3_reader_read_impl Pakka.pakka_pk3_reader_read_impl
  dsimp only [ArchiveFile.fread, ArchiveFile.fseek]
  by_cases h0 : r.remaining = 0
  · rw [if_pos h0, if_pos h0]
    exact ⟨rfl, rfl⟩
  rw [if_neg h0, if_neg h0]
  by_cases hbuf : (r.inflated_buf.isSome || decide (r.inflated_len > 0)) = true
  · rw [if_pos hbuf, if_pos hbuf]
    exact ⟨rfl, rfl⟩
  rw [if_neg hbuf, if_neg hbuf, readExact, ite_not]
  generalize (if len > r.remaining then r.remaining else len) = want
  by_cases hgot : (slice fp.bytes r.next_offset want).length = want
  · rw [if_pos hgot, if_pos hgot]
    exact ⟨rfl, rfl⟩
  · rw [if_neg hgot, if_neg hgot]
    exact ⟨rfl, rfl⟩

theorem reader_read_same (fp : ArchiveFile) (pak : Archive) (r : Reader) (len : ℕ) :
    (pakka_reader_read fp pak r len).1.bytes = fp.bytes ∧
      (pakka_reader_read fp pak r len).2 = Pakka.pakka_reader_read fp.bytes pak r len := by
  unfold pakka_reader_read Pakka.pakka_reader_read
  dsimp only [ArchiveFile.fread, ArchiveFile.fseek]
  by_cases hfp : pak.fp = true
  · rw [if_neg (not_not.mpr hfp), if_neg (not_not.mpr hfp)]
    by_cases hnone : r.remaining = 0 ∨ len = 0
    · rw [if_pos hnone, if_pos hnone]
      exact ⟨rfl, rfl⟩
    rw [if_neg hnone, if_neg hnone]
    by_cases hzip : pakka_format_is_zip pak.format = true
    · rw [if_pos hzip, if_pos hzip]
      exact pk3_reader_read_impl_same fp r len
    rw [if_neg hzip, if_neg hzip]
    generalize (if len < r.remaining then len else r.remaining) = chunk
    rcases r.inflated_buf with _ | buf
    · dsimp only
      split_ifs <;> exact ⟨rfl, rfl⟩
    · dsimp only
      split_ifs <;> exact ⟨rfl, rfl⟩
  · rw [if_pos hfp, if_pos hfp]
    exact ⟨rfl, rfl⟩

end Shared

/-! ## Turns

Readers take turns in any order and ask for any sizes. Each one gets what it would get alone.
-/

/-- A reader's turn: what it leaves of the file, the reader, and what the caller is told. -/
def reader_turn (pak : Archive) (fp : ArchiveFile) (r : Reader) (len : ℕ) :
    ArchiveFile × Reader × (Status × Bytes) :=
  let x := Shared.pakka_reader_read fp pak r len
  (x.1, x.2.reader, x.2.status, x.2.bytes)

/-- The same of a reader that has the file for itself. -/
def reader_alone (disk : Bytes) (pak : Archive) (r : Reader) (len : ℕ) :
    Reader × (Status × Bytes) :=
  let x := pakka_reader_read disk pak r len
  (x.reader, x.status, x.bytes)

/-- All bytes of some replies. -/
def returned (replies : List (Status × Bytes)) : Bytes := (replies.map Prod.snd).flatten

variable {df : Deflate} {disk : Bytes} {pak : Archive}

/-- **Readers are isolated**, as long as the archive file keeps its bytes. -/
theorem readers_isolated (disk : Bytes) (pak : Archive) :
    Isolated (reader_turn pak) (reader_alone disk pak) fun fp => fp.bytes = disk where
  keeps := by
    intro fp hfp r len
    rw [← hfp]
    exact (Shared.reader_read_same fp pak r len).1
  same := by
    intro fp hfp r len
    rw [reader_turn, reader_alone, (Shared.reader_read_same fp pak r len).2, hfp]

/-- **A reader hands out** what it has to deliver. -/
theorem reader_hands_out (hfp : pak.fp = true) :
    HandsOut (reader_alone disk pak) (Prod.mk Status.ok) (Yields disk) := by
  intro r content hr len
  obtain ⟨r', hread, hrest⟩ := hr.read hfp len
  rw [reader_alone, hread]
  exact ⟨rfl, hrest⟩

/-- What a caller of a reader relies on, of all replies to it, where the entry holds `content`. -/
structure Coherent (content : Bytes) (replies : List (Status × Bytes)) : Prop where
  ok : ∀ x ∈ replies, x.1 = .ok
  from_front : returned replies <+: content
  /-- Nothing is returned exactly at the end, and then nothing any more. -/
  ends : ∀ before x later, replies = before ++ x :: later →
    (x.2 = [] ↔ returned before = content) ∧ (x.2 = [] → ∀ y ∈ later, y.2 = [])

/-- **One reader alone** is coherent. -/
theorem Yields.coherent {r : Reader} {content : Bytes} (hfp : pak.fp = true)
    (h : Yields disk r content) {lens : List ℕ} (hpos : ∀ n ∈ lens, 0 < n) :
    Coherent content (alone (reader_alone disk pak) r lens) := by
  have hsnd : ∀ ps : List Bytes, (ps.map (Prod.mk Status.ok)).map Prod.snd = ps := by
    intro ps
    rw [List.map_map]
    exact List.map_id ps
  rw [HandsOut.alone (reader_hands_out hfp) lens h]
  refine ⟨?_, ?_, ?_⟩
  · intro x hx
    obtain ⟨p, -, rfl⟩ := List.mem_map.mp hx
    rfl
  · rw [returned, hsnd, flatten_pieces]
    exact List.take_prefix _ _
  · intro before x later hsplit
    obtain ⟨ps, qs, hpieces, rfl, hrest⟩ := List.map_eq_append_iff.mp hsplit
    obtain ⟨p, qs, rfl, rfl, rfl⟩ := List.map_eq_cons_iff.mp hrest
    obtain ⟨hiff, hend⟩ := pieces_end hpos hpieces
    refine ⟨by rw [returned, hsnd]; exact hiff, ?_⟩
    intro hp y hy
    obtain ⟨q, hq, rfl⟩ := List.mem_map.mp hy
    exact hend hp q hq

/-- **Interleaved readers are coherent.** Take a handle after any calls on it, readers of any of its
entries, and any turns of them with positive chunk sizes, while the file keeps its bytes. Each
reader returns the decoded payload of its entry from the front, returns nothing exactly when it has
returned `length` bytes, and then for good. And its replies are those to its own calls alone. -/
theorem interleaved_readers {ι : Type} [DecidableEq ι] (df : Deflate) (s₀ : Session)
    (calls : List (Env × Call)) (sources : ι → CStr → SourceView) (entry : ι → Entry)
    (readers : ι → Reader) (position : ℕ) (turns : List (Turn ι ArchiveFile ℕ))
    (hdf : df.Correct) (hnothing : df.NothingFromNothing) (hstart : Session.Started s₀)
    (hentry : ∀ i, entry i ∈ (s₀.run df calls).pak.entries)
    (hopen : ∀ i, pakka_open_entry_handle df (sources i) (s₀.run df calls).disk
      (s₀.run df calls).pak (entry i) = .ok (readers i))
    (hpos : ∀ i n, .call i n ∈ turns → 0 < n)
    (hfile : ∀ fp, .elsewhere fp ∈ turns → fp.bytes = (s₀.run df calls).disk) :
    let s := s₀.run df calls
    let replies := play (reader_turn s.pak) ⟨s.disk, position⟩ readers turns
    ∀ i, ∃ content,
      entry_content df (streams_of (sources i)) s.disk s.pak.format (entry i) = some content ∧
      content.length = (entry i).length.toNat ∧
      Coherent content (replies_to i replies) ∧
      replies_to i replies = alone (reader_alone s.disk s.pak) (readers i) (calls_of i turns) := by
  intro s replies i
  have hfp : s.pak.fp = true := live_of_open (hopen i)
  have hrec : Recorded df s.pak :=
    Recorded.run hdf calls (.of_on_disk hstart.on_disk) hstart.reached
  have hready := (hstart.reached.run calls).ready hrec hfp (hentry i)
  obtain ⟨content, hcontent, hlen, hyields⟩ := open_yields hnothing hready (hopen i)
  have hown : replies_to i replies =
      alone (reader_alone s.disk s.pak) (readers i) (calls_of i turns) :=
    (readers_isolated s.disk s.pak).replies_to_play i turns rfl hfile
  refine ⟨content, hcontent, hlen, ?_, hown⟩
  rw [hown]
  exact hyields.coherent hfp fun n hn => hpos i n (mem_calls_of.mp hn)

/-- Two readers of one committed entry of 64 bytes, which take turns with the file. -/
theorem interleaved_readers_two :
    let s := created_pk3.run .storing [(calm_env, add_zeros), (calm_env, .commit)]
    ∃ e ∈ s.pak.entries, ∃ r,
      pakka_open_entry_handle .storing (calm_env.view 0) s.disk s.pak e = .ok r ∧
        r.inflated_buf = none ∧
        ∃ content, content.length = 64 ∧
          Coherent content (replies_to true (play (reader_turn s.pak) ⟨s.disk, 0⟩ (fun _ => r)
            [.call true 3, .call false 40, .call true 100, .call false 1, .call true 1])) := by
  intro s
  obtain ⟨e, he⟩ : ∃ e, s.pak.entries[0]? = some e :=
    Option.isSome_iff_exists.mp (by decide +kernel)
  have hopens : (s.pak.entries[0]?.bind fun e =>
      (pakka_open_entry_handle .storing (calm_env.view 0) s.disk s.pak e).toOption.map fun r =>
        (e.length, r.inflated_buf)) = some (64, none) := by
    decide +kernel
  rw [he, Option.bind_some] at hopens
  obtain ⟨r, hr, hfacts⟩ := Option.map_eq_some_iff.mp hopens
  obtain ⟨hlen, hbuf⟩ := Prod.mk.inj hfacts
  have hopen : pakka_open_entry_handle .storing (calm_env.view 0) s.disk s.pak e = .ok r := by
    generalize pakka_open_entry_handle .storing (calm_env.view 0) s.disk s.pak e = x at hr ⊢
    cases x with
    | error _ => cases hr
    | ok _ => rw [Option.some.inj hr]
  obtain ⟨content, -, hsize, hcoherent, -⟩ := interleaved_readers .storing created_pk3
    [(calm_env, add_zeros), (calm_env, .commit)] (fun _ => calm_env.view 0) (fun _ => e)
    (fun _ => r) 0 [.call true 3, .call false 40, .call true 100, .call false 1, .call true 1]
    Deflate.storing_correct Deflate.storing_nothing_from_nothing created_pk3_started
    (fun _ => List.mem_of_getElem? he) (fun _ => hopen) (by simp) (by simp) true
  refine ⟨e, List.mem_of_getElem? he, r, hopen, hbuf, content, ?_, hcoherent⟩
  rw [hsize, hlen]
  rfl

end Pakka
