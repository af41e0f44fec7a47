/-
Reading entries: `pakka_open_entry_handle` with its three kinds of entry, and
`pakka_reader_read`.

A reader serves either from a buffer filled when it was opened or from the
archive file. Allocations are taken to succeed. The archive file is the
argument `disk`, the handle is taken to be live.

The kinds differ in where the bytes come from: a buffer that was filled at the opening, the archive
file, or the decoder's output. A reader keeps an offset of its own, and every read starts from it.
`Delivers` is what a user of a reader sees, the bytes of all reads put together.
-/
import Pakka.Environment
import Pakka.DkCodec
import Pakka.PakLoad

set_option autoImplicit false

namespace Pakka

open ByteImage

/-- `struct pakka_reader`, less the archive pointer. -/
structure Reader where
  next_offset : ℕ
  remaining : ℕ
  inflated_buf : Option Bytes := none
  inflated_len : ℕ := 0
  inflated_cursor : ℕ := 0
  deriving DecidableEq

/-! ## Opening

The caps are compared before anything is allocated. A compressed entry is decoded as a whole.
-/

/-- The decompression cap, on both sizes. `0` disables it. -/
def exceeds_cap (max_decompressed : ℕ) (a b : UInt32) : Bool :=
  max_decompressed > 0 && (a.toNat > max_decompressed || b.toNat > max_decompressed)

/-- The staged bytes of an entry: a fresh look at its source, or its buffer. -/
def read_pending (sources : CStr → SourceView) (e : Entry) (n : ℕ) : Except Status Bytes :=
  match e.pending_source with
  | some src => do
    let _ ← check_source (sources src)
    let stream ← orError (sources src).stream .io
    orError (readExact stream 0 n) .io
  | none => .ok (slice (e.pending_data.getD []) 0 n)

/-- `pak_open_pending_reader`. -/
def pak_open_pending_reader (sources : CStr → SourceView) (pak : Archive) (r : Reader) (e : Entry) :
    Except Status Reader :=
  let extent := pak_entry_on_disk_extent e
  if extent = 0 then .ok { r with remaining := 0 }
  else do
    let buf ← read_pending sources e extent.toNat
    if e.dk_is_compressed then
      if exceeds_cap pak.max_decompressed e.length extent then .error .limit
      else if e.length = 0 then .ok { r with remaining := 0 }
      else do
        let out ← pakka_dk_inflate buf e.length.toNat
        pure { r with inflated_buf := some out, inflated_len := e.length.toNat }
    else pure { r with inflated_buf := some buf, inflated_len := extent.toNat }

/-- The DEFLATE payload of a ZIP entry, decoded and checked against both sizes. -/
def pk3_inflate_checked (df : Deflate) (compressed : Bytes) (length csize : ℕ) :
    Except Status Bytes := do
  let r ← df.inflate compressed length
  if r.1.length ≠ length ∨ r.2 ≠ csize then .error .format else pure r.1

/-- `pakka_pk3_open_entry_impl`. -/
def pakka_pk3_open_entry_impl (df : Deflate) (sources : CStr → SourceView) (disk : Bytes)
    (pak : Archive) (e : Entry) : Except Status Reader :=
  let r : Reader := { next_offset := e.pk3_payload_offset.toNat, remaining := e.length.toNat }
  let csize := e.pk3_compressed_size
  if exceeds_cap pak.max_decompressed e.length csize then .error .limit
  else if e.staged then
    if csize = 0 then .ok { r with remaining := 0 }
    else do
      let buf ← read_pending sources e csize.toNat
      if e.pk3_method = PK3_METHOD_DEFLATE then do
        let out ← pk3_inflate_checked df buf e.length.toNat csize.toNat
        if e.length = 0 then pure r
        else pure { r with inflated_buf := some out, inflated_len := e.length.toNat }
      else pure { r with inflated_buf := some buf, inflated_len := csize.toNat }
  else if e.pk3_method = PK3_METHOD_STORED then .ok r
  else if csize = 0 then .error .format
  else do
    let compressed ← orError (readExact disk e.pk3_payload_offset.toNat csize.toNat) .io
    let out ← pk3_inflate_checked df compressed e.length.toNat csize.toNat
    if e.length = 0 then pure r
    else pure { r with inflated_buf := some out, inflated_len := e.length.toNat }

/-- `pakka_open_entry_handle`. -/
def pakka_open_entry_handle (df : Deflate) (sources : CStr → SourceView) (disk : Bytes)
    (pak : Archive) (e : Entry) : Except Status Reader :=
  let r : Reader := { next_offset := e.offset.toNat, remaining := e.length.toNat }
  if ¬ pak.fp then .error .invalid_argument
  else if pakka_format_is_zip pak.format then
    pakka_pk3_open_entry_impl df sources disk pak e
  else if e.staged then pak_open_pending_reader sources pak r e
  else if pak.format = .daikatana ∧ e.dk_is_compressed then
    if exceeds_cap pak.max_decompressed e.length e.dk_compressed_size then .error .limit
    else do
      let compressed ← orError
        (readExact disk e.offset.toNat e.dk_compressed_size.toNat) .io
      let out ← pakka_dk_inflate compressed e.length.toNat
      if e.length = 0 then pure r
      else pure { r with inflated_buf := some out, inflated_len := e.length.toNat }
  else .ok r

/-! ## Reading

A read hands out at most what is asked for and what is left. A run is a list of sizes.
-/

/-- What one read leaves: its status, the reader, and the bytes delivered. -/
structure ReadResult where
  status : Status
  reader : Reader
  bytes : Bytes

/-- Serve `want` bytes from the buffer. -/
def read_from_buffer (r : Reader) (buf : Bytes) (want : ℕ) : ReadResult :=
  { status := .ok
    reader := { r with
      inflated_cursor := r.inflated_cursor + want
      remaining := r.remaining - want }
    bytes := slice buf r.inflated_cursor want }

/-- `pakka_pk3_reader_read_impl`. -/
def pakka_pk3_reader_read_impl (disk : Bytes) (r : Reader) (len : ℕ) : ReadResult :=
  let want := if len > r.remaining then r.remaining else len
  if r.remaining = 0 then ⟨.ok, r, []⟩
  else if r.inflated_buf.isSome || r.inflated_len > 0 then
    read_from_buffer r (r.inflated_buf.getD []) want
  else
    match readExact disk r.next_offset want with
    | none => ⟨.io, r, []⟩
    | some bytes =>
      ⟨.ok, { r with next_offset := r.next_offset + want, remaining := r.remaining - want },
        bytes⟩

/-- `pakka_reader_read`. -/
def pakka_reader_read (disk : Bytes) (pak : Archive) (r : Reader) (len : ℕ) : ReadResult :=
  if ¬ pak.fp then ⟨.invalid_argument, r, []⟩
  else if r.remaining = 0 ∨ len = 0 then ⟨.ok, r, []⟩
  else if pakka_format_is_zip pak.format then pakka_pk3_reader_read_impl disk r len
  else
    match r.inflated_buf with
    | some buf =>
      let available := r.inflated_len - r.inflated_cursor
      let chunk := if len < available then len else available
      if chunk = 0 then ⟨.ok, r, []⟩ else read_from_buffer r buf chunk
    | none =>
      let chunk := if len < r.remaining then len else r.remaining
      let got := slice disk r.next_offset chunk
      let r' := { r with
        next_offset := r.next_offset + got.length
        remaining := r.remaining - got.length }
      if got.length ≠ chunk then ⟨.io, r', got⟩ else ⟨.ok, r', got⟩

/-- Reads one after the other, until one fails. -/
def reader_run (disk : Bytes) (pak : Archive) : Reader → List ℕ → Except Status Bytes
  | _, [] => .ok []
  | r, len :: lens =>
    match pakka_reader_read disk pak r len with
    | ⟨.ok, r, bytes⟩ => do
      let rest ← reader_run disk pak r lens
      pure (bytes ++ rest)
    | ⟨s, _, _⟩ => .error s

/-- An entry can be opened and read to its end, in any chunk sizes, and what is read is
`content`. -/
def Delivers (df : Deflate) (sources : CStr → SourceView) (disk : Bytes) (pak : Archive)
    (e : Entry) (content : Bytes) : Prop :=
  ∃ r, pakka_open_entry_handle df sources disk pak e = .ok r ∧
    ∀ lens : List ℕ, reader_run disk pak r lens = .ok (content.take lens.sum)

end Pakka
