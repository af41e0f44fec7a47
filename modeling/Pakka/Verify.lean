/-
`pakka_verify`: one finding for each entry, and under the deep flag a decode of every
compressed payload, then the scan for names that collide once normalised.

Findings carry severity, status and entry name; the message texts are left out, as is the
error record that repeats the first error finding.

Verification does not go through the readers. It has extents, decoders and limits of its own, and
what a clean report is worth for reading is the business of `VerifySound.lean`.
-/
import Pakka.Reader

set_option autoImplicit false

namespace Pakka

open ByteImage

/-! ## Findings

What a report consists of.
-/

/-- `pakka_report_severity_t`. -/
inductive Severity where
  | info
  | warning
  | error
  deriving DecidableEq, Repr

/-- One call of the report function. -/
structure Finding where
  severity : Severity
  status : Status
  entry_name : CStr
  deriving DecidableEq

/-- `PAKKA_VERIFY_DEEP`. -/
abbrev PAKKA_VERIFY_DEEP : UInt32 := 0x1

/-! ## One entry

The extent, and under the deep flag the payload.
-/

/-- Where the payload of an entry is on disk, and how long. -/
def verify_extent (format : Format) (e : Entry) : UInt32 × UInt32 :=
  if pakka_format_is_zip format then (e.pk3_payload_offset, e.pk3_compressed_size)
  else if e.dk_is_compressed then (e.offset, e.dk_compressed_size)
  else (e.offset, e.length)

/-- The chunked read of a payload: whether `remaining` bytes can be read from `pos` on. -/
def verify_stream (disk : Bytes) (pos remaining : ℕ) : Bool :=
  if remaining = 0 then true
  else
    let chunk := if remaining > PAKFILE_COPY_CHUNK then PAKFILE_COPY_CHUNK else remaining
    match readExact disk pos chunk with
    | none => false
    | some _ => verify_stream disk (pos + chunk) (remaining - chunk)
  termination_by remaining
  decreasing_by
    simp only [PAKFILE_COPY_CHUNK] at *
    split_ifs <;> omega

/-- `pakka_pk3_deep_verify_entry`. -/
def pakka_pk3_deep_verify_entry (df : Deflate) (disk : Bytes) (pak : Archive) (e : Entry) :
    Except Status Unit :=
  if e.staged then .ok ()
  else if exceeds_cap pak.max_decompressed e.length e.pk3_compressed_size then .error .limit
  else if e.length = 0 ∧ e.pk3_compressed_size = 0 then
    if e.crc32 ≠ 0 then .error .format else .ok ()
  else do
    let compressed ← orError
      (readExact disk e.pk3_payload_offset.toNat e.pk3_compressed_size.toNat) .io
    if e.pk3_method = PK3_METHOD_STORED then
      if crc32_of compressed ≠ e.crc32 then .error .format else .ok ()
    else if e.length = 0 then do
      let _ ← pk3_inflate_checked df compressed 0 e.pk3_compressed_size.toNat
      if e.crc32 = 0 then .ok () else .error .format
    else do
      let inflated ← pk3_inflate_checked df compressed e.length.toNat e.pk3_compressed_size.toNat
      if crc32_of inflated ≠ e.crc32 then .error .format else .ok ()

/-- The decode of a compressed Daikatana entry. -/
def dk_deep_verify_entry (disk : Bytes) (pak : Archive) (e : Entry) : Except Status Unit :=
  if exceeds_cap pak.max_decompressed e.length e.dk_compressed_size then .error .limit
  else do
    let cbuf ← orError (readExact disk e.offset.toNat e.dk_compressed_size.toNat) .io
    let _ ← pakka_dk_inflate cbuf e.length.toNat
    pure ()

/-- The part of `verify_entry` behind the deep flag. -/
def deep_verify_entry (df : Deflate) (disk : Bytes) (pak : Archive) (e : Entry) :
    Except Status Unit :=
  if pakka_format_is_zip pak.format then pakka_pk3_deep_verify_entry df disk pak e
  else if pak.format = .daikatana ∧ e.dk_is_compressed then dk_deep_verify_entry disk pak e
  else .ok ()

/-- `verify_entry`: what it reports of an entry. -/
def verify_entry (df : Deflate) (disk : Bytes) (pak : Archive) (deep : Bool) (e : Entry) :
    Finding :=
  let extent := verify_extent pak.format e
  if pakka_unsafe_entry_name e.filename then ⟨.error, .unsafe_name, e.filename⟩
  else if e.staged then ⟨.info, .ok, e.filename⟩
  else if extent.2 = 0 ∧ e.length = 0 then ⟨.info, .ok, e.filename⟩
  else if ¬ verify_stream disk extent.1.toNat extent.2.toNat then ⟨.error, .io, e.filename⟩
  else if deep then
    match deep_verify_entry df disk pak e with
    | .error s => ⟨.error, s, e.filename⟩
    | .ok () => ⟨.info, .ok, e.filename⟩
  else ⟨.info, .ok, e.filename⟩

/-! ## Collisions

Normalised names, sorted, neighbours compared.
-/

/-- `verify_collision_record_t`. -/
structure CollisionRecord where
  norm : Bytes
  original : CStr

def verify_collision_record (e : Entry) : CollisionRecord :=
  ⟨pakka_normalize_entry_name e.filename (e.filename.strlen + 1), e.filename⟩

/-- What the scan over the sorted records reports. -/
def verify_collisions (format : Format) : List CollisionRecord → List Finding
  | a :: b :: rest =>
    (if a.norm = b.norm then
      [⟨if pakka_format_is_wad format then .warning else .error, .duplicate, b.original⟩]
    else []) ++ verify_collisions format (b :: rest)
  | _ => []

/-! ## The archive

The findings in the order of the source, and the status they make.
-/

/-- The status `pakka_verify` settles on: that of the first error. -/
def first_error : List Finding → Status
  | [] => .ok
  | f :: fs => if f.severity = .error then f.status else first_error fs

/-- The findings of both passes. `qsort` may order records of equal names either way; here they
stay in list order. -/
def verify_findings (df : Deflate) (disk : Bytes) (pak : Archive) (deep : Bool) : List Finding :=
  pak.entries.map (verify_entry df disk pak deep) ++
    verify_collisions pak.format ((pak.entries.map verify_collision_record).insertionSort
      fun a b => strcmp_le a.norm b.norm = true)

/-- `pakka_verify`: its status and what it reports. -/
def pakka_verify (df : Deflate) (disk : Bytes) (pak : Archive) (flags : UInt32) :
    Status × List Finding :=
  if flags &&& ~~~PAKKA_VERIFY_DEEP ≠ 0 then (.invalid_argument, [])
  else if ¬ pak.fp then (.invalid_argument, [])
  else
    let findings := verify_findings df disk pak (flags &&& PAKKA_VERIFY_DEEP ≠ 0)
    (first_error findings, findings)

/-- `pakka_set_max_decompressed_size`. -/
def pakka_set_max_decompressed_size (pak : Archive) (max_bytes : ℕ) : Archive :=
  { pak with max_decompressed := max_bytes }

end Pakka
