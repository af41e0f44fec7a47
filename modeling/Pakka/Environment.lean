/-
What the library is given from outside: the source files of an add, as a call finds them, which of
its system calls and allocations fail, and the DEFLATE backend.

None of it is under the control of the library. A source file may change between the moment an add
looks at it and the moment a commit reads it, and a call may fail at any site the code can see fail.
So these are parameters, and the results quantify over them. A quiet environment, in which nothing
fails, is one of the instances.

The DEFLATE backend is a parameter because the library chooses one when it is built. What is asked
of it is what the interface documents, and the results that need it take it as a named hypothesis.
The backend that only stores its input shows that the hypotheses can be met; what the vendored codec
has of them is shown in a module of its own.
-/
import Pakka.Basic
import Pakka.Lib.Faults

set_option autoImplicit false

namespace Pakka

open ByteImage

/-! ## Source files

A view of a file: its size when it was looked at, and the bytes that reading it gives.
-/

/-- What one pass over a source path meets. Each field is the answer of one system call,
so a source that changes, disappears or turns into a symbolic link between two calls
is a view like any other. -/
structure SourceView where
  /-- `pakka_platform_is_reparse_or_symlink`. -/
  reparse : Bool
  /-- `pakka_platform_lstat`: whether the file is regular, and its size. -/
  lstat : Option (Bool × ℕ)
  /-- `pakka_platform_fopen` and what can be read from the stream. -/
  stream : Option Bytes
  /-- `pakka_filesize`. -/
  filesize : Option ℕ
  /-- Whether reading past the last readable byte is an error rather than the end. -/
  read_error : Bool
  deriving DecidableEq

/-- A regular file with the given contents, and nothing going wrong. -/
def SourceView.ofFile (contents : Bytes) : SourceView :=
  { reparse := false
    lstat := some (true, contents.length)
    stream := some contents
    filesize := some contents.length
    read_error := false }

/-- The source-side hardening: no symbolic link, and a regular file. The result is the
size `lstat` reports. -/
def check_source (v : SourceView) : Except Status ℕ :=
  if v.reparse then .error .unsafe_name
  else
    match v.lstat with
    | none => .error .io
    | some (regular, size) => if ¬ regular then .error .unsafe_name else .ok size

/-! ## One call

The sites of a call that can fail, by name, and for each call which of them do.
-/

/-- The sites of a call on a handle where something can fail. Sites in a loop carry the index
of the entry, and of the chunk in a loop over chunks. -/
inductive Site where
  /- adds and copies -/
  | entry
  | capture
  | encode
  | stash
  | seek_append
  /- commits -/
  | bookkeeping
  | mkstemp
  | seek_scratch
  | dedup
  | tell (i : ℕ)
  | seek_source (i : ℕ)
  | buffer (i : ℕ)
  | read (i k : ℕ)
  | write (i k : ℕ)
  | tell_end
  | rollback
  | seek_directory
  | row (i : ℕ)
  | seek_header
  | header
  | local_header (i : ℕ)
  | seek_cdr
  | record (i : ℕ)
  | eocd
  | flush
  | truncate
  | close_scratch
  | close_live
  | rename
  | reopen
  /- close -/
  | close
  | publish
  deriving DecidableEq, Repr

/-- What one call on a handle meets outside: what each pass over a source path finds, and
which sites fail. An add passes over its source twice at most; pass `i` of a commit is the
one for entry `i`. -/
structure Env where
  view : ℕ → CStr → SourceView
  faults : Schedule Site

/-- Nothing fails, and the sources hold `files`. -/
def Env.quiet (files : CStr → Bytes) : Env :=
  { view := fun _ path => .ofFile (files path)
    faults := .calm Site }

/-! ## DEFLATE

Two functions and the properties that callers rely on.
-/

/-- The backend behind `deflate_iface.h`. `compress` answers `none` when the encoding is not
smaller; `inflate src cap` delivers the bytes written and the count consumed. A failure is
reported by a status that is not `ok`. -/
structure Deflate where
  compress : Bytes → Except Status (Option Bytes)
  inflate : Bytes → ℕ → Except Status (Bytes × ℕ)
  compress_smaller : ∀ {src enc}, compress src = .ok (some enc) → enc.length < src.length
  compress_error : ∀ {src s}, compress src = .error s → s ≠ .ok
  inflate_error : ∀ {src cap s}, inflate src cap = .error s → s ≠ .ok

/-- No payload is a stream: whatever the backend makes of no bytes, it is not output. -/
def Deflate.NothingFromNothing (df : Deflate) : Prop :=
  ∀ {cap out used}, df.inflate [] cap = .ok (out, used) → out = []

/-- The contract of the interface: what was compressed inflates to its source and is consumed
whole. -/
def Deflate.Correct (df : Deflate) : Prop :=
  ∀ {src enc}, df.compress src = .ok (some enc) →
    df.inflate enc src.length = .ok (src, enc.length)

/-- The backend that finds no encoding smaller than its source and decodes nothing. -/
def Deflate.storing : Deflate :=
  { compress := fun _ => .ok none
    inflate := fun _ _ => .error .format
    compress_smaller := fun h => by cases h
    compress_error := fun h => by cases h
    inflate_error := fun h => by
      rw [← Except.error.inj h]
      simp }

theorem Deflate.storing_correct : Deflate.storing.Correct := fun h => by cases h

theorem Deflate.storing_nothing_from_nothing : Deflate.storing.NothingFromNothing :=
  fun h => by cases h

end Pakka
