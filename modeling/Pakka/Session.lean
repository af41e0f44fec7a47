/-
The calls on a handle, for every format, and sessions: a handle together with the files it
works on, from the open or the create through any sequence of calls to the close.

A session is the unit that the results on runs are about. Its files are part of it, because a commit
may replace the archive file, and because a handle can outlive its file.

`Step` is the result of a call with its log; `Session.step` lets the log act on the files. A session
started by an open and one started by a create differ in their first handle and file only, and
`Started` covers both.
-/
import Pakka.ZipWrite
import Pakka.PakLoad

set_option autoImplicit false

namespace Pakka

open ByteImage Logged

/-! ## Calls

The public calls by name, each under its own environment.
-/

/-- `pakka_add_file`. -/
def pakka_add_file (df : Deflate) (env : Env) (pak : Archive) (source_path entry_name : CStr) :
    Op Archive :=
  if ¬ pak.writable ∨ ¬ pak.fp then fail .invalid_argument
  else do
    ofExcept (pak_add_preflight pak entry_name)
    let _ ← ofExcept (check_source (env.view 0 source_path))
    if pakka_format_is_zip pak.format then
      pakka_pk3_add_file_impl df env pak source_path entry_name
    else pak_add_file env pak source_path entry_name

/-- `pakka_add_memory`. -/
def pakka_add_memory (df : Deflate) (env : Env) (pak : Archive) (entry_name : CStr)
    (data : Bytes) : Op Archive :=
  if ¬ pak.writable ∨ ¬ pak.fp then fail .invalid_argument
  else do
    ofExcept (pak_add_preflight pak entry_name)
    if pakka_format_is_zip pak.format then pakka_pk3_add_memory_impl df env pak entry_name data
    else pak_add_memory env pak entry_name data

/-- `pakka_commit` on a handle whose live file holds `disk`. -/
def pakka_commit (env : Env) (disk : Bytes) (pak : Archive) : HandleOp Archive :=
  if ¬ pak.dirty then pure pak
  else if ¬ pak.writable ∨ ¬ pak.fp then fail (.invalid_argument, pak)
  else if pakka_format_is_zip pak.format then pakka_pk3_commit_impl env disk pak
  else if ¬ pak.needs_rebuild ∧ ¬ pak.atomic_commit then pakka_commit_in_place env pak
  else pakka_commit_rebuild env disk pak

/-- A call on a handle. -/
inductive Call where
  | add_file (source_path entry_name : CStr)
  | add_memory (entry_name : CStr) (data : Bytes)
  | delete (entry_name : CStr)
  | rename (old_name new_name : CStr)
  | copy (src_name dst_name : CStr)
  | set_compression (method : UInt16)
  | commit
  deriving DecidableEq

/-- The name a call gives an entry. -/
def Call.new_name : Call → Option CStr
  | .add_file _ entry_name => some entry_name
  | .add_memory entry_name _ => some entry_name
  | .rename _ new_name => some new_name
  | .copy _ dst_name => some dst_name
  | _ => none

/-- What a call does on a handle whose live file holds `disk`. -/
def pakka_call (df : Deflate) (env : Env) (disk : Bytes) (pak : Archive) : Call → Step
  | .add_file source_path entry_name =>
    .ofOp pak (pakka_add_file df env pak source_path entry_name)
  | .add_memory entry_name data => .ofOp pak (pakka_add_memory df env pak entry_name data)
  | .delete entry_name => .ofOp pak (pakka_delete pak entry_name)
  | .rename old_name new_name => .ofOp pak (pakka_rename pak old_name new_name)
  | .copy src_name dst_name => .ofOp pak (pakka_copy env pak src_name dst_name)
  | .set_compression method => .ofOp pak (pakka_set_compression pak method)
  | .commit => .of (pakka_commit env disk pak)

/-! ## Creating and closing

A create starts with an empty archive at a scratch path, and a close publishes it under its name.
-/

/-- The format a created archive has: `auto` stands for PAK. -/
def pakka_create_format (format : Format) : Format := if format = .auto then .pak else format

/-- The handle of a created archive, before anything is written. -/
def create_initial (format : Format) : Archive :=
  { format := pakka_create_format format
    max_decompressed := if format = .daikatana then PK3_DEFAULT_MAX_DECOMPRESSED else 0
    fp := true
    is_new := true
    writable := true }

/-- `pakka_create` where `dest_exists` says whether there is a file at `path` already. The new
archive lives in a temporary file. -/
def pakka_create (env : Env) (path : CStr) (format : Format) (dest_exists : Bool) : Op Archive :=
  if path.strlen ≥ OS_PATH_MAX then fail .limit
  else if dest_exists then fail .exists
  else do
    call env.faults .mkstemp .io
    emit (.create .live)
    if pakka_format_is_zip format then pakka_pk3_create_impl env (create_initial format)
    else do
      let pak := init_pak_header (create_initial format)
      writeAt env.faults .header .live 0 (pak_header pak) .io
      pure pak

/-- The publishing end of `pakka_close`, once the implicit commit went well. -/
def close_publish (env : Env) (pak : Archive) (dest_exists : Bool) : Op Unit :=
  if pak.is_new then
    if pak.fp ∧ env.faults.fails .close then fail .io
    else if dest_exists then fail .exists
    else do
      call env.faults .publish .io
      emit (.rename .live .dest)
  else pure ()

/-- `pakka_close`: its status and what it does to the files. -/
def pakka_close (env : Env) (disk : Bytes) (pak : Archive) (dest_exists : Bool) :
    Logged FileId Status Unit := do
  let pak ← (if pak.dirty then pakka_commit env disk pak else pure pak).mapError Prod.fst
  close_publish env pak dest_exists

/-! ## Sessions

A run that keeps going after failures, and one that wants every call to succeed.
-/

/-- A handle and its files. -/
structure Session where
  files : Files FileId
  pak : Archive

namespace Session

/-- The contents of the live file. -/
def disk (s : Session) : Bytes := (s.files .live).getD []

/-- The session after a call, and the call's status. -/
def step (df : Deflate) (env : Env) (s : Session) (c : Call) : Status × Session :=
  let r := pakka_call df env s.disk s.pak c
  (r.status, ⟨FileOp.run s.files r.log, r.pak⟩)

/-- The session after calls that may fail. -/
def run (df : Deflate) : Session → List (Env × Call) → Session
  | s, [] => s
  | s, (env, c) :: cs => run df (s.step df env c).2 cs

/-- The session after calls that all succeed. -/
def runOk (df : Deflate) : Session → List (Env × Call) → Option Session
  | s, [] => some s
  | s, (env, c) :: cs =>
    if (s.step df env c).1 = .ok then runOk df (s.step df env c).2 cs else none

/-- Where all calls succeed, the two runs are one. -/
theorem runOk_eq_run {df : Deflate} {s : Session} {calls : List (Env × Call)}
    (h : (s.runOk df calls).isSome = true) : s.runOk df calls = some (s.run df calls) := by
  induction calls generalizing s with
  | nil => rfl
  | cons p calls ih =>
    obtain ⟨env, c⟩ := p
    rw [runOk] at h ⊢
    by_cases hok : (s.step df env c).1 = .ok
    · rw [if_pos hok] at h ⊢
      exact ih h
    · rw [if_neg hok] at h
      cases h

/-- A call that succeeds over and over, from one session of a sequence to the next. -/
theorem runOk_replicate {df : Deflate} {env : Env} {c : Call} {s : ℕ → Session}
    (hstep : ∀ n, (s n).step df env c = (.ok, s (n + 1))) (n k : ℕ) :
    (s k).runOk df (List.replicate n (env, c)) = some (s (k + n)) := by
  induction n generalizing k with
  | zero => rfl
  | succ n ih =>
    rw [List.replicate_succ, runOk, hstep, if_pos rfl, ih]
    congr 2
    omega

/-- The files after a close, and its status. -/
def close (env : Env) (s : Session) : Except Status Unit × Files FileId :=
  let r := pakka_close env s.disk s.pak (s.files .dest).isSome
  (r.res, FileOp.run s.files r.log)

/-- Where a session's archive is found in the end: a created one where `pakka_close` puts it. -/
def archive_file (s : Session) : FileId := if s.pak.is_new then .dest else .live

/-- The session an open starts. -/
def opened (disk : Bytes) (pak : Archive) : Session :=
  { files := Function.update (fun _ => none) .live (some disk), pak := pak }

/-- The session a create starts. -/
def created (x : Op Archive) (pak : Archive) : Session :=
  { files := FileOp.run (fun _ => none) x.log, pak := pak }

/-- How a session starts: by opening a file, or by creating an archive. -/
inductive Started : Session → Prop where
  | opened {path : CStr} {mode : OpenMode} {hint : Format} {disk : Bytes} {pak : Archive}
      (h : pakka_open_ex path mode hint (some disk) = .ok pak) : Started (opened disk pak)
  | created {env : Env} {path : CStr} {format : Format} {pak : Archive}
      (h : (pakka_create env path format false).res = .ok pak) :
      Started (created (pakka_create env path format false) pak)

end Session

end Pakka
