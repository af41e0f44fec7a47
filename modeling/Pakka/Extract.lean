/-
Extraction: `op_extract` of the command line and the file opening under it.

The preflight chooses the entries, refuses names that are not safe and names that collide, and only
then does the write pass touch the destination. The filesystem is a tree of directories, files and
symbolic links. Each entry is written under its own schedule of failing calls; a buffered write is
taken to reach the file at once.

A safe name is no protection against what is already in the destination, so the target is opened one
component at a time without following links, and a component that is missing is made and then opened
the same way. These are system calls, and each may fail or find something else in the place; the
tree is therefore part of the state.
-/
import Pakka.ExtractNames
import Pakka.Reader
import Pakka.Lib.FileTree

set_option autoImplicit false

namespace Pakka

open ByteImage FileTree

/-! ## The preflight

Which entries are chosen, and the two refusals. The comparison is made on a sorted list of
normalised target names, on neighbours only.
-/

/-- What ends an extraction early. -/
inductive Fatal where
  | destination
  | empty (path : CStr)
  | unsafe_name (name : CStr)
  | not_found (path : CStr)
  | collision (norm : Bytes)
  | target (name : CStr)
  | entry (s : Status)
  | write (name : CStr)
  | finalize (name : CStr)
  deriving DecidableEq

/-- The match of a name against the path arguments, and which of these have matched by now. -/
def match_paths (wad : Bool) (name : CStr) : List CStr → List Bool → Bool × List Bool
  | path :: paths, path_matched :: rest =>
    let r := match_paths wad name paths rest
    if name = path then
      if wad && path_matched then (r.1, path_matched :: r.2) else (true, true :: r.2)
    else (r.1, path_matched :: r.2)
  | _, path_matched => (false, path_matched)

/-- Passes 1a and 1b: the entries to extract, and which path arguments have matched. -/
def select_entries (wad : Bool) (paths : List CStr) :
    List Entry → List Bool → Except Fatal (List Entry × List Bool)
  | [], path_matched => .ok ([], path_matched)
  | e :: es, path_matched =>
    let m := if paths.isEmpty then (true, path_matched)
      else match_paths wad e.filename paths path_matched
    if ¬ m.1 then select_entries wad paths es m.2
    else if pakka_unsafe_entry_name e.filename then .error (.unsafe_name e.filename)
    else
      match select_entries wad paths es m.2 with
      | .error x => .error x
      | .ok (chosen, path_matched) => .ok (e :: chosen, path_matched)

/-- The first path argument that matched nothing. -/
def unmatched_path : List CStr → List Bool → Option CStr
  | path :: paths, path_matched :: rest =>
    if ¬ path_matched then some path else unmatched_path paths rest
  | _, _ => none

/-- The first of two equal neighbours. -/
def first_adjacent : List Bytes → Option Bytes
  | a :: b :: rest => if a = b then some b else first_adjacent (b :: rest)
  | _ => none

/-- Pass 1c: a normalised name two of the chosen entries share. -/
def extract_collision (chosen : List Entry) : Option Bytes :=
  if chosen.length > 1 then
    first_adjacent ((chosen.map fun e => extract_norm e.filename).insertionSort
      fun a b => strcmp_le a b = true)
  else none

/-- The preflight of `op_extract`: the entries its write pass goes over. -/
def op_extract_preflight (pak : Archive) (paths : List CStr) : Except Fatal (List Entry) :=
  if pak.num_entries = 0 then
    match paths with
    | [] => .ok []
    | path :: _ => .error (.empty path)
  else
    match select_entries (pakka_format_is_wad pak.format) paths pak.entries
        (List.replicate paths.length false) with
    | .error x => .error x
    | .ok (chosen, path_matched) =>
      match unmatched_path paths path_matched with
      | some path => .error (.not_found path)
      | none =>
        match extract_collision chosen with
        | some norm => .error (.collision norm)
        | none => .ok chosen

/-! ## Opening the target

`pakka_platform_open_extract_target`: down to the parent, and the file in it.
-/

/-- Where an extraction can fail while it writes one entry. -/
inductive ExtractSite where
  | open_dest
  | descend (i : ℕ)
  | mkdir (i : ℕ)
  | redescend (i : ℕ)
  | leaf
  | fdopen
  | write (k : ℕ)
  | close
  deriving DecidableEq, Repr

/-- The filesystem. -/
abbrev Fs := Tree Bytes Bytes

/-- A component as the system reads it. -/
def path_comp (seg : Bytes) : Comp Bytes :=
  if seg = [0x2E] then .dot else if seg = [0x2E, 0x2E] then .dotdot else .name seg

/-- A system call that may fail. -/
def attempt {α : Type} (σ : Schedule ExtractSite) (site : ExtractSite) (x : Except Errno α) :
    Except Errno α :=
  if σ.fails site then .error .eio else x

/-- The second `openat` of a directory, once it has been made. -/
def extract_redescend (σ : Schedule ExtractSite) (i : ℕ) (dirfd : List Bytes) (comp : Bytes)
    (fs : Fs) : Option (List Bytes) × Fs :=
  match attempt σ (.redescend i) (fs.openat dirfd [path_comp comp] .descend) with
  | .error _ => (none, fs)
  | .ok (newfd, fs) => (some newfd, fs)

/-- Into the directory of the `i`-th component, which is made if it is missing. -/
def extract_descend (σ : Schedule ExtractSite) (i : ℕ) (dirfd : List Bytes) (comp : Bytes)
    (fs : Fs) : Option (List Bytes) × Fs :=
  match attempt σ (.descend i) (fs.openat dirfd [path_comp comp] .descend) with
  | .ok (newfd, fs) => (some newfd, fs)
  | .error .enoent =>
    match attempt σ (.mkdir i) (fs.mkdirat dirfd [path_comp comp]) with
    | .ok fs => extract_redescend σ i dirfd comp fs
    | .error .eexist => extract_redescend σ i dirfd comp fs
    | .error _ => (none, fs)
  | .error _ => (none, fs)

/-- The walk over the path, at component `i`; `seg` is the current one up to here. -/
def extract_walk (σ : Schedule ExtractSite) :
    Bytes → Bytes → ℕ → List Bytes → Fs → Option (List Bytes) × Fs
  | [], seg, _, dirfd, fs =>
    if seg.length = 0 then (none, fs)
    else if seg.length ≥ OS_PATH_MAX then (none, fs)
    else
      match attempt σ .leaf (fs.openat dirfd [path_comp seg] .deliver) with
      | .error _ => (none, fs)
      | .ok (leaf_fd, fs) => if σ.fails .fdopen then (none, fs) else (some leaf_fd, fs)
  | c :: rest, seg, i, dirfd, fs =>
    if is_separator c then
      if seg.length = 0 then extract_walk σ rest [] i dirfd fs
      else if seg.length ≥ OS_PATH_MAX then (none, fs)
      else
        match extract_descend σ i dirfd seg fs with
        | (none, fs) => (none, fs)
        | (some newfd, fs) => extract_walk σ rest [] (i + 1) newfd fs
    else extract_walk σ rest (seg ++ [c]) i dirfd fs

/-- `pakka_platform_open_extract_target`: the location of the opened file, if there is one, and the
filesystem afterwards. -/
def pakka_platform_open_extract_target (σ : Schedule ExtractSite) (fs : Fs)
    (dest_dir : List (Comp Bytes)) (rel_path : CStr) : Option (List Bytes) × Fs :=
  match attempt σ .open_dest (fs.openat [] dest_dir { directory := true }) with
  | .error _ => (none, fs)
  | .ok (dirfd, fs) => extract_walk σ rel_path.bytes [] 0 dirfd fs

/-! ## The write pass

Reading an entry in blocks and writing what was read, entry after entry. The first failure ends the
extraction.
-/

/-- A read that delivers something leaves less to read. -/
theorem pakka_reader_read_progress {disk : Bytes} {pak : Archive} {r : Reader} {len : ℕ}
    (h : (pakka_reader_read disk pak r len).bytes ≠ []) :
    (pakka_reader_read disk pak r len).reader.remaining < r.remaining := by
  unfold pakka_reader_read pakka_pk3_reader_read_impl at h ⊢
  by_cases hfp : ¬ pak.fp = true
  · rw [if_pos hfp] at h
    exact absurd rfl h
  rw [if_neg hfp] at h ⊢
  by_cases hz : r.remaining = 0 ∨ len = 0
  · rw [if_pos hz] at h
    exact absurd rfl h
  rw [if_neg hz] at h ⊢
  by_cases hzip : pakka_format_is_zip pak.format = true
  · rw [if_pos hzip] at h ⊢
    have hwant : 0 < (if len > r.remaining then r.remaining else len) := by
      split_ifs <;> omega
    simp only at h ⊢
    generalize (if len > r.remaining then r.remaining else len) = want at h hwant ⊢
    rw [if_neg (by omega)] at h ⊢
    split_ifs at h ⊢
    · simp only [read_from_buffer]
      omega
    · split at h
      · exact absurd rfl h
      · simp only
        omega
  · rw [if_neg hzip] at h ⊢
    cases hb : r.inflated_buf with
    | some buf =>
      rw [hb] at h
      simp only at h ⊢
      split_ifs at h ⊢ <;> first
        | exact absurd rfl h
        | (simp only [read_from_buffer]; omega)
    | none =>
      rw [hb] at h
      simp only at h ⊢
      generalize slice disk r.next_offset (if len < r.remaining then len else r.remaining) = got
        at h ⊢
      have hgot : 0 < got.length := by
        split_ifs at h <;> exact List.length_pos_iff.mpr h
      split_ifs <;> simp only <;> omega

/-- Read an entry to its end and write what comes. `out` is written already. -/
def extract_copy (σ : Schedule ExtractSite) (disk : Bytes) (pak : Archive) (name : CStr)
    (tfd : List Bytes) (k : ℕ) (reader : Reader) (out : Bytes) (fs : Fs) :
    Except Fatal Unit × Fs :=
  let res := pakka_reader_read disk pak reader PAKFILE_COPY_CHUNK
  if res.status ≠ .ok then (.error (.entry res.status), fs)
  else if _h : res.bytes = [] then (.ok (), fs)
  else if σ.fails (.write k) then
    (.error (.write name), fs.store tfd (out ++ res.bytes.take (σ.cut (.write k))))
  else
    extract_copy σ disk pak name tfd (k + 1) res.reader (out ++ res.bytes)
      (fs.store tfd (out ++ res.bytes))
  termination_by reader.remaining
  decreasing_by exact pakka_reader_read_progress _h

/-- The payload of an entry into its target. An entry of no bytes is not opened. -/
def extract_payload (df : Deflate) (sources : CStr → SourceView) (disk : Bytes) (pak : Archive)
    (σ : Schedule ExtractSite) (e : Entry) (tfd : List Bytes) (fs : Fs) :
    Except Fatal Unit × Fs :=
  if e.length = 0 then (.ok (), fs)
  else
    match pakka_open_entry_handle df sources disk pak e with
    | .error s => (.error (.entry s), fs)
    | .ok reader => extract_copy σ disk pak (extract_name e.filename) tfd 0 reader [] fs

/-- One entry. -/
def extract_entry (df : Deflate) (sources : CStr → SourceView) (disk : Bytes) (pak : Archive)
    (σ : Schedule ExtractSite) (realdest : List (Comp Bytes)) (e : Entry) (fs : Fs) :
    Except Fatal Unit × Fs :=
  match pakka_platform_open_extract_target σ fs realdest (extract_name e.filename) with
  | (none, fs) => (.error (.target (extract_name e.filename)), fs)
  | (some tfd, fs) =>
    match extract_payload df sources disk pak σ e tfd fs with
    | (.error x, fs) => (.error x, fs)
    | (.ok (), fs) =>
      if σ.fails .close then (.error (.finalize (extract_name e.filename)), fs) else (.ok (), fs)

/-- Pass 2: the chosen entries in order. `faults i` is what fails while the `i`-th is written. -/
def extract_entries (df : Deflate) (sources : CStr → SourceView) (disk : Bytes) (pak : Archive)
    (faults : ℕ → Schedule ExtractSite) (realdest : List (Comp Bytes)) :
    ℕ → List Entry → Fs → Except Fatal Unit × Fs
  | _, [], fs => (.ok (), fs)
  | i, e :: es, fs =>
    match extract_entry df sources disk pak (faults i) realdest e fs with
    | (.error x, fs) => (.error x, fs)
    | (.ok (), fs) => extract_entries df sources disk pak faults realdest (i + 1) es fs

/-- `op_extract` of the entries that `paths` name, or of all. -/
def op_extract (df : Deflate) (sources : CStr → SourceView) (disk : Bytes) (pak : Archive)
    (faults : ℕ → Schedule ExtractSite) (destination : List (Comp Bytes)) (paths : List CStr)
    (fs : Fs) : Except Fatal Unit × Fs :=
  match fs.openat [] destination { directory := true } with
  | .error _ => (.error .destination, fs)
  | .ok (realdest, _) =>
    match op_extract_preflight pak paths with
    | .error x => (.error x, fs)
    | .ok chosen =>
      extract_entries df sources disk pak faults (realdest.map Comp.name) 0 chosen fs

end Pakka
