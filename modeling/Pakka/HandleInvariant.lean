/-
What holds of a handle between calls, failing ones included.

The two session invariants say most of it, and `Staging` the rest: what is staged on a PAK-class
handle marks it dirty, and is there only when the handle is open for atomic commits. None of this
sees whether the handle has its file, so a commit that fails and loses the file keeps it. The one
part that the calls do not keep up is the count, which has 32 bits and no limit.

The statement of the module is an equivalence for that reason: after any calls the handle is in
order exactly if the count can hold the number of entries (`handle_invariant_iff`). A WAD, where
names may repeat, is the format for which a run that breaks it is short to write down.
-/
import Pakka.AtomicCommit
import Pakka.PakClose

set_option autoImplicit false

namespace Pakka

open ByteImage Logged

/-! ## The invariant

One predicate for handles of all formats, in terms of the code's own fields, with its relation to
the session invariants.
-/

/-- A handle in order but for its count, which is right up to the width of its field. -/
structure HandleOk (pak : Archive) : Prop where
  ends : (pak.entries = [] ↔ pak.tail = none) ∧
    ∀ i, pak.tail = some i → i + 1 = pak.entries.length
  count : pak.num_entries = UInt32.ofNat pak.entries.length
  on_disk : IsPakClass pak.format → ∀ e ∈ pak.entries, e.staged = false →
    e.offset.toNat + (pak_entry_on_disk_extent e).toNat ≤ pak.payload_end
  one_stage : ∀ e ∈ pak.entries, e.staged = true →
    e.pending_source.isSome = !e.pending_data.isSome
  staged : ∀ e ∈ pak.entries, e.staged = true → pak.dirty = true ∧ pak.needs_rebuild = true
  in_place : IsPakClass pak.format → pak.atomic_commit = false → ∀ e ∈ pak.entries,
    e.staged = false
  zip_rebuild : pakka_format_is_zip pak.format = true → pak.dirty = true →
    pak.needs_rebuild = true
  nodup : pakka_format_is_wad pak.format = false → (pak.entries.map Entry.filename).Nodup

/-- A handle in order. -/
structure HandleInvariant (pak : Archive) : Prop extends HandleOk pak where
  num_entries : pak.num_entries.toNat = pak.entries.length

/-- What is left to ask for is that the count fits. -/
theorem HandleOk.invariant_iff {pak : Archive} (h : HandleOk pak) :
    HandleInvariant pak ↔ pak.entries.length < 2 ^ 32 := by
  have hcount : pak.num_entries.toNat = pak.entries.length % 2 ^ 32 := by
    rw [h.count, UInt32.toNat_ofNat']
  constructor
  · intro hi
    rw [← hi.num_entries, hcount]
    exact Nat.mod_lt _ (by decide)
  · intro hlt
    exact ⟨h, hcount.trans (Nat.mod_eq_of_lt hlt)⟩

/-- The fields that the invariant does not name. -/
theorem HandleOk.congr {pak : Archive} (h : HandleOk pak) {fp : Bool} {method : UInt16}
    {diroffset dirlength : UInt32} :
    HandleOk { pak with
      fp := fp
      pk3_compression := method
      diroffset := diroffset
      dirlength := dirlength } :=
  ⟨h.ends, h.count, h.on_disk, h.one_stage, h.staged, h.in_place, h.zip_rebuild, h.nodup⟩

/-- The ends of a list with the right tail. -/
theorem Linked.ends {pak : Archive} (h : Linked pak) : (pak.entries = [] ↔ pak.tail = none) ∧
    ∀ i, pak.tail = some i → i + 1 = pak.entries.length := by
  rw [h.tail, lastIndex]
  split_ifs with h0
  · exact ⟨iff_of_true (List.eq_nil_of_length_eq_zero h0) rfl, fun i hi => by cases hi⟩
  · refine ⟨iff_of_false (fun hnil => h0 (by rw [hnil]; rfl)) (by simp), fun i hi => ?_⟩
    have := Option.some.inj hi
    omega

/-- One stage at most, and one when staged. -/
theorem exactly_one_stage {e : Entry} (h : e.pending_source = none ∨ e.pending_data = none)
    (hs : e.staged = true) : e.pending_source.isSome = !e.pending_data.isSome := by
  unfold Entry.staged at hs
  rcases h with h | h <;>
  · rw [h] at hs ⊢
    simpa using hs

/-- ZIP handles are in order. -/
theorem ZipState.handle_ok {n : ℕ} {pak : Archive} (h : ZipState n pak) : HandleOk pak := by
  have hcls := h.not_pak_class
  refine ⟨h.linked.ends, h.linked.count, fun hc => absurd hc hcls, ?_, ?_, fun hc => absurd hc hcls,
    fun _ => h.rebuild, h.linked.nodup⟩
  · intro e he hs
    exact exactly_one_stage (h.entries e he).one_stage hs
  · intro e he hs
    have hd := h.staged e he hs
    exact ⟨hd, h.rebuild hd⟩

/-! ## What is staged on a PAK-class handle

The calls that stage an entry set the mark themselves; for every other effect the staged entries are
a part of what was there.
-/

/-- What is staged marks the handle dirty, and the handle is open for atomic commits. -/
def Staging (pak : Archive) : Prop :=
  ∀ e ∈ pak.entries, e.staged = true → pak.dirty = true ∧ pak.atomic_commit = true

theorem Staging.of_on_disk {pak : Archive} (h : ∀ e ∈ pak.entries, e.staged = false) :
    Staging pak := by
  intro e he hs
  rw [h e he] at hs
  cases hs

/-- PAK-class handles are in order. -/
theorem PakState.handle_ok {n : ℕ} {pak : Archive} {geom : Geometry} (h : PakState n pak geom)
    (hs : Staging pak) : HandleOk pak := by
  refine ⟨h.linked.ends, h.count, fun _ e he => (h.entries e he).before_end, ?_, ?_, ?_, ?_,
    h.nodup⟩
  · intro e he
    exact exactly_one_stage (h.entries e he).one_stage
  · intro e he hst
    exact ⟨(hs e he hst).1, h.staged e he hst⟩
  · intro _ ha e he
    by_contra hst
    have := (hs e he (by simpa using hst)).2
    rw [ha] at this
    cases this
  · intro hz
    rw [not_zip_of_geometry h.geometry] at hz
    cases hz

/-- An order that is known gives the staging back. -/
theorem HandleOk.staging {pak : Archive} (h : HandleOk pak) (hcls : IsPakClass pak.format) :
    Staging pak := by
  intro e he hs
  refine ⟨(h.staged e he hs).1, ?_⟩
  by_contra ha
  have := h.in_place hcls (by simpa using ha) e he
  rw [hs] at this
  cases this

variable {df : Deflate} {env : Env} {c : Call} {s : Session} {disk : Bytes}

/-- What is staged was staged before or is added to a handle open for atomic commits. -/
theorem PakEffect.staged_atomic {pak pak' : Archive} {log : List (FileOp FileId)}
    (h : PakEffect env pak c log pak') (hl : Linked pak)
    (hold : ∀ e ∈ pak.entries, e.staged = true → pak.atomic_commit = true) :
    ∀ e ∈ pak'.entries, e.staged = true → pak'.atomic_commit = true := by
  have hadd : ∀ {p n st len log pak'}, PakAdded env pak p n st len log pak' →
      ∀ e ∈ pak'.entries, e.staged = true → pak'.atomic_commit = true := by
    intro p n st len log pak' ha e he hs
    cases ha with
    | staged hatomic => exact hatomic
    | source hatomic => exact hatomic
    | appended =>
      change e ∈ (link_entry pak _).entries at he
      rw [hl.link_entries, List.mem_append, List.mem_singleton] at he
      rcases he with he | rfl
      · exact hold e he hs
      · cases hs
  have hatomic := h.atomic
  cases h with
  | add_file _ _ _ ha => exact hadd ha
  | add_memory _ ha => exact hadd ha
  | name hn =>
    rw [hatomic]
    refine hn.forall_entries hl hold ?_ ?_
    · exact fun e he _ _ _ hs => hold e he hs
    · intro e he _ _ _ hs
      rw [copied_entry_staged] at hs
      exact hold e he hs

/-- **The effect of a call keeps what is staged in order.** -/
theorem PakEffect.staging {pak pak' : Archive} {log : List (FileOp FileId)}
    (h : PakEffect env pak c log pak') (hl : Linked pak) (hs : Staging pak) : Staging pak' := by
  intro e he hst
  refine ⟨?_, h.staged_atomic hl (fun e he hx => (hs e he hx).2) e he hst⟩
  rcases h.dirty_or with hd | ⟨-, hd, hents, -⟩
  · exact hd
  · rw [hents] at he
    rw [hd]
    exact (hs e he hst).1

/-! ## Runs

From an open on, through any calls, failing or not. A count that wraps is all that can go wrong, and
it takes 2^32 entries.
-/

/-- No commit of a run renames its new file into place and then fails to open it. -/
def Reopened (df : Deflate) : Session → List (Env × Call) → Prop
  | _, [] => True
  | s, (env, c) :: cs => ¬ reopen_failed df s env c ∧ Reopened df (s.step df env c).2 cs

/-- **One call keeps a handle in order**, whatever fails, unless the file it renamed into place
cannot be opened. -/
theorem HandleOk.step (h : HandleOk s.pak) (hr : Reached s) (hno : ¬ reopen_failed df s env c) :
    HandleOk (s.step df env c).2.pak := by
  have hout := hr.outcome df env c
  generalize (s.step df env c).2.pak = pak' at hout
  cases hout with
  | kept _ hpak =>
    rw [hpak]
    exact h.congr
  | pak hstate he =>
    have hcls : IsPakClass s.pak.format := Option.isSome_iff_exists.mpr ⟨_, hstate.geometry⟩
    obtain ⟨disk', -, hstate'⟩ := @PakState.effect _ _ _ _ _ _ _ (fun _ => some s.disk) hstate he rfl
    exact hstate'.handle_ok (he.staging hstate.linked (h.staging hcls))
  | zip hstate he => exact (hstate.effect he).handle_ok
  | committed _ hnew =>
    cases hnew with
    | pak hx => exact hx.state.handle_ok (.of_on_disk hx.on_disk)
    | zip hx => exact hx.state.handle_ok
  | lost _ hlost => exact absurd hlost hno

/-- **A run keeps a handle in order.** -/
theorem HandleOk.run (calls : List (Env × Call)) {s : Session} (h : HandleOk s.pak)
    (hr : Reached s) (hre : Reopened df s calls) : HandleOk (s.run df calls).pak := by
  induction calls generalizing s with
  | nil => exact h
  | cons p calls ih => exact ih (h.step hr hre.1) hr.step hre.2

/-- A session starts with its handle in order. -/
theorem Session.Started.handle_ok (h : Session.Started s) : HandleOk s.pak := by
  rcases h.format_class with hz | hcls
  · obtain ⟨disk, hl⟩ := h.zip_live hz
    exact hl.state.handle_ok
  · obtain ⟨geom, disk, hl⟩ := h.live hcls
    exact hl.state.handle_ok (.of_on_disk h.on_disk)

/-- **The invariant of a handle.** After any calls on an archive that was opened or created, each
succeeding or failing anywhere short of the reopen that follows the rename of a commit, the handle
is in order exactly when its count can hold the number of its entries. -/
theorem handle_invariant_iff (df : Deflate) (s₀ : Session) (calls : List (Env × Call))
    (hstart : Session.Started s₀) (hre : Reopened df s₀ calls) :
    HandleInvariant (s₀.run df calls).pak ↔ (s₀.run df calls).pak.entries.length < 2 ^ 32 :=
  (hstart.handle_ok.run calls hstart.reached hre).invariant_iff

/-- 2^32 empty lumps, each of them taken, are counted as none. -/
theorem crowded_wad_miscounted :
    Session.Started (crowded 0) ∧
      (crowded 0).runOk .storing (List.replicate (2 ^ 32) (calm_env, .add_memory lump_name [])) =
        some (crowded (2 ^ 32)) ∧
      (crowded (2 ^ 32)).pak.num_entries = 0 ∧ ¬ HandleInvariant (crowded (2 ^ 32)).pak := by
  have hcount : (crowded (2 ^ 32)).pak.num_entries = 0 := by
    rw [← UInt32.toNat_inj]
    exact UInt32.toNat_ofNat'
  refine ⟨crowded_started, crowded_runOk _ _, hcount, fun h => ?_⟩
  have hlen : (crowded (2 ^ 32)).pak.entries.length = 2 ^ 32 := List.length_replicate
  have hnum := h.num_entries
  rw [hcount, hlen] at hnum
  exact absurd hnum (by decide)

/-- A handle after an add that failed in the middle of its payload. -/
theorem handle_invariant_failed_add :
    HandleInvariant (created_pak.run .storing [(calm_env, add_a), (failing_write, add_zeros)]).pak ↔
      (created_pak.run .storing [(calm_env, add_a), (failing_write, add_zeros)]).pak.entries.length <
        2 ^ 32 :=
  handle_invariant_iff .storing created_pak [(calm_env, add_a), (failing_write, add_zeros)]
    created_pak_started ⟨fun h => absurd h.1 (by decide +kernel),
      fun h => absurd h.2 (by decide +kernel), trivial⟩

end Pakka
