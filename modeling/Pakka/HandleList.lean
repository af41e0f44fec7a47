/-
The entry list of a handle, for every format: its tail, its count and its names.

Every mutator works on the list through the cached tail and counts by hand. `Linked` says that
tail and count are right and that names do not repeat where they must not; linking a node and the
calls that name an existing entry keep it so.

The count is a 32-bit number that is added to and subtracted from without a check, so it is the
length of the list modulo 2^32.

The source keeps a linked list with a pointer to its last node. Here the list is a list and the tail
an index, and whether the index is right is part of what has to be shown. `find_entry_index` finds
the first entry of a name, so the edits mean the first one, as in `Catalogue`.
-/
import Pakka.PakEffect
import Pakka.LoaderInvariant
import Pakka.Lib.Catalogue

set_option autoImplicit false

namespace Pakka

/-! ## New names

What the preflight of an add lets through.
-/

theorem pak_add_preflight_ok {pak : Archive} {name : CStr} {u : Unit} :
    pak_add_preflight pak name = .ok u ↔
      entry_name_too_long pak.format name = false ∧ pakka_unsafe_entry_name name = false ∧
      (pakka_format_is_wad pak.format = false → name ∉ pak.entries.map Entry.filename) := by
  have hfind : (find_entry pak.entries name).isSome = false ↔
      name ∉ pak.entries.map Entry.filename := by
    rw [Option.isSome_eq_false_iff, Option.isNone_iff_eq_none, find_entry_eq_none]
  simp only [pak_add_preflight, ite_error_eq_ok, Bool.not_eq_true, and_true, not_and, hfind]

/-! ## Counting and the tail

Arithmetic of the count, and what the tail is after the last node was unlinked.
-/

theorem ofNat_succ (n : ℕ) : UInt32.ofNat n + 1 = UInt32.ofNat (n + 1) := by
  rw [← UInt32.toNat_inj]
  simp

theorem ofNat_pred {n : ℕ} (h : 0 < n) : UInt32.ofNat n - 1 = UInt32.ofNat (n - 1) := by
  obtain ⟨m, rfl⟩ : ∃ m, n = m + 1 := ⟨n - 1, by omega⟩
  rw [← ofNat_succ, Nat.add_sub_cancel]
  exact UInt32.add_sub_cancel _ _

theorem find_entry_index_lt {es : List Entry} {name : CStr} {i : ℕ}
    (h : find_entry_index es name = some i) : i < es.length := by
  rw [find_entry_index, List.findIdx?_eq_some_iff_findIdx_eq] at h
  exact h.1

/-- Unlinking keeps the tail right. -/
theorem tail_after_unlink_last {es : List Entry} {i : ℕ} (hi : i < es.length) :
    tail_after_unlink (lastIndex es) i = lastIndex (es.eraseIdx i) := by
  have hlen : (es.eraseIdx i).length = es.length - 1 := by
    rw [List.length_eraseIdx_of_lt hi]
  simp only [lastIndex, hlen, tail_after_unlink]
  rw [if_neg (by omega : ¬ es.length = 0)]
  simp only
  by_cases h1 : es.length - 1 = i
  · rw [if_pos h1]
    by_cases h0 : i = 0
    · rw [if_pos h0, if_pos (by omega)]
    · rw [if_neg h0, if_neg (by omega), h1]
  · rw [if_neg h1, if_pos (by omega), if_neg (by omega)]

/-! ## Names

Renaming changes one name in place.
-/

/-- The names after a rename. -/
theorem map_filename_modify {es : List Entry} {old_name new_name : CStr} {i : ℕ}
    (h : find_entry_index es old_name = some i) :
    (es.modify i fun e => { e with filename := new_name }).map Entry.filename =
      Catalogue.names (Catalogue.rename (Catalogue.of Entry.filename (fun _ => ()) es)
        old_name new_name) := by
  have hm : Catalogue.of Entry.filename (fun _ => ())
      (es.modify i fun e => { e with filename := new_name }) =
      Catalogue.rename (Catalogue.of Entry.filename (fun _ => ()) es) old_name new_name :=
    Catalogue.of_modify h (fun _ => rfl) (fun _ => rfl)
  rw [← hm, Catalogue.names_of]

/-- An entry of a modified list is an old one, or an old one under the new name. -/
theorem mem_modify_filename {es : List Entry} {new_name : CStr} {i : ℕ} {x : Entry}
    (h : x ∈ es.modify i fun e => { e with filename := new_name }) :
    x ∈ es ∨ ∃ e ∈ es, x = { e with filename := new_name } := by
  induction es generalizing i with
  | nil => simp at h
  | cons e es ih =>
    cases i with
    | zero =>
      rw [List.modify_zero_cons] at h
      rcases List.mem_cons.mp h with rfl | h
      · exact Or.inr ⟨e, List.mem_cons_self, rfl⟩
      · exact Or.inl (List.mem_cons_of_mem _ h)
    | succ i =>
      rw [List.modify_succ_cons] at h
      rcases List.mem_cons.mp h with rfl | h
      · exact Or.inl List.mem_cons_self
      · rcases ih h with h | ⟨e', he', rfl⟩
        · exact Or.inl (List.mem_cons_of_mem _ h)
        · exact Or.inr ⟨e', List.mem_cons_of_mem _ he', rfl⟩

theorem find_entry_mem {es : List Entry} {name : CStr} {e : Entry}
    (h : find_entry es name = some e) : e ∈ es :=
  List.mem_of_find?_eq_some h

/-! ## Copies

A copied entry shares the payload and differs in its name.
-/

@[simp] theorem copied_entry_filename (src : Entry) (dst_name : CStr) :
    (copied_entry src dst_name).filename = dst_name := by
  unfold copied_entry
  split_ifs <;> rfl

/-- What is staged stays staged under a copy. -/
@[simp] theorem copied_entry_staged (src : Entry) (dst_name : CStr) :
    (copied_entry src dst_name).staged = src.staged := by
  unfold copied_entry Entry.staged
  cases src.pending_data <;> cases src.pending_source <;> rfl

/-! ## The list

The invariant of the list and the effects on it.
-/

/-- Tail and count of a handle are right, and names do not repeat but in a WAD. -/
structure Linked (pak : Archive) : Prop where
  tail : pak.tail = lastIndex pak.entries
  count : pak.num_entries = UInt32.ofNat pak.entries.length
  nodup : pakka_format_is_wad pak.format = false → (pak.entries.map Entry.filename).Nodup

/-- With the right tail, linking appends. -/
theorem Linked.link_entries {pak : Archive} (h : Linked pak) (e : Entry) :
    (link_entry pak e).entries = pak.entries ++ [e] := by
  simp only [link_entry, h.tail, link_at_tail_last]

/-- **Linking a node** of a fresh name. -/
theorem Linked.link {pak : Archive} {e : Entry} (h : Linked pak)
    (hname : pakka_format_is_wad pak.format = false → e.filename ∉ pak.entries.map Entry.filename) :
    Linked (link_entry pak e) := by
  have hents := h.link_entries e
  refine ⟨?_, ?_, ?_⟩
  · rw [hents, ← tail_after_link_last, ← h.tail]
    rfl
  · rw [hents, List.length_append, List.length_singleton, ← ofNat_succ, ← h.count]
    rfl
  · intro hw
    rw [hents, List.map_append, List.nodup_append]
    refine ⟨h.nodup hw, List.nodup_singleton _, ?_⟩
    rintro a ha b hb rfl
    rw [List.map_singleton, List.mem_singleton] at hb
    exact hname hw (hb ▸ ha)

/-- The list does not see the other fields of a handle. -/
theorem Linked.congr {pak pak' : Archive} (h : Linked pak) (hents : pak'.entries = pak.entries)
    (htail : pak'.tail = pak.tail) (hcount : pak'.num_entries = pak.num_entries)
    (hformat : pak'.format = pak.format) : Linked pak' := by
  refine ⟨?_, ?_, ?_⟩
  · rw [htail, hents]
    exact h.tail
  · rw [hcount, hents]
    exact h.count
  · rw [hformat, hents]
    exact h.nodup

/-- What the link of a copy does to the list. -/
theorem pak_link_copy_entry_eq (pak : Archive) (e : Entry) (b : Bool) :
    pak_link_copy_entry pak e b =
      { link_entry pak e with needs_rebuild := pak.needs_rebuild || b } := by
  unfold pak_link_copy_entry
  cases b <;> simp [link_entry]

/-- **The calls that name an existing entry** keep the list in order. -/
theorem Linked.name_effect {pak pak' : Archive} {c : Call} (h : Linked pak)
    (hc : NameEffect pak c pak') : Linked pak' := by
  cases hc with
  | @delete name i hi =>
    have hlt := find_entry_index_lt hi
    refine ⟨?_, ?_, ?_⟩
    · simp only [without_entry, h.tail]
      exact tail_after_unlink_last hlt
    · simp only [without_entry, h.count, List.length_eraseIdx_of_lt hlt]
      exact ofNat_pred (by omega)
    · intro hw
      exact (h.nodup hw).sublist ((List.eraseIdx_sublist _ _).map _)
  | same => exact h
  | @rename old_name new_name i hi hname =>
    obtain ⟨-, -, hfresh⟩ := pak_add_preflight_ok.mp hname
    refine ⟨?_, ?_, ?_⟩
    · simp only [with_name, lastIndex, List.length_modify]
      exact h.tail
    · simp only [with_name, List.length_modify]
      exact h.count
    · intro hw
      simp only [with_name, map_filename_modify hi]
      apply Catalogue.nodup_rename
      · rw [Catalogue.names_of]
        exact h.nodup hw
      · rw [Catalogue.names_of]
        exact hfresh hw
  | @copy src_name dst_name src hsrc hname =>
    obtain ⟨-, -, hfresh⟩ := pak_add_preflight_ok.mp hname
    rw [pak_link_copy_entry_eq]
    have hlink := h.link (e := copied_entry src dst_name) (by
      rw [copied_entry_filename]
      exact hfresh)
    exact hlink.congr rfl rfl rfl rfl
  | set_compression => exact h.congr rfl rfl rfl rfl

/-- **The entries after such a call**: old ones, old ones under a new name, and copies. -/
theorem NameEffect.forall_entries {P : Entry → Prop} {pak pak' : Archive} {c : Call}
    (hc : NameEffect pak c pak') (h : Linked pak) (hold : ∀ e ∈ pak.entries, P e)
    (hname : ∀ e ∈ pak.entries, ∀ n, c.new_name = some n → pak_add_preflight pak n = .ok () →
      P { e with filename := n })
    (hcopy : ∀ e ∈ pak.entries, ∀ n, c.new_name = some n → pak_add_preflight pak n = .ok () →
      P (copied_entry e n)) :
    ∀ e ∈ pak'.entries, P e := by
  cases hc with
  | delete hi => exact fun e he => hold e ((List.eraseIdx_sublist _ _).subset he)
  | same => exact hold
  | rename hi hn =>
    intro e he
    rcases mem_modify_filename he with he | ⟨e', he', rfl⟩
    · exact hold e he
    · exact hname e' he' _ rfl hn
  | copy hsrc hn =>
    intro e he
    rw [pak_link_copy_entry_eq] at he
    change e ∈ (link_entry _ _).entries at he
    rw [h.link_entries, List.mem_append, List.mem_singleton] at he
    rcases he with he | rfl
    · exact hold e he
    · exact hcopy _ (find_entry_mem hsrc) _ rfl hn
  | set_compression => exact hold

end Pakka
