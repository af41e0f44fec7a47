/-
Packing with sharing: items laid out one behind the other, those with one key in one place.

An item has a key, and then it shares its place with all items of that key, or it has none and is
alone. `own i` is the item whose place item `i` uses. The places are handed out in the order of
the list, to the items that use their own. So places of different owners are apart, and the room
that is taken is the size of every key once and of every item without one.

Sharing is never a loss: an item that shares takes no room, and packing what is packed already
changes nothing, because the owners and the sizes are the same the second time.
-/
import Mathlib.Algebra.Ring.Nat
import Mathlib.Algebra.BigOperators.Group.Finset.Basic
import Mathlib.Data.Finset.Dedup

set_option autoImplicit false

namespace Packing

variable {α κ : Type*} {key : α → Option κ} {size : α → ℕ} {own : ℕ → ℕ} {xs : List α}

/-- The room that the first items take: that of those that use their own place. -/
def room (size : α → ℕ) (own : ℕ → ℕ) (xs : List α) : ℕ → ℕ
  | 0 => 0
  | n + 1 => room size own xs n + if own n = n then (xs[n]?.map size).getD 0 else 0

/-- Where an item lies. -/
def place (size : α → ℕ) (own : ℕ → ℕ) (xs : List α) (i : ℕ) : ℕ := room size own xs (own i)

/-- An item with a key uses the place of the first one with that key, one without a key its
own. -/
structure Owner (key : α → Option κ) (xs : List α) (own : ℕ → ℕ) : Prop where
  alone : ∀ {i : ℕ} {a : α}, xs[i]? = some a → key a = none → own i = i
  le : ∀ {i : ℕ} {a : α}, xs[i]? = some a → own i ≤ i
  mem : ∀ {i : ℕ} {a : α} {k : κ}, xs[i]? = some a → key a = some k →
    ∃ b, xs[own i]? = some b ∧ key b = some k
  least : ∀ {i j : ℕ} {a b : α} {k : κ}, xs[i]? = some a → key a = some k →
    xs[j]? = some b → key b = some k → own i ≤ j

/-- Where nothing is shared. -/
theorem Owner.id (xs : List α) : Owner (fun _ => (none : Option κ)) xs fun i => i where
  alone := fun _ _ => rfl
  le := fun _ => Nat.le_refl _
  mem := fun _ h => by cases h
  least := fun _ h => by cases h

/-- Items with one key have one owner. -/
theorem Owner.shared (h : Owner key xs own) {i j : ℕ} {a b : α} {k : κ} (hi : xs[i]? = some a)
    (ha : key a = some k) (hj : xs[j]? = some b) (hb : key b = some k) : own i = own j := by
  obtain ⟨x, hx, hxk⟩ := h.mem hi ha
  obtain ⟨y, hy, hyk⟩ := h.mem hj hb
  apply Nat.le_antisymm
  · exact h.least hi ha hy hyk
  · exact h.least hj hb hx hxk

/-- An owner uses its own place. -/
theorem Owner.own_own (h : Owner key xs own) {i : ℕ} {a : α} (hi : xs[i]? = some a) :
    own (own i) = own i := by
  cases ha : key a with
  | none => rw [h.alone hi ha, h.alone hi ha]
  | some k =>
    obtain ⟨b, hb, hbk⟩ := h.mem hi ha
    exact h.shared hb hbk hi ha

/-- An owner is an item, with the same key. -/
theorem Owner.item (h : Owner key xs own) {i : ℕ} {a : α} (hi : xs[i]? = some a) :
    ∃ b, xs[own i]? = some b ∧ key b = key a := by
  cases ha : key a with
  | none =>
    refine ⟨a, ?_, ha⟩
    rw [h.alone hi ha]
    exact hi
  | some k =>
    obtain ⟨b, hb, hbk⟩ := h.mem hi ha
    exact ⟨b, hb, hbk⟩

/-- An owner has the size of those it owns. -/
theorem Owner.size_own (h : Owner key xs own)
    (hsize : ∀ a b k, key a = some k → key b = some k → size a = size b) {i : ℕ} {a : α}
    (hi : xs[i]? = some a) : ∃ x, xs[own i]? = some x ∧ size x = size a := by
  obtain ⟨x, hx, hxk⟩ := h.item hi
  refine ⟨x, hx, ?_⟩
  cases ha : key a with
  | none =>
    rw [h.alone hi ha] at hx
    rw [Option.some.inj (hx.symm.trans hi)]
  | some k => exact hsize x a k (hxk.trans ha) ha

theorem room_mono {m n : ℕ} (h : m ≤ n) : room size own xs m ≤ room size own xs n := by
  induction h with
  | refl => exact Nat.le_refl _
  | step _ ih => exact Nat.le_trans ih (Nat.le_add_right _ _)

/-- The room of one more item that uses its own place. -/
theorem room_succ_own {n : ℕ} {a : α} (hn : xs[n]? = some a) (hown : own n = n) :
    room size own xs (n + 1) = room size own xs n + size a := by
  rw [room, if_pos hown, hn]
  rfl

theorem room_succ_shared {n : ℕ} (hown : own n ≠ n) :
    room size own xs (n + 1) = room size own xs n := by
  rw [room, if_neg hown, Nat.add_zero]

/-- Items without size take no room. -/
theorem room_eq_zero (h : ∀ a ∈ xs, size a = 0) (n : ℕ) : room size own xs n = 0 := by
  induction n with
  | zero => rfl
  | succ n ih =>
    rw [room, ih, Nat.zero_add]
    cases hn : xs[n]? with
    | none => exact ite_self 0
    | some a =>
      rw [Option.map_some, Option.getD_some, h a (List.mem_of_getElem? hn)]
      exact ite_self 0

/-- Before a later item the room of an owner is taken. -/
theorem room_add_size_le {m n : ℕ} {a : α} (hm : xs[m]? = some a) (hown : own m = m)
    (h : m < n) : room size own xs m + size a ≤ room size own xs n := by
  rw [← room_succ_own hm hown]
  exact room_mono h

/-- **Different owners are apart.** -/
theorem Owner.apart (h : Owner key xs own)
    (hsize : ∀ a b k, key a = some k → key b = some k → size a = size b) {i j : ℕ} {a b : α}
    (hi : xs[i]? = some a) (hj : xs[j]? = some b) (hne : own i ≠ own j) :
    place size own xs i + size a ≤ place size own xs j ∨
      place size own xs j + size b ≤ place size own xs i := by
  obtain ⟨x, hx, hxs⟩ := h.size_own hsize hi
  obtain ⟨y, hy, hys⟩ := h.size_own hsize hj
  rcases Nat.lt_or_gt_of_ne hne with hlt | hgt
  · left
    rw [← hxs]
    exact room_add_size_le hx (h.own_own hi) hlt
  · right
    rw [← hys]
    exact room_add_size_le hy (h.own_own hj) hgt

/-- **The room that is taken**: every key once, and every item without a key. -/
theorem Owner.room_eq [DecidableEq κ] (h : Owner key xs own) (weight : κ → ℕ)
    (hweight : ∀ a k, key a = some k → size a = weight k) :
    room size own xs xs.length = ∑ k ∈ (xs.filterMap key).toFinset, weight k +
      ((xs.filter fun a => (key a).isNone).map size).sum := by
  have hfront : ∀ n ≤ xs.length, room size own xs n =
      ∑ k ∈ ((xs.take n).filterMap key).toFinset, weight k +
        (((xs.take n).filter fun a => (key a).isNone).map size).sum := by
    intro n
    induction n with
    | zero => intro _; rfl
    | succ n ih =>
      intro hn
      have hlt : n < xs.length := by omega
      have hget : xs[n]? = some xs[n] := List.getElem?_eq_getElem hlt
      rw [List.take_succ_eq_append_getElem hlt, List.filterMap_append, List.filter_append,
        List.map_append, List.sum_append]
      cases hk : key xs[n] with
      | none =>
        rw [room_succ_own hget (h.alone hget hk), ih (by omega)]
        simp [hk]
        omega
      | some k =>
        have hone : List.filterMap key [xs[n]] = [k] := by simp [hk]
        rw [hone, List.toFinset_append]
        -- the key counts once, at the first item that has it
        by_cases hmem : k ∈ ((xs.take n).filterMap key).toFinset
        · have hshared : own n ≠ n := by
            intro hown
            rw [List.mem_toFinset, List.mem_filterMap] at hmem
            obtain ⟨b, hb, hbk⟩ := hmem
            obtain ⟨j, hj⟩ := List.mem_iff_getElem?.mp hb
            have hjn : j < n := by
              have := (List.getElem?_eq_some_iff.mp hj).1
              rw [List.length_take] at this
              omega
            rw [List.getElem?_take, if_pos hjn] at hj
            have := h.least hget hk hj hbk
            omega
          rw [room_succ_shared hshared, ih (by omega), Finset.union_eq_left.mpr]
          · simp [hk]
          · intro x hx
            rw [List.toFinset_cons, List.toFinset_nil, insert_empty_eq, Finset.mem_singleton] at hx
            rwa [hx]
        · have hown : own n = n := by
            obtain ⟨b, hb, hbk⟩ := h.mem hget hk
            by_contra hne
            have hlt' : own n < n := Nat.lt_of_le_of_ne (h.le hget) hne
            apply hmem
            rw [List.mem_toFinset, List.mem_filterMap]
            refine ⟨b, List.mem_of_getElem? (i := own n) ?_, hbk⟩
            rw [List.getElem?_take, if_pos hlt']
            exact hb
          rw [room_succ_own hget hown, ih (by omega), List.toFinset_cons, List.toFinset_nil,
            insert_empty_eq, Finset.union_comm, ← Finset.insert_eq, Finset.sum_insert hmem,
            hweight _ _ hk]
          simp [hk]
          omega
  have hall := hfront xs.length (Nat.le_refl _)
  rwa [List.take_length] at hall

/-! ## Packing what is packed -/

/-- An item that uses its own place lies at the room before it. -/
theorem place_of_own {i : ℕ} (h : own i = i) : place size own xs i = room size own xs i := by
  rw [place, h]

/-- **Packing again changes nothing.** Items that were packed have their place and their size for a
key now. So an item may share with an earlier one it was apart from, but only where neither takes
room: the places stay as they are. -/
theorem Owner.again {β κ' : Type*} {key' : β → Option κ'} {size' : β → ℕ} {own' : ℕ → ℕ}
    {ys : List β} (h : Owner key xs own) (h' : Owner key' ys own')
    (hsize : ∀ a b k, key a = some k → key b = some k → size a = size b)
    (hlen : ys.length = xs.length)
    (hsame : ∀ {i : ℕ} {a : α} {y : β}, xs[i]? = some a → ys[i]? = some y → size' y = size a)
    (hkey : ∀ {i j : ℕ} {a b : α} {x y : β}, xs[i]? = some a → xs[j]? = some b →
      ys[i]? = some x → ys[j]? = some y → ((∃ k, key' x = some k ∧ key' y = some k) ↔
        place size own xs i = place size own xs j ∧ size a = size b)) :
    (∀ n ≤ xs.length, room size' own' ys n = room size own xs n) ∧
      ∀ i < xs.length, place size' own' ys i = place size own xs i := by
  have hget : ∀ i < xs.length, ∃ a y, xs[i]? = some a ∧ ys[i]? = some y := by
    intro i hi
    exact ⟨_, _, List.getElem?_eq_getElem hi, List.getElem?_eq_getElem (hlen ▸ hi)⟩
  -- an item that owns its place now did so before
  have hold : ∀ i < xs.length, own' i = i → own i = i := by
    intro i hi hown'
    obtain ⟨a, y, ha, hy⟩ := hget i hi
    by_contra hne
    have hlt : own i < i := Nat.lt_of_le_of_ne (h.le ha) hne
    obtain ⟨b, x, hb, hx⟩ := hget (own i) (by omega)
    obtain ⟨b', hb', hsb⟩ := h.size_own hsize ha
    obtain rfl := Option.some.inj (hb.symm.trans hb')
    have hplace : place size own xs (own i) = place size own xs i := by
      rw [place, place, h.own_own ha]
    obtain ⟨k, hkx, hky⟩ := (hkey hb ha hx hy).mpr ⟨hplace, hsb⟩
    have := h'.least hy hky hx hkx
    omega
  -- an item that shares now takes no room, or shared before
  have hshared : ∀ i < xs.length, own' i ≠ i →
      place size own xs (own' i) = place size own xs i ∧
        room size own xs (i + 1) = room size own xs i := by
    intro i hi hown'
    obtain ⟨a, y, ha, hy⟩ := hget i hi
    have hlt : own' i < i := Nat.lt_of_le_of_ne (h'.le hy) hown'
    obtain ⟨b, x, hb, hx⟩ := hget (own' i) (by omega)
    obtain ⟨k, hky⟩ : ∃ k, key' y = some k := by
      rw [← Option.ne_none_iff_exists']
      exact fun hnone => hown' (h'.alone hy hnone)
    obtain ⟨x', hx', hkx⟩ := h'.mem hy hky
    obtain rfl := Option.some.inj (hx.symm.trans hx')
    obtain ⟨hplace, hsab⟩ := (hkey hb ha hx hy).mp ⟨k, hkx, hky⟩
    refine ⟨hplace, ?_⟩
    by_cases hown : own i = i
    · obtain ⟨c, hc, hsc⟩ := h.size_own hsize hb
      have hbefore : room size own xs (own (own' i)) + size c ≤ room size own xs i :=
        room_add_size_le hc (h.own_own hb) (Nat.lt_of_le_of_lt (h.le hb) hlt)
      rw [place_of_own hown, place] at hplace
      rw [room_succ_own ha hown]
      omega
    · exact room_succ_shared hown
  have hroom : ∀ n ≤ xs.length, room size' own' ys n = room size own xs n := by
    intro n
    induction n with
    | zero =>
      intro _
      rfl
    | succ n ih =>
      intro hn
      obtain ⟨a, y, ha, hy⟩ := hget n hn
      by_cases hown' : own' n = n
      · rw [room_succ_own hy hown', room_succ_own ha (hold n hn hown'), ih (by omega), hsame ha hy]
      · rw [room_succ_shared hown', ih (by omega), (hshared n hn hown').2]
  refine ⟨hroom, ?_⟩
  intro i hi
  obtain ⟨a, y, ha, hy⟩ := hget i hi
  have hle := h'.le hy
  have hown : own (own' i) = own' i := hold _ (by omega) (h'.own_own hy)
  calc place size' own' ys i = room size own xs (own' i) := hroom _ (by omega)
    _ = place size own xs (own' i) := (place_of_own hown).symm
    _ = place size own xs i := by
      by_cases hown' : own' i = i
      · rw [hown']
      · exact (hshared i hi hown').1

/-- **What is packed is known from its pieces**: two lists that fill the room and agree at the place
of every owner are one. -/
theorem eq_of_packed {β : Type*} {l l' : List β} (hl : l.length = room size own xs xs.length)
    (hl' : l'.length = room size own xs xs.length)
    (h : ∀ i a, xs[i]? = some a → own i = i →
      (l.drop (room size own xs i)).take (size a) = (l'.drop (room size own xs i)).take (size a)) :
    l = l' := by
  have hfront : ∀ n ≤ xs.length, l.take (room size own xs n) = l'.take (room size own xs n) := by
    intro n
    induction n with
    | zero =>
      intro _
      rfl
    | succ n ih =>
      intro hn
      have hget : xs[n]? = some xs[n] := List.getElem?_eq_getElem hn
      by_cases hown : own n = n
      · rw [room_succ_own hget hown, List.take_add, List.take_add, ih (by omega), h n _ hget hown]
      · rw [room_succ_shared hown, ih (by omega)]
  have hall := hfront xs.length (Nat.le_refl _)
  rwa [← hl, List.take_length, hl, ← hl', List.take_length] at hall

end Packing
