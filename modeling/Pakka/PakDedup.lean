/-
Where a rebuild puts the payloads.

The scan over the sorted keys gives each entry on disk the first one with its range as owner
(`pak_dedup_owner_spec`), and the copy loop then packs the payloads in list order
(`pak_rebuild_copy_packs`). So what is known of packing with sharing holds of the new archive, and
since a rebuild without the scan packs the same payloads, only each on its own, both archives read
alike.

The scan works on keys that were sorted by range and index. It is compared with the specification of
an owner, the first entry of the same range, and the copy loop with the packing of the library. The
archive that is rebuilt without the scan is an instance of the same packing, with every entry its
own owner, and this is how the two archives are compared.
-/
import Pakka.EntryContent
import Pakka.Lib.Packing

set_option autoImplicit false

namespace Pakka

open ByteImage LittleEndian Logged Packing

/-! ## The owners

The first entry of each range, in list order, although the scan goes by sorted keys: the index is
the second part of the key.
-/

/-- The range of an entry on disk, by which payloads are shared. -/
def range_key (e : Entry) : Option (UInt32 × UInt32) :=
  if e.staged then none else some (e.offset, pak_entry_on_disk_extent e)

/-- The size of a payload in the archive. -/
def stored_size (e : Entry) : ℕ := (pak_entry_on_disk_extent e).toNat

theorem range_key_eq_some {e : Entry} {k : UInt32 × UInt32} :
    range_key e = some k ↔ e.staged = false ∧ e.offset = k.1 ∧ pak_entry_on_disk_extent e = k.2 := by
  unfold range_key
  cases e.staged with
  | true => simp
  | false =>
    simp only [Bool.false_eq_true, if_false, Option.some.injEq, true_and]
    exact Prod.ext_iff

/-- Keys of one range are ordered by index. -/
theorem pak_dedup_key_idx_le {a b : DedupKey} (h : pak_dedup_key_le a b = true)
    (hoff : a.offset = b.offset) (hext : a.extent = b.extent) : a.idx ≤ b.idx := by
  simpa [pak_dedup_key_le, hoff, hext] using h

/-- Between two keys of one range all have it. -/
theorem pak_dedup_key_between {a b c : DedupKey} (h1 : pak_dedup_key_le a b = true)
    (h2 : pak_dedup_key_le b c = true) (hoff : a.offset = c.offset) (hext : a.extent = c.extent) :
    b.offset = c.offset ∧ b.extent = c.extent := by
  unfold pak_dedup_key_le at h1 h2
  simp only [ne_eq, ← UInt32.toNat_inj, UInt32.lt_iff_toNat_lt] at *
  split_ifs at h1 h2 <;> simp_all <;> omega

/-- `owner` points key `k` no further than at any key of its range. -/
def Least (all : List DedupKey) (owner : List ℕ) (k : DedupKey) : Prop :=
  ∀ k' ∈ all, k'.offset = k.offset → k'.extent = k.extent → owner.getD k.idx k.idx ≤ k'.idx

theorem getD_set_self {l : List ℕ} {i x : ℕ} (h : i < l.length) (d : ℕ) :
    (l.set i x).getD i d = x := by
  rw [List.getD_eq_getElem _ _ (by rwa [List.length_set]), List.getElem_set_self]

theorem getD_set_ne {l : List ℕ} {i j x : ℕ} (h : i ≠ j) (d : ℕ) :
    (l.set i x).getD j d = l.getD j d := by
  rw [List.getD_eq_getElem?_getD, List.getD_eq_getElem?_getD, List.getElem?_set_ne h]

/-- **The scan finds the first of each range.** `pre` and `a` are behind the scan, what is ahead
still owns itself. -/
theorem pak_dedup_scan_least {es : List Entry} (keys pre : List DedupKey) (a : DedupKey)
    {owner : List ℕ}
    (hsorted : (pre ++ a :: keys).Pairwise fun a b => pak_dedup_key_le a b = true)
    (hkeys : ∀ k ∈ pre ++ a :: keys, KeyOf es k) (hlen : owner.length = es.length)
    (hdone : ∀ k ∈ pre ++ [a], Least (pre ++ a :: keys) owner k)
    (hahead : ∀ k ∈ keys, k ∉ pre ++ [a] → owner.getD k.idx k.idx = k.idx) :
    ∀ k ∈ pre ++ a :: keys, Least (pre ++ a :: keys) (pak_dedup_scan (a :: keys) owner) k := by
  induction keys generalizing pre a owner with
  | nil => exact hdone
  | cons b rest ih =>
    have hsplit : pre ++ a :: b :: rest = (pre ++ [a]) ++ b :: rest := by simp
    have hidx : ∀ k ∈ pre ++ a :: b :: rest, k.idx = b.idx → k = b := by
      intro k hk hi
      obtain ⟨x, hx, -, hxo, hxe⟩ := hkeys k hk
      obtain ⟨y, hy, -, hyo, hye⟩ := hkeys b (by simp)
      rw [hi, hy] at hx
      obtain rfl := Option.some.inj hx
      have ho : k.offset = b.offset := hxo.trans hyo.symm
      have he : k.extent = b.extent := hxe.trans hye.symm
      cases k
      cases b
      rw [DedupKey.mk.injEq]
      exact ⟨ho, he, hi⟩
    have hblt : b.idx < owner.length := by
      obtain ⟨y, hy, -⟩ := hkeys b (by simp)
      rw [hlen]
      exact (List.getElem?_eq_some_iff.mp hy).1
    have hbefore : ∀ x ∈ pre ++ [a], pak_dedup_key_le x b = true := by
      intro x hx
      rw [hsplit] at hsorted
      exact (List.pairwise_append.mp hsorted).2.2 x hx b List.mem_cons_self
    have hbehind : ∀ x ∈ rest, pak_dedup_key_le b x = true := by
      intro x hx
      rw [hsplit] at hsorted
      exact List.rel_of_pairwise_cons (List.pairwise_append.mp hsorted).2.1 hx
    rw [pak_dedup_scan, hsplit]
    rw [hsplit] at hsorted hkeys hdone
    by_cases hab : b.offset = a.offset ∧ b.extent = a.extent
    · rw [if_pos hab]
      refine ih (pre ++ [a]) b hsorted hkeys (by rw [List.length_set, hlen]) ?_ ?_
      · intro k hk
        by_cases hi : k.idx = b.idx
        · -- `b` takes the owner of `a`
          obtain rfl : k = b := hidx k (by rw [hsplit]; simp at hk ⊢; tauto) hi
          intro k' hk' ho he
          rw [getD_set_self hblt]
          exact hdone a (by simp) k' hk' (ho.trans hab.1) (he.trans hab.2)
        · have hk' : k ∈ pre ++ [a] := by
            rcases List.mem_append.mp hk with h | h
            · exact h
            · rw [List.mem_singleton.mp h] at hi
              exact absurd rfl hi
          intro k'' hk'' ho he
          rw [getD_set_ne fun h => hi h.symm]
          exact hdone k hk' k'' hk'' ho he
      · intro k hk hnot
        have hne : b.idx ≠ k.idx := by
          intro h
          have := hidx k (by simp [hk]) h.symm
          rw [this] at hnot
          simp at hnot
        rw [getD_set_ne hne]
        exact hahead k (List.mem_cons_of_mem _ hk) fun h => hnot (List.mem_append_left _ h)
    · rw [if_neg hab]
      refine ih (pre ++ [a]) b hsorted hkeys hlen ?_ ?_
      · intro k hk
        rcases List.mem_append.mp hk with h | h
        · exact hdone k h
        · obtain rfl := List.mem_singleton.mp h
          -- nothing of the range of `b` is behind the scan, or `a` would have it
          have hfirst : ∀ x ∈ pre ++ [a], ¬ (x.offset = k.offset ∧ x.extent = k.extent) := by
            rintro x hx ⟨ho, he⟩
            have hxa : x = a ∨ pak_dedup_key_le x a = true := by
              rcases List.mem_append.mp hx with hx | hx
              · right
                exact (List.pairwise_append.mp (List.pairwise_append.mp hsorted).1).2.2 x hx a
                  List.mem_cons_self
              · exact Or.inl (List.mem_singleton.mp hx)
            rcases hxa with rfl | hxa
            · exact hab ⟨ho.symm, he.symm⟩
            · have := pak_dedup_key_between hxa (hbefore a (by simp)) ho he
              exact hab ⟨this.1.symm, this.2.symm⟩
          intro k' hk' ho he
          rw [hahead k List.mem_cons_self fun hx => hfirst k hx ⟨rfl, rfl⟩]
          rcases List.mem_append.mp hk' with hx | hx
          · exact absurd ⟨ho, he⟩ (hfirst k' hx)
          · rcases List.mem_cons.mp hx with rfl | hx
            · exact Nat.le_refl _
            · exact pak_dedup_key_idx_le (hbehind k' hx) ho.symm he.symm
      · intro k hk hnot
        exact hahead k (List.mem_cons_of_mem _ hk) fun h => hnot (List.mem_append_left _ h)

/-- The key of an entry on disk is among the keys. -/
theorem pak_dedup_key_mem {es : List Entry} {i : ℕ} {e : Entry} (hi : es[i]? = some e)
    (hs : e.staged = false) :
    (⟨e.offset, pak_entry_on_disk_extent e, i⟩ : DedupKey) ∈ pak_dedup_keys es := by
  unfold pak_dedup_keys
  rw [List.mem_filterMap]
  refine ⟨(e, i), List.mem_zipIdx_iff_getElem?.mpr hi, ?_⟩
  rw [hs]
  rfl

/-- **The owner of an entry** is the first one on disk with its range. -/
theorem pak_dedup_owner_spec (es : List Entry) :
    Owner range_key es fun i => (pak_dedup_owner es).getD i i := by
  have hshares := pak_dedup_owner_shares es
  refine ⟨?_, ?_, ?_, ?_⟩
  · intro i a hi hk
    rcases hshares i with h | ⟨-, x, y, -, hy, -, hys, -⟩
    · exact h
    · obtain rfl := Option.some.inj (hi.symm.trans hy)
      simp [range_key, hys] at hk
  · intro i a hi
    rcases hshares i with h | ⟨hlt, -⟩
    · exact Nat.le_of_eq h
    · exact Nat.le_of_lt hlt
  · intro i a k hi hk
    rcases hshares i with h | ⟨-, x, y, hx, hy, hxs, -, ho, he⟩
    · refine ⟨a, ?_, hk⟩
      simp only [h]
      exact hi
    · obtain rfl := Option.some.inj (hi.symm.trans hy)
      obtain ⟨-, hk1, hk2⟩ := range_key_eq_some.mp hk
      exact ⟨x, hx, range_key_eq_some.mpr ⟨hxs, ho.trans hk1, he.trans hk2⟩⟩
  · intro i j a b k hi hk hj hkb
    obtain ⟨has, ha1, ha2⟩ := range_key_eq_some.mp hk
    obtain ⟨hbs, hb1, hb2⟩ := range_key_eq_some.mp hkb
    -- two entries of one range: the scan gives both the least index of the range
    have hmi := (List.mem_insertionSort fun a b => pak_dedup_key_le a b = true).mpr
      (pak_dedup_key_mem hi has)
    have hmj := (List.mem_insertionSort fun a b => pak_dedup_key_le a b = true).mpr
      (pak_dedup_key_mem hj hbs)
    have hrange : ∀ i, (List.range es.length).getD i i = i := by
      intro i
      rw [List.getD_eq_getElem?_getD]
      by_cases hlt : i < es.length
      · simp [hlt]
      · simp [hlt]
    unfold pak_dedup_owner
    have hkeyof : ∀ k ∈ (pak_dedup_keys es).insertionSort fun a b => pak_dedup_key_le a b = true,
        KeyOf es k := fun k hk => keyOf_of_mem ((List.mem_insertionSort _).mp hk)
    have hsorted := List.pairwise_insertionSort (fun a b => pak_dedup_key_le a b = true)
      (pak_dedup_keys es)
    revert hmi hmj hkeyof hsorted
    generalize (pak_dedup_keys es).insertionSort (fun a b => pak_dedup_key_le a b = true) = all
    intro hmi hmj hkeyof hsorted
    cases all with
    | nil => cases hmi
    | cons c rest =>
      have hleast := pak_dedup_scan_least rest [] c hsorted hkeyof List.length_range
        (fun x hx x' hx' ho he => by
          obtain rfl := List.mem_singleton.mp hx
          rw [hrange]
          rcases List.mem_cons.mp hx' with rfl | hx'
          · exact Nat.le_refl _
          · exact pak_dedup_key_idx_le (List.rel_of_pairwise_cons hsorted hx') ho.symm he.symm)
        fun x _ _ => hrange x.idx
      exact hleast _ hmi _ hmj (hb1.trans ha1.symm) (hb2.trans ha2.symm)

/-! ## The copy loop

An entry that owns its range is copied behind what is there already; the others take the offset of
their owner.
-/

/-- The owner that the copy loop goes by. -/
def owner_of (owner : Option (List ℕ)) (i : ℕ) : ℕ := (pak_shared owner i).getD i

theorem owner_of_some (l : List ℕ) (i : ℕ) : owner_of (some l) i = l.getD i i := by
  unfold owner_of pak_shared
  simp only
  split_ifs with h
  · rfl
  · exact (not_not.mp h).symm

/-- The offsets so far are the places of the entries, and no place is beyond 32 bits. -/
def Packed (own : ℕ → ℕ) (es : List Entry) (offsets : List UInt32) : Prop :=
  ∀ k o, offsets[k]? = some o → o.toNat = PAKFILE_HEADER_SIZE + place stored_size own es k

theorem Packed.snoc {own : ℕ → ℕ} {es : List Entry} {offsets : List UInt32} {o : UInt32}
    (h : Packed own es offsets)
    (ho : o.toNat = PAKFILE_HEADER_SIZE + place stored_size own es offsets.length) :
    Packed own es (offsets ++ [o]) := by
  intro k o' hk
  rcases Nat.lt_trichotomy k offsets.length with hlt | rfl | hgt
  · rw [List.getElem?_append_left hlt] at hk
    exact h k o' hk
  · rw [List.getElem?_append_right (Nat.le_refl _), Nat.sub_self] at hk
    obtain rfl := Option.some.inj hk
    exact ho
  · rw [List.getElem?_eq_none (by rw [List.length_append, List.length_singleton]; omega)] at hk
    cases hk

/-- **The copy loop packs the payloads.** -/
theorem pak_rebuild_copy_packs {env : Env} {disk : Bytes} {pak : Archive} {geom : Geometry}
    {κ : Type} {key : Entry → Option κ} {owner : Option (List ℕ)}
    (howner : Owner key pak.entries (owner_of owner))
    (hok : ∀ e ∈ pak.entries, PakEntryOk pak geom e) (rest : List Entry) {pos pos' : ℕ}
    {offsets offsets' : List UInt32} (hrest : pak.entries.drop offsets.length = rest)
    (hpos : pos = PAKFILE_HEADER_SIZE +
      room stored_size (owner_of owner) pak.entries offsets.length)
    (hpacked : Packed (owner_of owner) pak.entries offsets)
    (h : (pak_rebuild_copy env disk owner offsets.length pos offsets rest).res =
      .ok (offsets', pos')) :
    pos' = PAKFILE_HEADER_SIZE + room stored_size (owner_of owner) pak.entries
        (offsets.length + rest.length) ∧
      offsets'.length = offsets.length + rest.length ∧
      Packed (owner_of owner) pak.entries offsets' := by
  induction rest generalizing pos offsets with
  | nil =>
    simp only [pak_rebuild_copy, pure_res, Except.ok.injEq, Prod.mk.injEq] at h
    obtain ⟨rfl, rfl⟩ := h
    exact ⟨hpos, rfl, hpacked⟩
  | cons e rest ih =>
    have hlt : offsets.length < pak.entries.length := by
      have := congrArg List.length hrest
      rw [List.length_drop, List.length_cons] at this
      omega
    have hcons := List.drop_eq_getElem_cons hlt
    rw [hrest] at hcons
    obtain ⟨he, hrest'⟩ := List.cons.inj hcons
    have hget : pak.entries[offsets.length]? = some e := by
      rw [List.getElem?_eq_getElem hlt, ← he]
    have hlen1 : ∀ o : UInt32, (offsets ++ [o]).length = offsets.length + 1 := by simp
    have hown : owner_of owner offsets.length = (pak_shared owner offsets.length).getD _ := rfl
    rw [List.length_cons]
    cases hsh : pak_shared owner offsets.length with
    -- an entry with another owner takes no room, and its place is the owner's
    | some o =>
      simp only [pak_rebuild_copy, hsh] at h
      rw [hsh, Option.getD_some] at hown
      have hne : o ≠ offsets.length := by
        unfold pak_shared at hsh
        split at hsh
        · cases hsh
        · split_ifs at hsh with hne
          rwa [← Option.some.inj hsh]
      have holt : o < offsets.length :=
        Nat.lt_of_le_of_ne (hown ▸ howner.le hget) hne
      have hgo : offsets[o]? = some (offsets.getD o 0) := by
        rw [List.getElem?_eq_getElem holt, List.getD_eq_getElem _ _ holt]
      have hplace : place stored_size (owner_of owner) pak.entries offsets.length =
          place stored_size (owner_of owner) pak.entries o := by
        unfold place
        rw [← howner.own_own hget, hown]
      rw [← hlen1 (offsets.getD o 0)] at h
      obtain ⟨h1, h2, h3⟩ := ih (by rw [hlen1]; exact hrest'.symm)
        (by rw [hlen1, room_succ_shared (hown ▸ hne)]; exact hpos)
        (hpacked.snoc (by rw [hplace]; exact hpacked o _ hgo)) h
      rw [hlen1] at h1 h2
      refine ⟨?_, ?_, h3⟩
      · rw [h1]
        congr 2
        omega
      · omega
    -- an owner is placed at the running position
    | none =>
      simp only [pak_rebuild_copy, hsh, bind_res_ok] at h
      rw [hsh, Option.getD_none] at hown
      obtain ⟨bs, hbs, h⟩ := h
      obtain ⟨hmax, -, hbl, -⟩ := copy_between_paks_ok (hok e (List.mem_of_getElem? hget)) hbs
      have hplace : (UInt32.ofNat pos).toNat = PAKFILE_HEADER_SIZE +
          place stored_size (owner_of owner) pak.entries offsets.length := by
        rw [UInt32.toNat_ofNat', Nat.mod_eq_of_lt (by simp only [UINT32_MAX] at hmax; omega),
          place, hown]
        exact hpos
      rw [← hlen1 (UInt32.ofNat pos)] at h
      obtain ⟨h1, h2, h3⟩ := ih (by rw [hlen1]; exact hrest'.symm)
        (by rw [hlen1, room_succ_own hget hown, hpos, hbl, Nat.add_assoc]; rfl)
        (hpacked.snoc hplace) h
      rw [hlen1] at h1 h2
      refine ⟨?_, ?_, h3⟩
      · rw [h1]
        congr 2
        omega
      · omega

/-- **The copy loop as a rebuild runs it**, from the first entry on. -/
theorem pak_rebuild_copy_packed {env : Env} {disk : Bytes} {pak : Archive} {geom : Geometry}
    {κ : Type} {key : Entry → Option κ} {owner : Option (List ℕ)}
    (howner : Owner key pak.entries (owner_of owner))
    (hok : ∀ e ∈ pak.entries, PakEntryOk pak geom e) {pos : ℕ} {offsets : List UInt32}
    (h : (pak_rebuild_copy env disk owner 0 PAKFILE_HEADER_SIZE [] pak.entries).res =
      .ok (offsets, pos)) :
    pos = PAKFILE_HEADER_SIZE + room stored_size (owner_of owner) pak.entries pak.entries.length ∧
      offsets.length = pak.entries.length ∧ Packed (owner_of owner) pak.entries offsets := by
  have hnil : Packed (owner_of owner) pak.entries [] := by
    intro k o hk
    simp at hk
  obtain ⟨h1, h2, h3⟩ := pak_rebuild_copy_packs howner hok pak.entries rfl rfl hnil h
  rw [List.length_nil, Nat.zero_add] at h1 h2
  exact ⟨h1, h2, h3⟩

/-! ## The rebuilt archive

The statement about the finished archive, for any list of entries: owners, disjoint payloads one
behind the other, a total that is the sum over the owners, and the same reads as without sharing.
-/

/-- The owners in a rebuild: those of the scan, or none when its map was not allocated. -/
def rebuild_owner (env : Env) (es : List Entry) : Option (List ℕ) :=
  if env.faults.fails .dedup then none else some (pak_dedup_owner es)

/-- What the entries share by in a rebuild: their range on disk, or nothing. -/
def rebuild_key (env : Env) (e : Entry) : Option (UInt32 × UInt32) :=
  if env.faults.fails .dedup then none else range_key e

theorem rebuild_owner_spec (env : Env) (es : List Entry) :
    Owner (rebuild_key env) es (owner_of (rebuild_owner env es)) := by
  unfold rebuild_key rebuild_owner
  by_cases hdedup : env.faults.fails .dedup = true
  · simp only [hdedup, if_true]
    exact Owner.id es
  · have hown : owner_of (some (pak_dedup_owner es)) = fun i => (pak_dedup_owner es).getD i i :=
      funext fun i => owner_of_some _ i
    simp only [hdedup, Bool.false_eq_true, if_false, hown]
    exact pak_dedup_owner_spec es

/-- The work on the scratch file goes through the copy loop. -/
theorem pak_rebuild_scratch_copy {env : Env} {disk : Bytes} {pak : Archive}
    {r : List UInt32 × ℕ} (h : (pak_rebuild_scratch env disk pak).res = .ok r) :
    (pak_rebuild_copy env disk (rebuild_owner env pak.entries) 0 PAKFILE_HEADER_SIZE []
      pak.entries).res = .ok r := by
  simp only [pak_rebuild_scratch, bind_res_ok, call_res_ok, exists_const, emit_res, true_and,
    onError_res, pak_rebuild_payloads, pure_res, Except.ok.injEq] at h
  obtain ⟨_, -, -, -, r', hcopy, -, _, -, rfl⟩ := h
  exact hcopy

/-- What a rebuild that succeeds makes of the list: each entry at the offset the copy loop found
for it. -/
theorem pakka_commit_rebuild_entries {env : Env} {disk : Bytes} {pak pak' : Archive}
    (h : (pakka_commit_rebuild env disk pak).res = .ok pak') :
    ∃ offsets pos, (pak_rebuild_copy env disk (rebuild_owner env pak.entries) 0
        PAKFILE_HEADER_SIZE [] pak.entries).res = .ok (offsets, pos) ∧
      ∃ diroffset dirlength, pak' = { finished (pak_rebuild_install pak offsets pos) with
        diroffset := diroffset, dirlength := dirlength } := by
  simp only [pakka_commit_rebuild, pak_rebuild_publish, pak_rebuild_work, bind_res_ok,
    mapError_res_ok, onError_res, call_res_ok, exists_const, pure_res, Except.ok.injEq] at h
  obtain ⟨_, ⟨_, ⟨⟨offsets, pos⟩, hscr, done, hdir, -, rfl⟩, _, -, rfl⟩, -, rfl⟩ := h
  obtain ⟨d, l, rfl⟩ := write_pak_directory_same hdir
  exact ⟨offsets, pos, pak_rebuild_scratch_copy hscr, d, l, rfl⟩

/-- Where a rebuild puts the payloads of a list: an entry on disk with the first of its range, the
others each at its own place, all packed behind the header. -/
structure PayloadsPacked (own : ℕ → ℕ) (es : List Entry) (pak' : Archive) : Prop where
  length : pak'.entries.length = es.length
  offset : ∀ (i : ℕ) (e' : Entry), pak'.entries[i]? = some e' →
    e'.offset.toNat = PAKFILE_HEADER_SIZE + place stored_size own es i
  payload_end : pak'.payload_end = PAKFILE_HEADER_SIZE + room stored_size own es es.length

theorem rebuild_packs {env : Env} {disk : Bytes} {pak pak' : Archive} {geom : Geometry}
    {κ : Type} {key : Entry → Option κ}
    (howner : Owner key pak.entries (owner_of (rebuild_owner env pak.entries)))
    (hok : ∀ e ∈ pak.entries, PakEntryOk pak geom e)
    (h : (pakka_commit_rebuild env disk pak).res = .ok pak') :
    PayloadsPacked (owner_of (rebuild_owner env pak.entries)) pak.entries pak' := by
  obtain ⟨offsets, pos, hcopy, d, l, hpak⟩ := pakka_commit_rebuild_entries h
  have hend : pak'.payload_end = pos := by rw [hpak]; rfl
  have hents : pak'.entries = drop_pending
      (List.zipWith (fun e o => { e with offset := o }) pak.entries offsets) := by rw [hpak]; rfl
  obtain ⟨h1, h2, h3⟩ := pak_rebuild_copy_packed howner hok hcopy
  refine ⟨?_, ?_, hend.trans h1⟩
  · rw [hents]
    simp [drop_pending, h2]
  · intro i e' he'
    rw [hents, drop_pending, List.getElem?_map, Option.map_eq_some_iff] at he'
    obtain ⟨x, hx, rfl⟩ := he'
    rw [List.getElem?_zipWith] at hx
    cases ho : offsets[i]? with
    | none => simp [ho] at hx
    | some o =>
      cases he : pak.entries[i]? with
      | none => simp [he] at hx
      | some e =>
        rw [ho, he] at hx
        obtain rfl := Option.some.inj hx
        exact h3 i o ho

/-- **A rebuild with its map**: entries of one range share their offset, all other payloads are
apart, they fill the archive from the header on, and what they fill is every range on disk once and
every staged payload. -/
structure Deduplicated (pak pak' : Archive) : Prop where
  shared : ∀ (i j : ℕ) (a b a' b' : Entry), pak.entries[i]? = some a → pak.entries[j]? = some b →
    a.staged = false → b.staged = false → a.offset = b.offset →
    pak_entry_on_disk_extent a = pak_entry_on_disk_extent b →
    pak'.entries[i]? = some a' → pak'.entries[j]? = some b' → a'.offset = b'.offset
  apart : ∀ (i j : ℕ) (a b a' b' : Entry), i ≠ j →
    pak.entries[i]? = some a → pak.entries[j]? = some b →
    ¬ (a.staged = false ∧ b.staged = false ∧ a.offset = b.offset ∧
      pak_entry_on_disk_extent a = pak_entry_on_disk_extent b) →
    pak'.entries[i]? = some a' → pak'.entries[j]? = some b' →
    a'.offset.toNat + stored_size a ≤ b'.offset.toNat ∨
      b'.offset.toNat + stored_size b ≤ a'.offset.toNat
  consecutive : ∃ own, Owner range_key pak.entries own ∧ PayloadsPacked own pak.entries pak'
  region : pak'.payload_end = PAKFILE_HEADER_SIZE +
    (∑ k ∈ (pak.entries.filterMap range_key).toFinset, k.2.toNat +
      ((pak.entries.filter Entry.staged).map stored_size).sum)

theorem stored_size_of_key {a : Entry} {k : UInt32 × UInt32} (h : range_key a = some k) :
    stored_size a = k.2.toNat := by
  rw [stored_size, (range_key_eq_some.mp h).2.2]

theorem PayloadsPacked.deduplicated {own : ℕ → ℕ} {pak pak' : Archive}
    (howner : Owner range_key pak.entries own) (h : PayloadsPacked own pak.entries pak') :
    Deduplicated pak pak' := by
  refine ⟨?_, ?_, ⟨own, howner, h⟩, ?_⟩
  · intro i j a b a' b' hi hj has hbs ho he hi' hj'
    have hka : range_key a = some (a.offset, pak_entry_on_disk_extent a) :=
      range_key_eq_some.mpr ⟨has, rfl, rfl⟩
    have hkb : range_key b = some (a.offset, pak_entry_on_disk_extent a) :=
      range_key_eq_some.mpr ⟨hbs, ho.symm, he.symm⟩
    rw [← UInt32.toNat_inj, h.offset i a' hi', h.offset j b' hj', place, place,
      howner.shared hi hka hj hkb]
  · intro i j a b a' b' hij hi hj hne hi' hj'
    have hown : own i ≠ own j := by
      intro heq
      apply hne
      -- two items with one owner have one key, and only the items on disk have one
      obtain ⟨x, hx, hxk⟩ := howner.item hi
      obtain ⟨y, hy, hyk⟩ := howner.item hj
      rw [heq] at hx
      obtain rfl := Option.some.inj (hx.symm.trans hy)
      cases hka : range_key a with
      | none =>
        have hkb : range_key b = none := by rw [← hyk, hxk, hka]
        exact absurd ((howner.alone hi hka).symm.trans (heq.trans (howner.alone hj hkb))) hij
      | some k =>
        have hkb : range_key b = some k := by rw [← hyk, hxk, hka]
        obtain ⟨has, ha1, ha2⟩ := range_key_eq_some.mp hka
        obtain ⟨hbs, hb1, hb2⟩ := range_key_eq_some.mp hkb
        exact ⟨has, hbs, ha1.trans hb1.symm, ha2.trans hb2.symm⟩
    have hsize : ∀ a b k, range_key a = some k → range_key b = some k →
        stored_size a = stored_size b :=
      fun a b k ha hb => by rw [stored_size_of_key ha, stored_size_of_key hb]
    have hapart := howner.apart hsize hi hj hown
    rw [h.offset i a' hi', h.offset j b' hj']
    omega
  · have hroom := howner.room_eq (fun k => k.2.toNat) fun a k => stored_size_of_key
    have hstaged : ∀ e : Entry, (range_key e).isNone = e.staged := by
      intro e
      unfold range_key
      cases e.staged <;> rfl
    rw [h.payload_end, hroom]
    simp only [hstaged]

/-- Two rebuilt archives read alike: the entries at one position have one name and deliver the same
bytes, whatever a decoder and the sources are. -/
def ReadAlike (df : Deflate) (disk : Bytes) (pak : Archive) (disk' : Bytes) (pak' : Archive) :
    Prop :=
  ∀ (i : ℕ) (e e' : Entry), pak.entries[i]? = some e → pak'.entries[i]? = some e' →
    e.filename = e'.filename ∧ ∀ (sources : CStr → SourceView) (content : Bytes),
      Delivers df sources disk pak e content ↔ Delivers df sources disk' pak' e' content

/-- Rebuilds of one handle that find the same in its sources read alike. -/
theorem rebuilds_read_alike (df : Deflate) {env env₀ : Env} {disk disk' disk₀ : Bytes}
    {pak pak' pak₀ : Archive} {geom : Geometry}
    (hsources : ∀ i path, env₀.sources i path = env.sources i path)
    (h : (pakka_commit_rebuild env disk pak).res = .ok pak')
    (h₀ : (pakka_commit_rebuild env₀ disk pak).res = .ok pak₀)
    (hc : PakCommitted env disk pak disk' pak' geom)
    (hc₀ : PakCommitted env₀ disk pak disk₀ pak₀ geom) : ReadAlike df disk' pak' disk₀ pak₀ := by
  intro i e' e₀ hi' hi₀
  have hcap : pak'.max_decompressed = pak₀.max_decompressed := by
    obtain ⟨_, _, -, _, _, rfl⟩ := pakka_commit_rebuild_entries h
    obtain ⟨_, _, -, _, _, rfl⟩ := pakka_commit_rebuild_entries h₀
    rfl
  obtain ⟨e, hi⟩ : ∃ e, pak.entries[i]? = some e := by
    have hlen := congrArg List.length (hc.listing fun _ _ => [])
    simp only [pak_listing, List.length_mapIdx] at hlen
    have hlt := (List.getElem?_eq_some_iff.mp hi').1
    exact ⟨_, List.getElem?_eq_getElem (by omega)⟩
  obtain ⟨x', hx', hname', hs', hitem'⟩ := hc.entry hi
  obtain ⟨x₀, hx₀, hname₀, hs₀, hitem₀⟩ := hc₀.entry hi
  obtain rfl := Option.some.inj (hi'.symm.trans hx')
  obtain rfl := Option.some.inj (hi₀.symm.trans hx₀)
  refine ⟨hname'.trans hname₀.symm, fun sources content => ?_⟩
  -- on disk an item does not depend on the sources
  have hany : ∀ (x : Entry) (d : Bytes) (f g : CStr → Bytes), x.staged = false →
      pak_item f d x = pak_item g d x := by
    intro x d f g hs
    obtain ⟨h1, h2⟩ := on_disk_none hs
    simp only [pak_item, pak_stored, h1, h2]
  have hitem : pak_item (streams_of sources) disk' e' = pak_item (streams_of sources) disk₀ e₀ := by
    rw [hany e' disk' _ (env.sources i) hs', hany e₀ disk₀ _ (env₀.sources i) hs₀, hitem', hitem₀,
      funext (hsources i)]
  have hsame : within_cap pak' e' ↔ within_cap pak₀ e₀ := by
    have hl := congrArg PakItem.length hitem
    have hd := congrArg PakItem.dk_is_compressed hitem
    have hz := congrArg PakItem.dk_compressed_size hitem
    simp only [pak_item] at hl hd hz
    unfold within_cap
    rw [not_zip_of_geometry hc.state.geometry, not_zip_of_geometry hc₀.state.geometry,
      if_neg (by simp), if_neg (by simp), hl, hd, hz, hcap]
  rw [pak_on_disk_delivers_iff hc.state.geometry (hc.state.entries e' (List.mem_of_getElem? hi'))
      hc.state.end_in_file hs' hc.live,
    pak_on_disk_delivers_iff hc₀.state.geometry (hc₀.state.entries e₀ (List.mem_of_getElem? hi₀))
      hc₀.state.end_in_file hs₀ hc₀.live, hitem, hsame]

/-- **A rebuild shares payloads without changing them.** Whatever calls led to a PAK-class handle
that has its file: a rebuild that succeeds with its map allocated gives entries of one range on disk
one offset, packs everything else behind the header with nothing between, takes room for every range
once and every staged payload, and the new archive reads like one that was rebuilt without the
map. -/
theorem rebuild_deduplicates (df : Deflate) (s₀ : Session) (calls : List (Env × Call)) (env : Env)
    (pak' : Archive) (hstart : Session.Started s₀) (hcls : IsPakClass s₀.pak.format)
    (hfp : (s₀.run df calls).pak.fp = true) (hmap : env.faults.fails .dedup = false)
    (h : (pakka_commit_rebuild env (s₀.run df calls).disk (s₀.run df calls).pak).res = .ok pak') :
    Deduplicated (s₀.run df calls).pak pak' ∧
      ∃ disk', (∀ fs, FileOp.run fs (pakka_commit_rebuild env (s₀.run df calls).disk
          (s₀.run df calls).pak).log .live = some disk') ∧
        ∀ (env₀ : Env) (pak₀ : Archive), env₀.faults.fails .dedup = true →
          (∀ i path, env₀.sources i path = env.sources i path) →
          (pakka_commit_rebuild env₀ (s₀.run df calls).disk (s₀.run df calls).pak).res =
            .ok pak₀ →
          ∃ disk₀, (∀ fs, FileOp.run fs (pakka_commit_rebuild env₀ (s₀.run df calls).disk
              (s₀.run df calls).pak).log .live = some disk₀) ∧
            ReadAlike df disk' pak' disk₀ pak₀ := by
  obtain ⟨geom, disk, hlive₀⟩ := hstart.live hcls
  have hrun₀ : PakRun s₀.pak.format geom False s₀ := Or.inr ⟨_, hlive₀⟩
  rcases hrun₀.run calls with hlost | ⟨disk, hlive⟩
  · rw [hlost.1] at hfp
    cases hfp
  have hstate := hlive.state
  rw [← hlive.disk_eq] at hstate
  have howner : Owner range_key (s₀.run df calls).pak.entries
      (owner_of (rebuild_owner env (s₀.run df calls).pak.entries)) := by
    have hkey : rebuild_key env = range_key := by
      funext e
      rw [rebuild_key, hmap, if_neg (by simp)]
    rw [← hkey]
    exact rebuild_owner_spec env _
  refine ⟨(rebuild_packs howner hstate.entries h).deduplicated howner, ?_⟩
  obtain ⟨disk', hlog, hcom⟩ := pakka_commit_rebuild_ok hstate h
  refine ⟨disk', hlog, fun env₀ pak₀ _ hsources h₀ => ?_⟩
  obtain ⟨disk₀, hlog₀, hcom₀⟩ := pakka_commit_rebuild_ok hstate h₀
  exact ⟨disk₀, hlog₀, rebuilds_read_alike df hsources h h₀ hcom hcom₀⟩

/-- A file with two entries of one range. -/
def aliased_file : Bytes :=
  ascii "PACK" ++ put32 13 ++ put32 128 ++ [7] ++
    (ascii "a" ++ List.replicate 55 0 ++ put32 12 ++ put32 1) ++
    (ascii "b" ++ List.replicate 55 0 ++ put32 12 ++ put32 1)

/-- The aliases, with one entry staged, rebuilt. -/
theorem rebuild_deduplicates_aliased : ∃ pak pak',
    pakka_open_ex CStr.empty .read_write_atomic .pak (some aliased_file) = .ok pak ∧
      Deduplicated ((Session.opened aliased_file pak).run .storing
        [(calm_env, .add_memory lump_name [1])]).pak pak' := by
  have hopen : (pakka_open_ex CStr.empty .read_write_atomic .pak (some aliased_file)).toOption.map
      (fun pak => (Archive.format pak,
        ((Session.opened aliased_file pak).run .storing
          [(calm_env, .add_memory lump_name [1])]).pak.fp,
        (pakka_commit_rebuild calm_env ((Session.opened aliased_file pak).run .storing
            [(calm_env, .add_memory lump_name [1])]).disk
          ((Session.opened aliased_file pak).run .storing
            [(calm_env, .add_memory lump_name [1])]).pak).res.toOption.isSome)) =
        some (.pak, true, true) := by
    decide +kernel
  cases hpak : pakka_open_ex CStr.empty .read_write_atomic .pak (some aliased_file) with
  | error st =>
    rw [hpak] at hopen
    cases hopen
  | ok pak =>
    rw [hpak] at hopen
    simp only [Except.toOption, Option.map_some, Option.some.injEq, Prod.mk.injEq] at hopen
    obtain ⟨hformat, hfp, hres⟩ := hopen
    cases hreb : (pakka_commit_rebuild calm_env ((Session.opened aliased_file pak).run .storing
        [(calm_env, .add_memory lump_name [1])]).disk ((Session.opened aliased_file pak).run .storing
        [(calm_env, .add_memory lump_name [1])]).pak).res with
    | error err =>
      rw [hreb] at hres
      cases hres
    | ok pak' =>
      refine ⟨pak, pak', rfl, ?_⟩
      exact (rebuild_deduplicates .storing (Session.opened aliased_file pak)
        [(calm_env, .add_memory lump_name [1])] calm_env pak' (.opened hpak)
        (by change IsPakClass pak.format; rw [hformat]; decide) hfp rfl hreb).1

end Pakka
