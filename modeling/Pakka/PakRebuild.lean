/-
What a commit that succeeds leaves of a PAK-class archive.

The rebuild is followed from the sharing of payloads through the copy loop to the finished
scratch file. The sharing scan may only point an entry at an earlier one with the same bytes
(`pak_dedup_owner_shares`); the copy loop then has every payload at the offset it recorded
(`pak_rebuild_copy_ok`). Both commits end in the same statement, `PakCommitted`: the handle is
in order, its directory is published, and the listing is the one before the call.

Of the copy loop the invariant is that the entries done so far have their payloads where their
offsets say; it is kept under appending, so the induction is on the entries that are left. The
in-place commit needs none of this and only shares the directory with the rebuild.
-/
import Pakka.PakImage

set_option autoImplicit false

namespace Pakka

open ByteImage LittleEndian Logged

/-! ## Sharing

Soundness of the scan: an owner has the bytes of the entry it stands for.
-/

/-- Entry `i` may use the bytes of entry `o`: it is `o`, or `o` comes earlier and both have the
same range on disk. -/
def Shares (es : List Entry) (o i : ℕ) : Prop :=
  o = i ∨ o < i ∧ ∃ a b, es[o]? = some a ∧ es[i]? = some b ∧ a.staged = false ∧
    b.staged = false ∧ a.offset = b.offset ∧
    pak_entry_on_disk_extent a = pak_entry_on_disk_extent b

/-- A key is the key of the entry it names. -/
def KeyOf (es : List Entry) (k : DedupKey) : Prop :=
  ∃ e, es[k.idx]? = some e ∧ e.staged = false ∧ k.offset = e.offset ∧
    k.extent = pak_entry_on_disk_extent e

theorem keyOf_of_mem {es : List Entry} {k : DedupKey} (h : k ∈ pak_dedup_keys es) :
    KeyOf es k := by
  obtain ⟨⟨e, i⟩, hmem, hk⟩ := List.mem_filterMap.mp h
  have hget := List.mem_zipIdx_iff_getElem?.mp hmem
  split_ifs at hk with hs
  obtain rfl := Option.some.inj hk
  exact ⟨e, hget, by simpa using hs, rfl, rfl⟩

theorem pak_dedup_key_le_total (a b : DedupKey) :
    pak_dedup_key_le a b = true ∨ pak_dedup_key_le b a = true := by
  unfold pak_dedup_key_le
  split_ifs <;> simp_all [UInt32.lt_iff_toNat_lt, ← UInt32.toNat_inj]
  all_goals omega

theorem pak_dedup_key_le_trans {a b c : DedupKey} (h1 : pak_dedup_key_le a b = true)
    (h2 : pak_dedup_key_le b c = true) : pak_dedup_key_le a c = true := by
  unfold pak_dedup_key_le at *
  simp only [ne_eq, ← UInt32.toNat_inj, UInt32.lt_iff_toNat_lt] at *
  split_ifs at * <;> simp_all <;> omega

instance : Std.Total (fun a b : DedupKey => pak_dedup_key_le a b = true) :=
  ⟨pak_dedup_key_le_total⟩

instance : IsTrans DedupKey (fun a b => pak_dedup_key_le a b = true) :=
  ⟨fun _ _ _ h1 h2 => pak_dedup_key_le_trans h1 h2⟩

/-- Sharing with an entry that shares. -/
theorem Shares.step {es : List Entry} {o : ℕ} {a b : DedupKey} (ha : KeyOf es a)
    (hb : KeyOf es b) (hle : pak_dedup_key_le a b = true) (hoff : b.offset = a.offset)
    (hext : b.extent = a.extent) (h : Shares es o a.idx) : Shares es o b.idx := by
  have hidx : a.idx ≤ b.idx := by
    simpa [pak_dedup_key_le, hoff, hext] using hle
  obtain ⟨x, hx, hxs, hxo, hxe⟩ := ha
  obtain ⟨y, hy, hys, hyo, hye⟩ := hb
  have hxy : x.offset = y.offset ∧ pak_entry_on_disk_extent x = pak_entry_on_disk_extent y :=
    ⟨by rw [← hxo, ← hyo, hoff], by rw [← hxe, ← hye, hext]⟩
  rcases Nat.eq_or_lt_of_le hidx with he | hlt
  · rwa [← he]
  rcases h with rfl | ⟨ho, u, v, hu, hv, hus, -, huo, hue⟩
  · exact Or.inr ⟨hlt, x, y, hx, hy, hxs, hys, hxy.1, hxy.2⟩
  · obtain rfl := Option.some.inj (hv.symm.trans hx)
    exact Or.inr ⟨by omega, u, y, hu, hy, hus, hys, huo.trans hxy.1, hue.trans hxy.2⟩

/-- The scan only ever points at an earlier entry with the same bytes. -/
theorem pak_dedup_scan_shares {es : List Entry} (keys : List DedupKey) {owner : List ℕ}
    (hsorted : keys.Pairwise fun a b => pak_dedup_key_le a b = true)
    (hkeys : ∀ k ∈ keys, KeyOf es k) (h : ∀ i, Shares es (owner.getD i i) i) :
    ∀ i, Shares es ((pak_dedup_scan keys owner).getD i i) i := by
  induction keys generalizing owner with
  | nil => exact h
  | cons a keys ih =>
    cases keys with
    | nil => exact h
    | cons b rest =>
      rw [pak_dedup_scan]
      refine ih hsorted.of_cons (fun k hk => hkeys k (List.mem_cons_of_mem _ hk)) fun i => ?_
      by_cases hab : b.offset = a.offset ∧ b.extent = a.extent
      · rw [if_pos hab]
        by_cases hi : i = b.idx ∧ i < owner.length
        · obtain ⟨rfl, hlt⟩ := hi
          rw [List.getD_eq_getElem _ _ (by rwa [List.length_set]), List.getElem_set_self]
          exact Shares.step (hkeys a List.mem_cons_self)
            (hkeys b (List.mem_cons_of_mem _ List.mem_cons_self))
            (List.rel_of_pairwise_cons hsorted List.mem_cons_self) hab.1 hab.2 (h a.idx)
        · have hsame : (owner.set b.idx (owner.getD a.idx a.idx)).getD i i = owner.getD i i := by
            simp only [List.getD_eq_getElem?_getD]
            by_cases hib : i = b.idx
            · have hge : owner.length ≤ i := by
                by_contra hlt
                exact hi ⟨hib, by omega⟩
              rw [List.getElem?_eq_none (by rwa [List.length_set]), List.getElem?_eq_none hge]
            · rw [List.getElem?_set_ne (fun hb => hib hb.symm)]
          rw [hsame]
          exact h i
      · rw [if_neg hab]
        exact h i

/-- **Shared payloads are equal payloads**, and the owner comes first. -/
theorem pak_dedup_owner_shares (es : List Entry) (i : ℕ) :
    Shares es ((pak_dedup_owner es).getD i i) i := by
  refine pak_dedup_scan_shares _ (List.pairwise_insertionSort _ _) ?_ ?_ i
  · intro k hk
    exact keyOf_of_mem ((List.mem_insertionSort _).mp hk)
  · intro i
    left
    simp only [List.getD_eq_getElem?_getD]
    by_cases hi : i < es.length
    · simp [hi]
    · simp [hi]

/-- Entries that share have the same bytes stored. -/
theorem pak_stored_shared (sources sources' : CStr → Bytes) (disk : Bytes) {a b : Entry}
    (ha : a.staged = false) (hb : b.staged = false) (ho : a.offset = b.offset)
    (he : pak_entry_on_disk_extent a = pak_entry_on_disk_extent b) :
    pak_stored sources disk a = pak_stored sources' disk b := by
  have hnone : ∀ e : Entry, e.staged = false →
      e.pending_source = none ∧ e.pending_data = none := by
    intro e h
    simpa [Entry.staged, Option.isSome_eq_false_iff] using h
  obtain ⟨a1, a2⟩ := hnone a ha
  obtain ⟨b1, b2⟩ := hnone b hb
  simp only [pak_stored, a1, a2, b1, b2, Entry.payload, ho, he]

/-! ## Copying one payload

For each of the three places a payload can be.
-/

/-- What the staged source at `path` holds when entry `i` is committed. -/
def Env.sources (env : Env) (i : ℕ) (path : CStr) : Bytes := ((env.view i path).stream).getD []

/-- **A staged source that was copied** had the length and the checksum it was staged with. -/
theorem copy_pending_source_ok {env : Env} {i pos : ℕ} {path : CStr} {size crc : UInt32}
    {bs : Bytes} (h : (copy_pending_source env i pos path size crc).res = .ok bs) :
    bs = (env.sources i path).take size.toNat ∧ bs.length = size.toNat ∧ crc32_of bs = crc ∧
      WritesAt .scratch pos bs (copy_pending_source env i pos path size crc).log := by
  unfold copy_pending_source at h ⊢
  simp only [bind_res_ok, ofExcept_res] at h
  obtain ⟨found, hfound, h⟩ := h
  rw [bind_log_of_ok (by rw [ofExcept_res]; exact hfound), ofExcept_log, List.nil_append]
  by_cases hne : found ≠ size.toNat
  · rw [if_pos hne] at h
    cases h
  rw [if_neg hne] at h ⊢
  simp only [bind_res_ok, ofOption_res_ok] at h
  obtain ⟨stream, hst, b, hb, h⟩ := h
  obtain ⟨hread, hlog⟩ := copyChunks_ok (by decide) _ hb
  rw [bind_log_of_ok ((ofOption_res_ok _ _ _).mpr hst), bind_log_of_ok hb, ofOption_log,
    List.nil_append]
  by_cases hcrc : crc32_of b ≠ crc
  · rw [if_pos hcrc] at h
    cases h
  rw [if_neg hcrc] at h ⊢
  simp only [pure_res, Except.ok.injEq] at h
  subst h
  obtain ⟨hbs, hlen⟩ := readExact_eq_some.mp hread
  rw [pure_log, List.append_nil]
  refine ⟨?_, hlen, not_not.mp hcrc, hlog⟩
  simp only [Env.sources, hst, Option.getD_some]
  rw [hbs, slice, List.drop_zero]

/-- A staged buffer is copied as it is. -/
theorem copy_pending_data_ok {env : Env} {i pos : ℕ} {data bs : Bytes}
    (h : (copy_pending_data env i pos data).res = .ok bs) :
    bs = data ∧ WritesAt .scratch pos bs (copy_pending_data env i pos data).log := by
  unfold copy_pending_data at h ⊢
  by_cases h0 : data.length > 0
  · rw [if_pos h0] at h ⊢
    simp only [bind_res_ok, writeAt_res_ok, exists_const, pure_res, Except.ok.injEq] at h
    obtain ⟨hw, rfl⟩ := h
    rw [bind_log_of_ok ((writeAt_res_ok _ _ _ _ _ _ ()).mpr hw), writeAt_log_of_ok hw, pure_log]
    exact ⟨rfl, WritesAt.single _ _ _⟩
  · rw [if_neg h0] at h ⊢
    simp only [pure_res, Except.ok.injEq] at h
    have hnil : data = [] := List.length_eq_zero_iff.mp (by omega)
    subst h
    rw [hnil]
    exact ⟨rfl, WritesAt.nil _ _⟩

/-- **A payload that was copied** is the one stored for the entry. -/
theorem copy_between_paks_ok {env : Env} {disk : Bytes} {i pos : ℕ} {e : Entry} {bs : Bytes}
    {pak : Archive} {geom : Geometry} (he : PakEntryOk pak geom e)
    (h : (copy_between_paks env disk i pos e).res = .ok bs) :
    pos ≤ UINT32_MAX ∧ bs = pak_stored (env.sources i) disk e ∧
      bs.length = (pak_entry_on_disk_extent e).toNat ∧
      WritesAt .scratch pos bs (copy_between_paks env disk i pos e).log := by
  unfold copy_between_paks at h ⊢
  simp only [bind_res_ok, call_res_ok, exists_const] at h
  obtain ⟨ht, h⟩ := h
  rw [bind_log_of_ok ((call_res_ok _ _ _ ()).mpr ht), call_log, List.nil_append]
  by_cases hpos : pos > UINT32_MAX
  · rw [if_pos hpos] at h
    cases h
  rw [if_neg hpos] at h ⊢
  refine ⟨Nat.not_lt.mp hpos, ?_⟩
  unfold pak_stored
  cases hs : e.pending_source with
  -- from the source, read again
  | some path =>
    rw [hs] at h
    simp only at h ⊢
    have hdk := he.source (by rw [hs]; rfl)
    have hext : pak_entry_on_disk_extent e = e.length := by
      rw [pak_entry_on_disk_extent, hdk, if_neg (by simp)]
    obtain ⟨hbs, hlen, -, hlog⟩ := copy_pending_source_ok h
    rw [hext]
    exact ⟨hbs, hlen, hlog⟩
  | none =>
    cases hd : e.pending_data with
    | some data =>
      rw [hs, hd] at h
      simp only at h ⊢
      obtain ⟨hbs, hlog⟩ := copy_pending_data_ok h
      exact ⟨hbs, by rw [hbs, he.data data hd], hlog⟩
    | none =>
      rw [hs, hd] at h
      simp only [pak_copy_extent, bind_res_ok, call_res_ok, exists_const] at h ⊢
      obtain ⟨hseek, h⟩ := h
      rw [bind_log_of_ok ((call_res_ok _ _ _ ()).mpr hseek), call_log, List.nil_append]
      by_cases h0 : pak_entry_on_disk_extent e = 0
      · rw [if_pos h0] at h ⊢
        simp only [pure_res, Except.ok.injEq] at h
        subst h
        have hz : (pak_entry_on_disk_extent e).toNat = 0 := by rw [h0]; rfl
        rw [Entry.payload, hz, slice_zero_len]
        exact ⟨rfl, rfl, WritesAt.nil _ _⟩
      · rw [if_neg h0] at h ⊢
        simp only [bind_res_ok, call_res_ok, exists_const] at h
        obtain ⟨hbuf, h⟩ := h
        obtain ⟨hread, hlog⟩ := copyChunks_ok (by decide) _ h
        obtain ⟨hbs, hlen⟩ := readExact_eq_some.mp hread
        rw [bind_log_of_ok ((call_res_ok _ _ _ ()).mpr hbuf), call_log, List.nil_append]
        exact ⟨hbs, hlen, hlog⟩

/-! ## The copy loop

The invariant is `AllPlaced`: the entries done so far have their payloads in the scratch file.
-/

/-- `stored` is found at offset `o` of a scratch file that holds `acc` behind its header. -/
def Placed (acc : Bytes) (o : UInt32) (stored : Bytes) : Prop :=
  ∃ k, o.toNat = PAKFILE_HEADER_SIZE + k ∧ k + stored.length ≤ acc.length ∧
    slice acc k stored.length = stored

theorem Placed.append {acc : Bytes} {o : UInt32} {stored : Bytes} (h : Placed acc o stored)
    (more : Bytes) : Placed (acc ++ more) o stored := by
  obtain ⟨k, hk, hlen, hs⟩ := h
  refine ⟨k, hk, by rw [List.length_append]; omega, ?_⟩
  rw [slice_append_left hlen, hs]

/-- The entries so far have their payloads, in full length, at the offsets so far. -/
def AllPlaced (env : Env) (disk acc : Bytes) (es : List Entry) (offsets : List UInt32) : Prop :=
  ∀ k o e, offsets[k]? = some o → es[k]? = some e →
    Placed acc o (pak_stored (env.sources k) disk e) ∧
      (pak_stored (env.sources k) disk e).length = (pak_entry_on_disk_extent e).toNat

/-- One more entry and its offset. -/
theorem AllPlaced.snoc {env : Env} {disk acc : Bytes} {es : List Entry} {offsets : List UInt32}
    {o : UInt32} {e : Entry} (h : AllPlaced env disk acc es offsets)
    (he : es[offsets.length]? = some e)
    (ho : Placed acc o (pak_stored (env.sources offsets.length) disk e) ∧
      (pak_stored (env.sources offsets.length) disk e).length =
        (pak_entry_on_disk_extent e).toNat) :
    AllPlaced env disk acc es (offsets ++ [o]) := by
  intro k o' e' hk he'
  rcases Nat.lt_trichotomy k offsets.length with hlt | rfl | hgt
  · rw [List.getElem?_append_left hlt] at hk
    exact h k o' e' hk he'
  · rw [List.getElem?_append_right (Nat.le_refl _), Nat.sub_self] at hk
    obtain rfl := Option.some.inj hk
    obtain rfl := Option.some.inj (he.symm.trans he')
    exact ho
  · rw [List.getElem?_eq_none (by rw [List.length_append, List.length_singleton]; omega)] at hk
    cases hk

/-- What the loop may assume of the owners it is given. -/
def OwnersShare (es : List Entry) (owner : Option (List ℕ)) : Prop :=
  ∀ l, owner = some l → ∀ i, Shares es (l.getD i i) i

/-- A shared entry's owner is earlier and has the same bytes. -/
theorem shared_owner {es : List Entry} {owner : Option (List ℕ)} (h : OwnersShare es owner)
    {i o : ℕ} (hs : pak_shared owner i = some o) :
    o < i ∧ ∃ a b, es[o]? = some a ∧ es[i]? = some b ∧ a.staged = false ∧ b.staged = false ∧
      a.offset = b.offset ∧ pak_entry_on_disk_extent a = pak_entry_on_disk_extent b := by
  unfold pak_shared at hs
  split at hs
  · cases hs
  · rename_i l
    split_ifs at hs with hne
    obtain rfl := Option.some.inj hs
    rcases h l rfl i with he | hsh
    · exact absurd he hne
    · exact hsh

/-- **The copy loop.** After it every payload is at its entry's new offset. -/
theorem pak_rebuild_copy_ok {env : Env} {disk : Bytes} {pak : Archive} {geom : Geometry}
    {owner : Option (List ℕ)} (howner : OwnersShare pak.entries owner)
    (hok : ∀ e ∈ pak.entries, PakEntryOk pak geom e) (rest : List Entry) {pos pos' : ℕ}
    {offsets offsets' : List UInt32} {acc : Bytes}
    (hrest : pak.entries.drop offsets.length = rest)
    (hpos : pos = PAKFILE_HEADER_SIZE + acc.length)
    (hplaced : AllPlaced env disk acc pak.entries offsets)
    (h : (pak_rebuild_copy env disk owner offsets.length pos offsets rest).res =
      .ok (offsets', pos')) :
    ∃ more, pos' = pos + more.length ∧
      WritesAt .scratch pos more
        (pak_rebuild_copy env disk owner offsets.length pos offsets rest).log ∧
      offsets'.length = offsets.length + rest.length ∧
      AllPlaced env disk (acc ++ more) pak.entries offsets' := by
  induction rest generalizing pos offsets acc with
  | nil =>
    simp only [pak_rebuild_copy, pure_res, Except.ok.injEq, Prod.mk.injEq] at h
    obtain ⟨rfl, rfl⟩ := h
    refine ⟨[], by simp, WritesAt.nil _ _, by simp, ?_⟩
    rw [List.append_nil]
    exact hplaced
  | cons e rest ih =>
    have hlt : offsets.length < pak.entries.length := by
      have := congrArg List.length hrest
      rw [List.length_drop, List.length_cons] at this
      omega
    have hcons := List.drop_eq_getElem_cons hlt
    rw [hrest] at hcons
    obtain ⟨he, hrest'⟩ := List.cons.inj hcons
    have hget : pak.entries[offsets.length]? = some e := by
      rw [List.getElem?_eq_getElem hlt, ← he]
    have hmem : e ∈ pak.entries := List.mem_of_getElem? hget
    have hlen1 : ∀ o : UInt32, (offsets ++ [o]).length = offsets.length + 1 := by simp
    cases hsh : pak_shared owner offsets.length with
    -- shared: the offset is that of an entry already placed, with the same stored bytes
    | some o =>
      simp only [pak_rebuild_copy, hsh] at h ⊢
      obtain ⟨holt, a, b, ha, hb, has, hbs, hab, hex⟩ := shared_owner howner hsh
      obtain rfl := Option.some.inj (hget.symm.trans hb)
      have hgo : offsets[o]? = some (offsets.getD o 0) := by
        rw [List.getElem?_eq_getElem holt, List.getD_eq_getElem _ _ holt]
      have hsame := pak_stored_shared (env.sources o) (env.sources offsets.length) disk
        has hbs hab hex
      have hpl := hplaced o _ a hgo ha
      rw [hsame, hex] at hpl
      rw [← hlen1 (offsets.getD o 0)] at h
      obtain ⟨more, h1, h2, h3, h4⟩ := ih (by rw [hlen1]; exact hrest'.symm) hpos
        (hplaced.snoc hget hpl) h
      rw [hlen1] at h2 h3
      refine ⟨more, h1, h2, ?_, h4⟩
      rw [h3, List.length_cons]
      omega
    -- a payload of its own goes behind what has been written
    | none =>
      simp only [pak_rebuild_copy, hsh, bind_res_ok] at h ⊢
      obtain ⟨bs, hbs, h⟩ := h
      obtain ⟨hmax, hst, hbl, hlog⟩ := copy_between_paks_ok (hok e hmem) hbs
      have hoff : (UInt32.ofNat pos).toNat = PAKFILE_HEADER_SIZE + acc.length := by
        rw [UInt32.toNat_ofNat', Nat.mod_eq_of_lt (by simp only [UINT32_MAX] at hmax; omega), hpos]
      have hpl : Placed (acc ++ bs) (UInt32.ofNat pos)
          (pak_stored (env.sources offsets.length) disk e) := by
        rw [← hst]
        refine ⟨acc.length, hoff, by simp, ?_⟩
        rw [slice, List.drop_left, List.take_length]
      have hplaced' : AllPlaced env disk (acc ++ bs) pak.entries offsets :=
        fun k o x hk hx =>
          ⟨(hplaced k o x hk hx).1.append bs, (hplaced k o x hk hx).2⟩
      rw [← hlen1 (UInt32.ofNat pos)] at h
      obtain ⟨more, h1, h2, h3, h4⟩ := ih (by rw [hlen1]; exact hrest'.symm)
        (by rw [hpos, List.length_append, Nat.add_assoc])
        (hplaced'.snoc hget ⟨hpl, by rw [← hst, hbl]⟩) h
      rw [hlen1] at h2 h3
      refine ⟨bs ++ more, ?_, ?_, ?_, ?_⟩
      · rw [h1, List.length_append, Nat.add_assoc]
      · rw [bind_log_of_ok hbs]
        exact hlog.append h2 rfl
      · rw [h3, List.length_cons]
        omega
      · rw [← List.append_assoc]
        exact h4

/-! ## The scratch file

Copies and directory, put together.
-/

/-- All a log does is work on the scratch file. -/
def ScratchOnly (log : List (FileOp FileId)) : Prop :=
  ∀ op ∈ log, (∃ off bs, op = .write .scratch off bs) ∨ op = .create .scratch ∨
    op = .remove .scratch

theorem ScratchOnly.not_touches {log : List (FileOp FileId)} (h : ScratchOnly log) {f : FileId}
    (hf : f ≠ .scratch) : ∀ op ∈ log, ¬ op.Touches f := by
  intro op ho
  rcases h op ho with ⟨off, bs, rfl⟩ | rfl | rfl
  · rintro ⟨he, -⟩
    exact hf he.symm
  · exact fun he => hf he.symm
  · exact fun he => hf he.symm

@[simp] theorem alloc_for_entries_log (env : Env) (site : Site) (es : List Entry) :
    (alloc_for_entries env site es).log = [] := by
  unfold alloc_for_entries
  split_ifs
  · exact call_log _ _ _
  · rfl

/-- What a finished scratch file holds before its directory, and where. -/
theorem pak_rebuild_scratch_ok {env : Env} {disk : Bytes} {pak : Archive} {geom : Geometry}
    (hok : ∀ e ∈ pak.entries, PakEntryOk pak geom e) {offsets : List UInt32} {pos : ℕ}
    (h : (pak_rebuild_scratch env disk pak).res = .ok (offsets, pos)) :
    ∃ acc, pos = PAKFILE_HEADER_SIZE + acc.length ∧ offsets.length = pak.entries.length ∧
      AllPlaced env disk acc pak.entries offsets ∧
      ∀ fs, FileOp.run fs (pak_rebuild_scratch env disk pak).log .scratch =
        some (overwrite [] PAKFILE_HEADER_SIZE acc) := by
  simp only [pak_rebuild_scratch, bind_res_ok, call_res_ok, exists_const, emit_res, true_and,
    onError_res, pak_rebuild_payloads, pure_res, Except.ok.injEq] at h
  obtain ⟨u, hb, hmk, hseek, r, hcopy, htell, u2, hroll, rfl⟩ := h
  have howner : OwnersShare pak.entries (if env.faults.fails .dedup = true then none
      else some (pak_dedup_owner pak.entries)) := by
    intro l hl i
    split_ifs at hl
    obtain rfl := Option.some.inj hl
    exact pak_dedup_owner_shares pak.entries i
  have hplaced : AllPlaced env disk [] pak.entries [] := fun k o e hk => by simp at hk
  obtain ⟨acc, h1, h2, h3, h4⟩ := pak_rebuild_copy_ok howner hok pak.entries rfl rfl hplaced hcopy
  refine ⟨acc, h1, by simpa using h3, h4, fun fs => ?_⟩
  have hres : (pak_rebuild_payloads env disk pak).res = .ok (offsets, pos) := by
    simp only [pak_rebuild_payloads, bind_res_ok, call_res_ok, exists_const, pure_res,
      Except.ok.injEq]
    exact ⟨hseek, _, hcopy, htell, u2, hroll, rfl⟩
  have hlog : (pak_rebuild_scratch env disk pak).log =
      FileOp.create .scratch :: (pak_rebuild_copy env disk
        (if env.faults.fails .dedup = true then none else some (pak_dedup_owner pak.entries))
        0 PAKFILE_HEADER_SIZE [] pak.entries).log := by
    unfold pak_rebuild_scratch
    rw [bind_log_of_ok hb, bind_log_of_ok ((call_res_ok _ _ _ ()).mpr hmk),
      bind_log_of_ok (emit_res _), onError_log_of_ok hres, alloc_for_entries_log, call_log, emit_log]
    unfold pak_rebuild_payloads
    rw [bind_log_of_ok ((call_res_ok _ _ _ ()).mpr hseek), bind_log_of_ok hcopy,
      bind_log_of_ok ((call_res_ok _ _ _ ()).mpr htell), bind_log_of_ok hroll, call_log, call_log,
      alloc_for_entries_log]
    simp
  rw [hlog, FileOp.run_cons]
  exact h2 _ [] (by simp [FileOp.apply])

/-! ## The finished commit

`PakCommitted` for either commit.
-/

/-- Names and items of a list of entries, the staged sources as a commit finds them. -/
def pak_listing (sources : ℕ → CStr → Bytes) (disk : Bytes) (es : List Entry) :
    Catalogue CStr PakItem :=
  es.mapIdx fun i e => (e.filename, pak_item (sources i) disk e)

/-- What a commit that succeeded leaves: a clean handle in order, its directory in the file, and
the listing of before. -/
structure PakCommitted (env : Env) (disk : Bytes) (pak : Archive) (disk' : Bytes)
    (pak' : Archive) (geom : Geometry) : Prop where
  state : PakState disk'.length pak' geom
  published : pak'.entries.length ≤ PAKFILE_MAX_ENTRIES → PakPublished disk' pak' geom
  listing : ∀ sources, pak_listing sources disk' pak'.entries =
    pak_listing env.sources disk pak.entries
  on_disk : ∀ e ∈ pak'.entries, e.staged = false
  clean : pak'.dirty = false
  live : pak'.fp = true
  format : pak'.format = pak.format
  is_new : pak'.is_new = pak.is_new

/-- The file still has what the directory writer found in it. -/
theorem sameBetween_pak_file {pak : Archive} (geom : Geometry) (c : Bytes)
    (hsig : pak.signature.length = 4) :
    SameBetween PAKFILE_HEADER_SIZE pak.payload_end c (pak_file pak geom c) := by
  have hhdr : (pak_header (with_directory pak geom)).length = PAKFILE_HEADER_SIZE :=
    length_pak_header hsig
  have hrows : SameBetween PAKFILE_HEADER_SIZE pak.payload_end c
      (overwrite c pak.payload_end (pak_directory pak.format geom pak.entries)) :=
    sameBetween_overwrite (Or.inr (Nat.le_refl _))
  exact hrows.trans (sameBetween_overwrite (Or.inl (by rw [hhdr, Nat.zero_add])))

/-- A file with a directory reaches at least to `payload_end`. -/
theorem payload_end_le_pak_file {n : ℕ} {pak : Archive} {geom : Geometry}
    (h : PakState n pak geom) (c : Bytes) (hc : pak.payload_end ≤ c.length ∨
      (pak.entries = [] → pak.payload_end = PAKFILE_HEADER_SIZE)) :
    pak.payload_end ≤ (pak_file pak geom c).length := by
  have hg := h.geometry
  obtain ⟨-, -, hrow1, -⟩ := geometry_bounds hg
  have hname := fun e he => (h.entries e he).name_fits
  have hsig : (with_directory pak geom).signature.length = 4 := by
    change pak.signature.length = 4
    rw [h.signature, geometry_signature_length hg]
  have h1 := length_le_overwrite c (pak_directory pak.format geom pak.entries) pak.payload_end
  have h2 := length_le_overwrite (overwrite c pak.payload_end
    (pak_directory pak.format geom pak.entries)) (pak_header (with_directory pak geom)) 0
  rcases hc with hc | hc
  · rw [pak_file]
    omega
  by_cases h0 : pak.entries = []
  · rw [hc h0, pak_file, length_overwrite, length_pak_header hsig]
    split_ifs with hn
    · have := length_pak_header hsig
      rw [hn] at this
      cases this
    · omega
  · have hlen := length_pak_directory hg hname
    have h3 := length_overwrite c (pak_directory pak.format geom pak.entries) pak.payload_end
    have hpos := Nat.mul_pos (List.length_pos_iff.mpr h0) (by omega : 0 < geom.dir_entry_size)
    rw [if_neg (fun hn => by rw [hn, List.length_nil] at hlen; omega)] at h3
    rw [pak_file]
    omega

/-- The state after a directory was written to the live file. -/
theorem PakState.with_directory {n : ℕ} {pak : Archive} {geom : Geometry}
    (h : PakState n pak geom) : PakState n (with_directory pak geom) geom :=
  ⟨h.geometry, h.signature, h.tail, h.count, h.payload_end_ge, h.end_in_file, h.nodup,
    fun e he => (h.entries e he).mono rfl (Nat.le_refl _), h.staged⟩

/-- **The in-place commit**, when it succeeds. -/
theorem pakka_commit_in_place_ok {env : Env} {disk : Bytes} {pak pak' : Archive}
    {geom : Geometry} (h : PakState disk.length pak geom) (hreb : pak.needs_rebuild = false)
    (hfp : pak.fp = true) (hc : (pakka_commit_in_place env pak).res = .ok pak') :
    ∃ disk', (∀ fs, fs .live = some disk →
        FileOp.run fs (pakka_commit_in_place env pak).log .live = some disk') ∧
      PakCommitted env disk pak disk' pak' geom := by
  have hname := fun e he => (h.entries e he).name_fits
  have hsig : pak.signature.length = 4 := by
    rw [h.signature, geometry_signature_length h.geometry]
  have hdisk : ∀ e ∈ pak.entries, e.staged = false := by
    intro e he
    by_contra hs
    rw [h.staged e he (by simpa using hs)] at hreb
    cases hreb
  simp only [pakka_commit_in_place, bind_res_ok, call_res_ok, exists_const, pure_res,
    Except.ok.injEq] at hc
  obtain ⟨pak1, hdir, hflush, rfl⟩ := hc
  obtain ⟨rfl, hfit, hlog⟩ := write_pak_directory_ok h.geometry hname hdir
  have hsame := sameBetween_pak_file geom disk hsig
  refine ⟨pak_file pak geom disk, fun fs hfs => ?_, ?_, ?_, ?_, ?_, rfl, hfp, rfl, rfl⟩
  · unfold pakka_commit_in_place
    rw [bind_log_of_ok hdir, bind_log_of_ok ((call_res_ok _ _ _ ()).mpr hflush), call_log, pure_log,
      List.append_nil, List.append_nil]
    exact hlog fs disk hfs
  · have hs := (h.mono hsame.1).with_directory
    exact ⟨hs.geometry, hs.signature, hs.tail, hs.count, hs.payload_end_ge, hs.end_in_file,
      hs.nodup, fun e he => (hs.entries e he).mono rfl (Nat.le_refl _), hs.staged⟩
  · intro hmax
    have hp := pak_file_published h hdisk hmax hfit disk
    exact ⟨hp.directory, hp.rows, hp.on_disk⟩
  · intro sources
    refine List.ext_getElem? fun k => ?_
    simp only [pak_listing, List.getElem?_mapIdx]
    change Option.map _ pak.entries[k]? = _
    cases hk : pak.entries[k]? with
    | none => rfl
    | some e =>
      have he := List.mem_of_getElem? hk
      simp only [Option.map_some, Option.some.injEq, Prod.mk.injEq, true_and]
      rw [h.item_congr hsame he]
      have hs := hdisk e he
      simp only [Entry.staged, Bool.or_eq_false_iff, Option.isSome_eq_false_iff,
        Option.isNone_iff_eq_none] at hs
      simp only [pak_item, pak_stored, hs.1, hs.2]
  · exact hdisk

/-- A handle as a finished rebuild leaves it. -/
def finished (pak : Archive) : Archive :=
  { pak with
    entries := drop_pending pak.entries
    fp := true
    dirty := false
    needs_rebuild := false }

/-- The directory writer does not look at what is staged. -/
theorem with_directory_finished (pak : Archive) (geom : Geometry) :
    with_directory (finished pak) geom = finished (with_directory pak geom) := by
  have hnil : drop_pending pak.entries = [] ↔ pak.entries = [] := by
    simp [drop_pending]
  have hlen : (drop_pending pak.entries).length = pak.entries.length := by
    simp [drop_pending]
  simp only [with_directory, finished, hnil, hlen]

theorem pak_directory_drop_pending (format : Format) (geom : Geometry) (es : List Entry) :
    pak_directory format geom (drop_pending es) = pak_directory format geom es := by
  unfold pak_directory drop_pending
  rw [List.map_map]
  rfl

theorem pak_file_finished (pak : Archive) (geom : Geometry) (c : Bytes) :
    pak_file (finished pak) geom c = pak_file pak geom c := by
  unfold pak_file
  rw [with_directory_finished]
  simp only [finished, pak_directory_drop_pending]
  rfl

/-- An entry of a finished rebuild is an old one, with its new offset and nothing staged. -/
theorem finished_install_getElem? {pak : Archive} {offsets : List UInt32} (pos k : ℕ)
    (hlen : offsets.length = pak.entries.length) :
    (finished (pak_rebuild_install pak offsets pos)).entries[k]? = none ∧
        pak.entries[k]? = none ∨
      ∃ e o, pak.entries[k]? = some e ∧ offsets[k]? = some o ∧
        (finished (pak_rebuild_install pak offsets pos)).entries[k]? =
          some { e with offset := o, pending_source := none, pending_data := none } := by
  simp only [finished, drop_pending, pak_rebuild_install, List.getElem?_map,
    List.getElem?_zipWith]
  by_cases hk : k < pak.entries.length
  · right
    refine ⟨_, _, List.getElem?_eq_getElem hk, List.getElem?_eq_getElem (by omega), ?_⟩
    rw [List.getElem?_eq_getElem hk, List.getElem?_eq_getElem (by omega)]
    rfl
  · left
    rw [List.getElem?_eq_none (Nat.not_lt.mp hk)]
    exact ⟨rfl, rfl⟩

/-- **The state after the copy**: every entry is on disk, and before the new `payload_end`. -/
theorem PakState.finished_install {n : ℕ} {env : Env} {disk acc : Bytes} {pak : Archive}
    {geom : Geometry} {offsets : List UInt32} (h : PakState n pak geom)
    (hlen : offsets.length = pak.entries.length)
    (hplaced : AllPlaced env disk acc pak.entries offsets) :
    PakState (PAKFILE_HEADER_SIZE + acc.length)
      (finished (pak_rebuild_install pak offsets (PAKFILE_HEADER_SIZE + acc.length))) geom := by
  generalize hp : PAKFILE_HEADER_SIZE + acc.length = pos
  have hcount : (finished (pak_rebuild_install pak offsets pos)).entries.length =
      pak.entries.length := by
    simp [finished, drop_pending, pak_rebuild_install, hlen]
  have hnames : (finished (pak_rebuild_install pak offsets pos)).entries.map Entry.filename =
      pak.entries.map Entry.filename := by
    refine List.ext_getElem? fun k => ?_
    rw [List.getElem?_map, List.getElem?_map]
    rcases finished_install_getElem? pos k hlen with ⟨h1, h2⟩ | ⟨e, o, h1, -, h3⟩
    · rw [h1, h2]
    · rw [h1, h3]
      rfl
  have hmem : ∀ x ∈ (finished (pak_rebuild_install pak offsets pos)).entries,
      ∃ (k : ℕ) (e : Entry) (o : UInt32), pak.entries[k]? = some e ∧ offsets[k]? = some o ∧
        x = { e with offset := o, pending_source := none, pending_data := none } := by
    intro x hx
    obtain ⟨k, hk⟩ := List.mem_iff_getElem?.mp hx
    rcases finished_install_getElem? pos k hlen with ⟨h1, -⟩ | ⟨e, o, h1, h2, h3⟩
    · rw [h1] at hk
      cases hk
    · exact ⟨k, e, o, h1, h2, (Option.some.inj (h3.symm.trans hk)).symm⟩
  refine ⟨h.geometry, h.signature, ?_, ?_, ?_, ?_, fun hw => ?_, fun x hx => ?_, fun x hx hs => ?_⟩
  · rw [lastIndex, hcount]
    rfl
  · rw [hcount]
    exact h.count
  · change _ ≤ pos
    omega
  · exact Nat.le_refl _
  · rw [hnames]
    exact h.nodup hw
  · obtain ⟨k, e, o, he, ho, rfl⟩ := hmem x hx
    have hok := h.entries e (List.mem_of_getElem? he)
    obtain ⟨⟨j, hj, hjl, -⟩, hext⟩ := hplaced k o e ho he
    refine ⟨hok.name_fits, hok.plain, Or.inl rfl, fun _ hd => (by cases hd),
      fun hx => (by cases hx), fun _ => Or.inl ?_, fun _ => ?_⟩
    · change _ ≤ o.toNat
      omega
    · change o.toNat + (pak_entry_on_disk_extent e).toNat ≤ pos
      omega
  · obtain ⟨k, e, o, -, -, rfl⟩ := hmem x hx
    cases hs

/-- Where a payload was placed, the published file has it. -/
theorem Placed.in_file {acc : Bytes} {o : UInt32} {stored disk' : Bytes} (h : Placed acc o stored)
    (hsame : SameBetween PAKFILE_HEADER_SIZE (PAKFILE_HEADER_SIZE + acc.length)
      (overwrite [] PAKFILE_HEADER_SIZE acc) disk') :
    slice disk' o.toNat stored.length = stored := by
  obtain ⟨k, hk, hlen, hs⟩ := h
  by_cases h0 : stored = []
  · rw [h0]
    exact slice_zero_len _ _
  have hne : acc ≠ [] := by
    rintro rfl
    rw [List.length_nil] at hlen
    exact h0 (List.length_eq_zero_iff.mp (by omega))
  have hc : (overwrite [] PAKFILE_HEADER_SIZE acc).length = PAKFILE_HEADER_SIZE + acc.length := by
    rw [length_overwrite, if_neg hne, List.length_nil]
    omega
  rw [hsame.2 _ _ (by omega) (by omega) (by omega), hk, ← slice_slice hlen, slice_overwrite_self]
  exact hs

/-- What a rebuild writes: the payloads in `acc`, where `offsets` say, and behind them the
directory of the handle with these offsets. -/
theorem pak_rebuild_work_writes {env : Env} {disk : Bytes} {pak done : Archive} {geom : Geometry}
    (h : PakState disk.length pak geom)
    (hc : (pak_rebuild_work env disk pak).res = .ok done) :
    ∃ offsets acc, (pak_rebuild_scratch env disk pak).res =
        .ok (offsets, PAKFILE_HEADER_SIZE + acc.length) ∧
      offsets.length = pak.entries.length ∧ AllPlaced env disk acc pak.entries offsets ∧
      let installed := pak_rebuild_install pak offsets (PAKFILE_HEADER_SIZE + acc.length)
      done = with_directory installed geom ∧
        (installed.entries ≠ [] →
          installed.payload_end + installed.num_entries.toNat * geom.dir_entry_size ≤ UINT32_MAX) ∧
        ∀ fs, FileOp.run fs (pak_rebuild_work env disk pak).log .scratch =
          some (pak_file installed geom (overwrite [] PAKFILE_HEADER_SIZE acc)) := by
  simp only [pak_rebuild_work, bind_res_ok, mapError_res_ok, onError_res, call_res_ok,
    exists_const, pure_res, Except.ok.injEq] at hc
  obtain ⟨⟨offsets, pos⟩, hscr, done, hdir, hclose, rfl⟩ := hc
  obtain ⟨acc, rfl, hlen, hplaced, hfile⟩ := pak_rebuild_scratch_ok h.entries hscr
  have hstate := h.finished_install hlen hplaced
  generalize hpos : PAKFILE_HEADER_SIZE + acc.length = pos at *
  have hname : ∀ e ∈ (pak_rebuild_install pak offsets pos).entries,
      e.filename.strlen ≤ geom.name_field_len := by
    intro e he
    obtain ⟨k, hk⟩ := List.mem_iff_getElem?.mp he
    have hx : (finished (pak_rebuild_install pak offsets pos)).entries[k]? =
        some { e with pending_source := none, pending_data := none } := by
      simp only [finished, drop_pending, List.getElem?_map, hk]
      rfl
    exact (hstate.entries _ (List.mem_of_getElem? hx)).name_fits
  have hg : pakka_pak_geometry (pak_rebuild_install pak offsets pos).format = some geom :=
    h.geometry
  obtain ⟨rfl, hfit, hlog⟩ := write_pak_directory_ok hg hname hdir
  refine ⟨offsets, acc, by rw [hpos]; exact hscr, hlen, hplaced, ?_⟩
  rw [hpos]
  refine ⟨rfl, hfit, fun fs => ?_⟩
  -- the scratch file at its close
  have hdirres : ((write_pak_directory env .scratch (pak_rebuild_install pak offsets pos)).mapError
      fun err => (err.1, pak_rebuild_rollback pak err.2)).res =
        .ok (with_directory (pak_rebuild_install pak offsets pos) geom) := mapError_res_ok.mpr hdir
  have hcloseres : (call env.faults .close_scratch (Status.io, pak_rebuild_rollback pak
      (with_directory (pak_rebuild_install pak offsets pos) geom)) : HandleOp Unit).res = .ok () :=
    (call_res_ok _ _ _ ()).mpr hclose
  have hlogs : (pak_rebuild_work env disk pak).log = (pak_rebuild_scratch env disk pak).log ++
      (write_pak_directory env .scratch (pak_rebuild_install pak offsets pos)).log := by
    unfold pak_rebuild_work
    rw [bind_log_of_ok (mapError_res_ok.mpr hscr), mapError_log]
    simp only
    rw [bind_log_of_ok (by rw [onError_res]; exact hdirres), onError_log_of_ok hdirres, mapError_log,
      bind_log_of_ok (by rw [onError_res]; exact hcloseres), onError_log_of_ok hcloseres, call_log]
    simp
  rw [hlogs, FileOp.run_append]
  exact hlog _ _ (hfile fs)

/-- What the work on the scratch file leaves: the new handle, and the file that is to be
renamed. -/
structure PakRebuilt (env : Env) (disk : Bytes) (pak : Archive) (scratch : Bytes)
    (done : Archive) (geom : Geometry) : Prop where
  log : ∀ fs, FileOp.run fs (pak_rebuild_work env disk pak).log .scratch = some scratch
  committed : PakCommitted env disk pak scratch (finished done) geom
  dirty : done.dirty = pak.dirty

/-- **The work of a rebuild**, when it succeeds. -/
theorem pak_rebuild_work_ok {env : Env} {disk : Bytes} {pak done : Archive} {geom : Geometry}
    (h : PakState disk.length pak geom)
    (hc : (pak_rebuild_work env disk pak).res = .ok done) :
    ∃ scratch, PakRebuilt env disk pak scratch done geom := by
  obtain ⟨offsets, acc, -, hlen, hplaced, rfl, hfit, hlog⟩ := pak_rebuild_work_writes h hc
  have hstate := h.finished_install hlen hplaced
  generalize hpos : PAKFILE_HEADER_SIZE + acc.length = pos at *
  have hsig : (pak_rebuild_install pak offsets pos).signature.length = 4 := by
    change pak.signature.length = 4
    rw [h.signature, geometry_signature_length h.geometry]
  have hsame := sameBetween_pak_file geom (overwrite [] PAKFILE_HEADER_SIZE acc) hsig
  have heq : finished (with_directory (pak_rebuild_install pak offsets pos) geom) =
      with_directory (finished (pak_rebuild_install pak offsets pos)) geom :=
    (with_directory_finished _ _).symm
  -- what was staged is on disk now, in the new file
  have hondisk : ∀ e ∈ (finished (pak_rebuild_install pak offsets pos)).entries,
      e.staged = false := by
    intro e he
    obtain ⟨x, -, rfl⟩ := List.mem_map.mp he
    rfl
  refine ⟨pak_file (pak_rebuild_install pak offsets pos) geom
    (overwrite [] PAKFILE_HEADER_SIZE acc), hlog, ?_, rfl⟩
  rw [heq]
  have hlong := payload_end_le_pak_file hstate (overwrite [] PAKFILE_HEADER_SIZE acc) (by
    by_cases hacc : acc = []
    · right
      intro _
      change pos = _
      rw [← hpos, hacc, List.length_nil, Nat.add_zero]
    · left
      change pos ≤ _
      rw [length_overwrite, if_neg hacc, ← hpos]
      omega)
  rw [pak_file_finished] at hlong
  refine ⟨?_, fun hmax => ?_, fun sources => ?_, hondisk, rfl, rfl, rfl, rfl⟩
  · exact (PakState.mono hstate hlong).with_directory
  · have hp := pak_file_published hstate hondisk hmax (fun hne => hfit ?_)
      (overwrite [] PAKFILE_HEADER_SIZE acc)
    · rw [pak_file_finished] at hp
      exact hp
    · intro hn
      exact hne (by simp only [finished, hn, drop_pending, List.map_nil])
  -- the listing, entry by entry: what was placed is what the old item says
  · refine List.ext_getElem? fun k => ?_
    simp only [pak_listing, List.getElem?_mapIdx]
    change Option.map _ (finished (pak_rebuild_install pak offsets pos)).entries[k]? = _
    rcases finished_install_getElem? pos k hlen with ⟨h1, h2⟩ | ⟨e, o, h1, h2, h3⟩
    · rw [h1, h2]
      rfl
    · rw [h1, h3]
      simp only [Option.map_some, Option.some.injEq, Prod.mk.injEq, true_and]
      obtain ⟨hpl, hext⟩ := hplaced k o e h2 h1
      have hend : (pak_rebuild_install pak offsets pos).payload_end =
          PAKFILE_HEADER_SIZE + acc.length := hpos.symm
      rw [hend] at hsame
      have hin := hpl.in_file hsame
      rw [hext] at hin
      simp only [pak_item, ← hin]
      rfl

theorem publish_scratch_ok {env : Env} {restored : Archive} {u : Unit}
    (h : (publish_scratch env restored).res = .ok u) :
    (publish_scratch env restored).log = [.rename .scratch .live] := by
  unfold publish_scratch at h ⊢
  split_ifs at h ⊢ with hr
  rfl

/-- The live file after the rename of a finished scratch file. -/
theorem run_publish {fs : Files FileId} {work : List (FileOp FileId)} {scratch : Bytes}
    (h : FileOp.run fs work .scratch = some scratch) :
    FileOp.run fs (work ++ [.rename .scratch .live]) .live = some scratch := by
  rw [FileOp.run_append]
  simp only [FileOp.run, List.foldl_cons, List.foldl_nil, FileOp.apply]
  rw [Function.update_of_ne (by simp), Function.update_self]
  exact h

/-- A rebuild that succeeds is its work and the rename. -/
theorem pakka_commit_rebuild_work {env : Env} {disk : Bytes} {pak pak' : Archive}
    (hc : (pakka_commit_rebuild env disk pak).res = .ok pak') :
    ∃ done, (pak_rebuild_work env disk pak).res = .ok done ∧ pak' = finished done ∧
      (pakka_commit_rebuild env disk pak).log =
        (pak_rebuild_work env disk pak).log ++ [.rename .scratch .live] := by
  simp only [pakka_commit_rebuild, pak_rebuild_publish, bind_res_ok, call_res_ok, exists_const,
    pure_res, Except.ok.injEq] at hc
  obtain ⟨_, ⟨done, hwork, u, hpub, rfl⟩, hreopen, rfl⟩ := hc
  refine ⟨done, hwork, rfl, ?_⟩
  have hpublish : (pak_rebuild_publish env disk pak).res = .ok done := by
    simp only [pak_rebuild_publish, bind_res_ok, pure_res, Except.ok.injEq]
    exact ⟨done, hwork, u, hpub, rfl⟩
  unfold pakka_commit_rebuild
  rw [bind_log_of_ok hpublish, bind_log_of_ok ((call_res_ok _ _ _ ()).mpr hreopen), call_log,
    pure_log, List.nil_append, List.append_nil]
  unfold pak_rebuild_publish
  rw [bind_log_of_ok hwork, bind_log_of_ok hpub, publish_scratch_ok hpub, pure_log,
    List.append_nil]

/-- **The rebuild**, when it succeeds. -/
theorem pakka_commit_rebuild_ok {env : Env} {disk : Bytes} {pak pak' : Archive} {geom : Geometry}
    (h : PakState disk.length pak geom)
    (hc : (pakka_commit_rebuild env disk pak).res = .ok pak') :
    ∃ disk', (∀ fs, FileOp.run fs (pakka_commit_rebuild env disk pak).log .live = some disk') ∧
      PakCommitted env disk pak disk' pak' geom := by
  obtain ⟨done, hwork, rfl, hlog⟩ := pakka_commit_rebuild_work hc
  obtain ⟨disk', hs⟩ := pak_rebuild_work_ok h hwork
  refine ⟨disk', fun fs => ?_, hs.committed⟩
  rw [hlog]
  exact run_publish (hs.log fs)

/-- **A commit that succeeds** on a dirty PAK-class handle. -/
theorem pak_commit_ok {env : Env} {disk : Bytes} {pak pak' : Archive} {geom : Geometry}
    (h : PakState disk.length pak geom) (hdirty : pak.dirty = true)
    (hc : (pakka_commit env disk pak).res = .ok pak') :
    ∃ disk', (∀ fs, fs .live = some disk →
        FileOp.run fs (pakka_commit env disk pak).log .live = some disk') ∧
      PakCommitted env disk pak disk' pak' geom := by
  unfold pakka_commit at hc ⊢
  rw [if_neg (by simp [hdirty])] at hc ⊢
  by_cases hw : ¬ pak.writable ∨ ¬ pak.fp
  · rw [if_pos hw] at hc
    cases hc
  rw [if_neg hw, not_zip_of_geometry h.geometry, if_neg (by simp)] at hc ⊢
  have hfp : pak.fp = true := by
    by_contra hne
    exact hw (Or.inr hne)
  by_cases hp : ¬ pak.needs_rebuild ∧ ¬ pak.atomic_commit
  · rw [if_pos hp] at hc ⊢
    exact pakka_commit_in_place_ok h (by simpa using hp.1) hfp hc
  · rw [if_neg hp] at hc ⊢
    obtain ⟨disk', hrun, hdone⟩ := pakka_commit_rebuild_ok h hc
    exact ⟨disk', fun fs _ => hrun fs, hdone⟩

end Pakka
