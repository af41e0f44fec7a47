/-
What the extraction preflight guarantees, and where it parts from `pakka_verify`.

The preflight compares target names, in which bytes that are no UTF-8 have become underscores;
`pakka_verify` compares the raw names. Safety is a matter of raw names in both. So the two agree
except on names that only the underscores make collide.

Both comparisons are of neighbours in a sorted list, and both are shown to find a repeated name
exactly when there is one. Verification also reads the payloads; an archive that opened has them
within the file, so for that part it is enough that they can be read.
-/
import Pakka.Extract
import Pakka.VerifySound
import Pakka.ZipLoaderInvariant

set_option autoImplicit false

namespace Pakka

open ByteImage

/-! ## Opened archives

What the results take an archive to be: any handle that some open gave.
-/

/-- What extraction and verification rely on in a handle they are given. -/
structure Listing (pak : Archive) : Prop where
  live : pak.fp = true
  count : pak.num_entries.toNat = pak.entries.length
  fits : ∀ e ∈ pak.entries, e.filename.strlen < PAKKA_ENTRY_NAME_SIZE
  on_disk : ∀ e ∈ pak.entries, e.staged = false

theorem open_listing {path : CStr} {mode : OpenMode} {hint : Format} {disk : Bytes}
    {pak : Archive} (hopen : pakka_open_ex path mode hint (some disk) = .ok pak) : Listing pak := by
  by_cases hzip : pakka_format_is_zip pak.format = true
  · obtain ⟨h, cdr, l, es, hd, rfl⟩ := open_zip_directory hopen hzip
    exact ⟨rfl, hd.count, fun e he => (hd.opened_entry e he).name.fits,
      fun e he => (hd.opened_entry e he).not_staged⟩
  · have hcls : IsPakClass pak.format := by
      rcases open_format_class hopen with hz | ⟨geom, hg⟩
      · exact absurd hz hzip
      · exact Option.isSome_iff_exists.mpr ⟨geom, hg⟩
    have hf := open_pak_fresh hcls hopen
    exact ⟨hf.live, hf.invariant.count.symm, fun e he => (hf.invariant.nul_terminated e he).1,
      hf.on_disk⟩

/-! ## The preflight

What a selection that passes has: safe targets, pairwise different under the normal form.
-/

theorem first_adjacent_eq_none {names : List Bytes} :
    first_adjacent names = none ↔ adjacent_equal names = false := by
  induction names with
  | nil => exact iff_of_true rfl rfl
  | cons a rest ih =>
    cases rest with
    | nil => exact iff_of_true rfl rfl
    | cons b rest =>
      rw [first_adjacent, adjacent_equal, Bool.or_eq_false_iff, decide_eq_false_iff_not, ← ih]
      split_ifs with hab
      · simp [hab]
      · simp [hab]

/-- **The collision check** finds nothing when no two of the normalised targets are equal. -/
theorem extract_collision_eq_none {chosen : List Entry} :
    extract_collision chosen = none ↔ (chosen.map fun e => extract_norm e.filename).Nodup := by
  unfold extract_collision
  split_ifs with hmany
  · rw [first_adjacent_eq_none]
    exact has_duplicate_name_eq_false
  · refine iff_of_true rfl ?_
    match chosen, hmany with
    | [], _ => exact List.nodup_nil
    | [e], _ => exact List.nodup_singleton _
    | _ :: _ :: _, hmany => exact absurd (by simp) hmany

/-- The entries chosen are some of the list, in order, all under safe names. -/
theorem select_entries_ok {wad : Bool} {paths : List CStr} (es : List Entry)
    {path_matched path_matched' : List Bool} {chosen : List Entry}
    (h : select_entries wad paths es path_matched = .ok (chosen, path_matched')) :
    chosen.Sublist es ∧ ∀ e ∈ chosen, pakka_unsafe_entry_name e.filename = false := by
  induction es generalizing path_matched chosen path_matched' with
  | nil =>
    obtain ⟨rfl, -⟩ := Prod.mk.inj (Except.ok.inj h)
    exact ⟨.slnil, by simp⟩
  | cons e es ih =>
    rw [select_entries] at h
    generalize (if paths.isEmpty = true then (true, path_matched)
      else match_paths wad e.filename paths path_matched) = m at h
    by_cases hm : ¬ m.1 = true
    · rw [if_pos hm] at h
      obtain ⟨hsub, hsafe⟩ := ih h
      exact ⟨hsub.cons e, hsafe⟩
    rw [if_neg hm] at h
    by_cases hu : pakka_unsafe_entry_name e.filename = true
    · rw [if_pos hu] at h
      cases h
    rw [if_neg hu] at h
    split at h
    · cases h
    · rename_i chosen₁ matched₁ hrest
      obtain ⟨rfl, -⟩ := Prod.mk.inj (Except.ok.inj h)
      obtain ⟨hsub, hsafe⟩ := ih hrest
      refine ⟨hsub.cons_cons e, ?_⟩
      intro x hx
      rcases List.mem_cons.mp hx with rfl | hx
      · simpa using hu
      · exact hsafe x hx

/-- **What passes the preflight**: a part of the list, under safe names that stay apart when
normalised. -/
theorem op_extract_preflight_ok {pak : Archive} {paths : List CStr} {chosen : List Entry}
    (h : op_extract_preflight pak paths = .ok chosen) :
    chosen.Sublist pak.entries ∧
      (∀ e ∈ chosen, pakka_unsafe_entry_name e.filename = false) ∧
        (chosen.map fun e => extract_norm e.filename).Nodup := by
  unfold op_extract_preflight at h
  split_ifs at h
  · split at h
    · obtain rfl := Except.ok.inj h
      exact ⟨List.nil_sublist _, by simp, List.nodup_nil⟩
    · cases h
  · split at h
    · cases h
    · rename_i chosen₁ matched hsel
      split at h
      · cases h
      · split at h
        · cases h
        · rename_i hcol
          obtain rfl := Except.ok.inj h
          obtain ⟨hsub, hsafe⟩ := select_entries_ok pak.entries hsel
          exact ⟨hsub, hsafe, extract_collision_eq_none.mp hcol⟩

/-- The normalised target of a safe name. -/
theorem extract_norm_safe {name : CStr} (hfits : name.strlen < PAKKA_ENTRY_NAME_SIZE)
    (hsafe : pakka_unsafe_entry_name name = false) :
    extract_norm name = (extract_name name).bytes.map fold_byte :=
  pakka_normalize_entry_name_safe (unsafe_underscored (extract_name_underscored hfits) hsafe)

/-- Every target is a safe name. -/
theorem op_extract_safe_targets {pak : Archive} {paths : List CStr} {chosen : List Entry}
    (hl : Listing pak) (h : op_extract_preflight pak paths = .ok chosen) :
    ∀ e ∈ chosen, pakka_unsafe_entry_name (extract_name e.filename) = false := by
  obtain ⟨hsub, hsafe, -⟩ := op_extract_preflight_ok h
  intro e he
  exact unsafe_underscored (extract_name_underscored (hl.fits e (hsub.subset he))) (hsafe e he)

/-- **Distinct, safe targets.** Whatever archive and selection reach the write pass, the target
names stay apart even for a filesystem that ignores case, takes both separators and strips trailing
dots and spaces of every component; and each is itself a safe name. -/
theorem op_extract_targets_distinct (path : CStr) (mode : OpenMode) (hint : Format) (disk : Bytes)
    (pak : Archive) (paths : List CStr) (chosen : List Entry)
    (hopen : pakka_open_ex path mode hint (some disk) = .ok pak)
    (h : op_extract_preflight pak paths = .ok chosen) :
    (chosen.map fun e => portable_form (extract_name e.filename).bytes).Nodup ∧
      ∀ e ∈ chosen, pakka_unsafe_entry_name (extract_name e.filename) = false := by
  obtain ⟨hsub, hsafe, hnodup⟩ := op_extract_preflight_ok h
  have hfits : ∀ e ∈ chosen, e.filename.strlen < PAKKA_ENTRY_NAME_SIZE :=
    fun e he => (open_listing hopen).fits e (hsub.subset he)
  have htarget := op_extract_safe_targets (open_listing hopen) h
  refine ⟨?_, htarget⟩
  rw [List.Nodup, List.pairwise_map] at hnodup ⊢
  refine hnodup.imp_of_mem ?_
  intro a b ha hb hne hform
  apply hne
  rw [extract_norm_safe (hfits a ha) (hsafe a ha), extract_norm_safe (hfits b hb) (hsafe b hb)]
  exact map_fold_eq_of_portable_form (htarget a ha) (htarget b hb) hform

/-- A PAK file of two entries of no bytes. -/
def two_entry_pak (a b : Bytes) : Bytes :=
  ascii "PACK" ++ [12, 0, 0, 0, 128, 0, 0, 0] ++
    (a ++ List.replicate (56 - a.length) 0 ++ [12, 0, 0, 0, 0, 0, 0, 0]) ++
    (b ++ List.replicate (56 - b.length) 0 ++ [12, 0, 0, 0, 0, 0, 0, 0])

/-- The handle it opens as under an `auto` hint. -/
def two_entry_handle (a b : Bytes) : Archive :=
  { opened_pak .read .pak ⟨[0x50, 0x41, 0x43, 0x4B], 56, 64, false⟩ (two_entry_pak a b) 12 128 with
    format_hint := .auto }

/-- The guarantee at two names, one of which is not UTF-8. -/
theorem op_extract_targets_distinct_two :
    ((two_entry_handle (ascii "a") [0x80]).entries.map fun e =>
        portable_form (extract_name e.filename).bytes).Nodup ∧
      ∀ e ∈ (two_entry_handle (ascii "a") [0x80]).entries,
        pakka_unsafe_entry_name (extract_name e.filename) = false :=
  op_extract_targets_distinct CStr.empty .read .auto (two_entry_pak (ascii "a") [0x80])
    (two_entry_handle (ascii "a") [0x80]) [] _ (by decide +kernel) (by decide +kernel)

/-! ## Verifying

The same for `pakka_verify`: it succeeds if the payloads can be read and the normalised raw names
are pairwise different.
-/

/-- The payload of an entry can be streamed, and decoded where that is asked for. -/
def PayloadReadable (df : Deflate) (disk : Bytes) (pak : Archive) (deep : Bool) (e : Entry) :
    Prop :=
  ((verify_extent pak.format e).2 = 0 ∧ e.length = 0) ∨
    (verify_stream disk (verify_extent pak.format e).1.toNat
        (verify_extent pak.format e).2.toNat = true ∧
      (deep = true → deep_verify_entry df disk pak e = .ok ()))

/-- With a readable payload, the name decides. -/
theorem verify_entry_readable {df : Deflate} {disk : Bytes} {pak : Archive} {deep : Bool}
    {e : Entry} (h : PayloadReadable df disk pak deep e) :
    verify_entry df disk pak deep e =
      if pakka_unsafe_entry_name e.filename = true then ⟨.error, .unsafe_name, e.filename⟩
      else ⟨.info, .ok, e.filename⟩ := by
  unfold verify_entry
  by_cases hu : pakka_unsafe_entry_name e.filename = true
  · simp [hu]
  by_cases hs : e.staged = true
  · simp [hu, hs]
  rcases h with hempty | ⟨hstream, hdeep⟩
  · simp [hu, hs, hempty]
  by_cases hz : (verify_extent pak.format e).2 = 0 ∧ e.length = 0
  · simp [hu, hs, hz]
  cases deep with
  | false => simp [hu, hs, hz, hstream]
  | true => simp [hu, hs, hz, hstream, hdeep rfl]

/-- The scan reports an error when, off WAD, two records agree. -/
theorem verify_collisions_clean {format : Format} (hwad : pakka_format_is_wad format = false)
    {rs : List CollisionRecord} :
    (∀ f ∈ verify_collisions format rs, f.severity ≠ .error) ↔
      adjacent_equal (rs.map CollisionRecord.norm) = false := by
  induction rs with
  | nil => simp [verify_collisions, adjacent_equal]
  | cons a rs ih =>
    cases rs with
    | nil => simp [verify_collisions, adjacent_equal]
    | cons b rest =>
      have hadj : adjacent_equal (((a :: b :: rest).map CollisionRecord.norm)) =
          (decide (a.norm = b.norm) || adjacent_equal ((b :: rest).map CollisionRecord.norm)) := rfl
      rw [verify_collisions, List.forall_mem_append, ih, hadj, Bool.or_eq_false_iff,
        decide_eq_false_iff_not]
      refine and_congr_left fun _ => ?_
      by_cases hab : a.norm = b.norm
      · rw [if_pos hab]
        simp [hab, hwad]
      · rw [if_neg hab]
        simp [hab]

theorem first_error_of_clean {fs : List Finding} (h : ∀ f ∈ fs, f.severity ≠ .error) :
    first_error fs = .ok := by
  induction fs with
  | nil => rfl
  | cons f fs ih =>
    rw [first_error, if_neg (h f List.mem_cons_self)]
    exact ih fun g hg => h g (List.mem_cons_of_mem _ hg)

/-- The normalised names `pakka_verify` compares. -/
def verify_norms (pak : Archive) : List Bytes :=
  pak.entries.map fun e => (verify_collision_record e).norm

instance : Std.Total (fun a b : CollisionRecord => strcmp_le a.norm b.norm = true) :=
  ⟨fun a b => strcmp_le_total a.norm b.norm⟩

instance : IsTrans CollisionRecord (fun a b => strcmp_le a.norm b.norm = true) :=
  ⟨fun _ _ _ h1 h2 => strcmp_le_trans h1 h2⟩

/-- Sorting the records sorts their names. -/
theorem sorted_norms_clean (rs : List CollisionRecord) :
    adjacent_equal ((rs.insertionSort fun a b => strcmp_le a.norm b.norm = true).map
      CollisionRecord.norm) = false ↔ (rs.map CollisionRecord.norm).Nodup := by
  have hsorted := List.pairwise_insertionSort
    (fun a b : CollisionRecord => strcmp_le a.norm b.norm = true) rs
  rw [adjacent_equal_of_sorted (List.pairwise_map.mpr hsorted),
    ((List.perm_insertionSort _ rs).map CollisionRecord.norm).nodup_iff]

/-- **A verify of readable payloads**, off WAD, is about names: it is clean when all are safe and
stay apart when normalised. -/
theorem pakka_verify_readable {df : Deflate} {disk : Bytes} {pak : Archive} {flags : UInt32}
    (hlive : pak.fp = true) (hwad : pakka_format_is_wad pak.format = false)
    (hflags : flags &&& ~~~PAKKA_VERIFY_DEEP = 0)
    (hread : ∀ e ∈ pak.entries,
      PayloadReadable df disk pak (flags &&& PAKKA_VERIFY_DEEP ≠ 0) e) :
    (pakka_verify df disk pak flags).1 = .ok ↔
      (∀ e ∈ pak.entries, pakka_unsafe_entry_name e.filename = false) ∧
        (verify_norms pak).Nodup := by
  have hclean : (pakka_verify df disk pak flags).1 = .ok ↔
      ∀ f ∈ verify_findings df disk pak (flags &&& PAKKA_VERIFY_DEEP ≠ 0), f.severity ≠ .error := by
    unfold pakka_verify
    rw [if_neg (by simpa using hflags), if_neg (by simpa using hlive)]
    refine ⟨first_error_eq_ok ?_, first_error_of_clean⟩
    intro f hf hsev
    rcases List.mem_append.mp hf with hf | hf
    · obtain ⟨e, he, rfl⟩ := List.mem_map.mp hf
      rw [verify_entry_readable (hread e he)] at hsev ⊢
      split_ifs at hsev ⊢
      simp
    · rw [verify_collisions_status f hf]
      simp
  rw [hclean, verify_findings, List.forall_mem_append, verify_collisions_clean hwad,
    sorted_norms_clean, List.map_map]
  refine and_congr ?_ Iff.rfl
  simp only [List.forall_mem_map]
  refine forall₂_congr fun e he => ?_
  rw [verify_entry_readable (hread e he)]
  split_ifs with hu
  · simp [hu]
  · simp [hu]

/-! ## Where they agree

Equal raw names under the normal form give equal targets. The converse fails exactly when
underscores make two names equal.
-/

/-- Without path arguments all entries are chosen, if their names are safe. -/
theorem select_all_safe {wad : Bool} {es : List Entry}
    (h : ∀ e ∈ es, pakka_unsafe_entry_name e.filename = false) :
    select_entries wad [] es [] = .ok (es, []) := by
  induction es with
  | nil => rfl
  | cons e es ih =>
    rw [List.forall_mem_cons] at h
    rw [select_entries]
    simp only [List.isEmpty_nil, if_true, not_true_eq_false, if_false, h.1, Bool.false_eq_true]
    rw [ih h.2]

/-- One name that is not safe is enough to refuse. -/
theorem select_all_unsafe (wad : Bool) {es : List Entry}
    (h : ∃ e ∈ es, pakka_unsafe_entry_name e.filename = true) :
    ∃ x, select_entries wad [] es [] = .error x := by
  induction es with
  | nil => simp at h
  | cons e es ih =>
    rw [select_entries]
    simp only [List.isEmpty_nil, if_true, not_true_eq_false, if_false]
    by_cases hu : pakka_unsafe_entry_name e.filename = true
    · rw [if_pos hu]
      exact ⟨_, rfl⟩
    · rw [if_neg hu]
      obtain ⟨x, hx⟩ := ih (by simpa [hu] using h)
      exact ⟨x, by rw [hx]⟩

/-- **The preflight of all entries** passes when all names are safe and their normalised targets
stay apart. -/
theorem op_extract_preflight_all {pak : Archive}
    (hcount : pak.num_entries.toNat = pak.entries.length) :
    (∃ chosen, op_extract_preflight pak [] = .ok chosen) ↔
      (∀ e ∈ pak.entries, pakka_unsafe_entry_name e.filename = false) ∧
        (pak.entries.map fun e => extract_norm e.filename).Nodup := by
  unfold op_extract_preflight
  by_cases hzero : pak.num_entries = 0
  · rw [hzero] at hcount
    rw [if_pos hzero, List.length_eq_zero_iff.mp hcount.symm]
    simp
  rw [if_neg hzero, List.length_nil, List.replicate_zero]
  by_cases hsafe : ∀ e ∈ pak.entries, pakka_unsafe_entry_name e.filename = false
  · rw [select_all_safe hsafe]
    simp only [unmatched_path]
    rw [← extract_collision_eq_none]
    cases extract_collision pak.entries with
    | none => simpa using hsafe
    | some norm => simp
  · obtain ⟨x, hx⟩ := select_all_unsafe (pakka_format_is_wad pak.format)
      (by simpa using hsafe)
    rw [hx]
    simp [hsafe]

/-- Folding the raw names keeps apart no more than folding the targets. -/
theorem verify_norms_nodup {pak : Archive}
    (hfits : ∀ e ∈ pak.entries, e.filename.strlen < PAKKA_ENTRY_NAME_SIZE)
    (hsafe : ∀ e ∈ pak.entries, pakka_unsafe_entry_name e.filename = false)
    (h : (pak.entries.map fun e => extract_norm e.filename).Nodup) : (verify_norms pak).Nodup := by
  rw [verify_norms]
  rw [List.Nodup, List.pairwise_map] at h ⊢
  refine h.imp_of_mem ?_
  intro a b ha hb hne hraw
  apply hne
  simp only [verify_collision_record] at hraw
  rw [pakka_normalize_entry_name_safe (hsafe a ha),
    pakka_normalize_entry_name_safe (hsafe b hb)] at hraw
  rw [extract_norm_safe (hfits a ha) (hsafe a ha), extract_norm_safe (hfits b hb) (hsafe b hb)]
  exact extract_name_fold (hfits a ha) (hfits b hb) hraw

/-- **Where verify and extract agree.** Of an archive with readable payloads, other than a WAD, a
verify is clean exactly when the preflight of all entries passes, if and only if some name is not
safe, or two names agree when normalised as they are, or no two agree when normalised with
underscores for what is not UTF-8. -/
theorem verify_extract_agree_iff (df : Deflate) (path : CStr) (mode : OpenMode) (hint : Format)
    (disk : Bytes) (pak : Archive) (flags : UInt32)
    (hopen : pakka_open_ex path mode hint (some disk) = .ok pak)
    (hwad : pakka_format_is_wad pak.format = false)
    (hflags : flags &&& ~~~PAKKA_VERIFY_DEEP = 0)
    (hread : ∀ e ∈ pak.entries,
      PayloadReadable df disk pak (flags &&& PAKKA_VERIFY_DEEP ≠ 0) e) :
    ((pakka_verify df disk pak flags).1 = .ok ↔
        ∃ chosen, op_extract_preflight pak [] = .ok chosen) ↔
      (∃ e ∈ pak.entries, pakka_unsafe_entry_name e.filename = true) ∨
        ¬ (verify_norms pak).Nodup ∨
          (pak.entries.map fun e => extract_norm e.filename).Nodup := by
  have hl := open_listing hopen
  rw [pakka_verify_readable hl.live hwad hflags hread, op_extract_preflight_all hl.count]
  by_cases hsafe : ∀ e ∈ pak.entries, pakka_unsafe_entry_name e.filename = false
  · have hraw := verify_norms_nodup hl.fits hsafe
    have hnone : ¬ ∃ e ∈ pak.entries, pakka_unsafe_entry_name e.filename = true := by
      rintro ⟨e, he, hu⟩
      rw [hsafe e he] at hu
      cases hu
    simp only [and_iff_right hsafe, or_iff_right hnone]
    tauto
  · have hsome : ∃ e ∈ pak.entries, pakka_unsafe_entry_name e.filename = true := by
      simpa using hsafe
    exact iff_of_true (iff_of_false (fun h => hsafe h.1) (fun h => hsafe h.1)) (Or.inl hsome)

/-- At two names that stay apart either way, the two agree. -/
theorem verify_extract_agree_two :
    (pakka_verify .storing (two_entry_pak (ascii "a") [0x80])
        (two_entry_handle (ascii "a") [0x80]) 0).1 = .ok ↔
      ∃ chosen, op_extract_preflight (two_entry_handle (ascii "a") [0x80]) [] = .ok chosen :=
  (verify_extract_agree_iff .storing CStr.empty .read .auto (two_entry_pak (ascii "a") [0x80])
    (two_entry_handle (ascii "a") [0x80]) 0 (by decide +kernel) (by decide) (by decide)
    (fun e he => Or.inl (by revert e; decide +kernel))).mpr (by decide +kernel)

/-- Two names of one byte each that is no UTF-8: `pakka_verify` is clean, and extraction refuses
the archive. -/
theorem underscores_collide :
    pakka_open_ex CStr.empty .read .auto (some (two_entry_pak [0x80] [0x81])) =
        .ok (two_entry_handle [0x80] [0x81]) ∧
      pakka_format_is_wad (two_entry_handle [0x80] [0x81]).format = false ∧
      (∀ e ∈ (two_entry_handle [0x80] [0x81]).entries,
        PayloadReadable .storing (two_entry_pak [0x80] [0x81]) (two_entry_handle [0x80] [0x81])
          false e) ∧
      (pakka_verify .storing (two_entry_pak [0x80] [0x81]) (two_entry_handle [0x80] [0x81]) 0).1 =
        .ok ∧
      op_extract_preflight (two_entry_handle [0x80] [0x81]) [] = .error (.collision [0x5F]) := by
  refine ⟨by decide +kernel, by decide, ?_, by decide +kernel, by decide +kernel⟩
  intro e he
  left
  revert e
  decide +kernel

end Pakka
