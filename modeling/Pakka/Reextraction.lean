/-
Whether what was built can be extracted.

Adds, renames and copies take a name when it fits, is safe and is not listed yet. The preflight of
an extraction compares names as they come out: recoded where the archive does not say UTF-8, with
underscores for what is left, and folded. So an archive passes when no call gave an entry a name
that comes out as another entry's does, and the calls do not see to that.

The keys by which an extraction compares are computed from the name the loader reads, not from the
one that was given. So the condition on the calls is about these keys (`run_apart`), and the run
lemma carries it from the create to the published file, which is opened again and extracted.
-/
import Pakka.AtomicCommit
import Pakka.PakRefinement
import Pakka.ExtractPreflight

set_option autoImplicit false

namespace Pakka

open ByteImage Logged

/-! ## Recoding keeps a name safe

CP437 names come out longer, but ASCII stays as it is and nothing else becomes ASCII.
-/

/-- A name and what recoding makes of it: ASCII bytes are kept, any other become such bytes, and
more of these may be put in. -/
inductive Recoded : Bytes → Bytes → Prop where
  | nil : Recoded [] []
  | keep {c : UInt8} {a b : Bytes} (hc : c < 0x80) (h : Recoded a b) : Recoded (c :: a) (c :: b)
  | high {c d : UInt8} {a b : Bytes} (hc : ¬ c < 0x80) (hd : ¬ d < 0x80) (h : Recoded a b) :
      Recoded (c :: a) (d :: b)
  | more {d : UInt8} {a b : Bytes} (hd : ¬ d < 0x80) (h : Recoded a b) : Recoded a (d :: b)

namespace Recoded

theorem append {u a b : Bytes} (hu : ∀ d ∈ u, ¬ d < 0x80) (h : Recoded a b) :
    Recoded a (u ++ b) := by
  induction u with
  | nil => exact h
  | cons d u ih =>
    rw [List.forall_mem_cons] at hu
    exact .more hu.1 (ih hu.2)

theorem nil_left {a : Bytes} (h : Recoded a []) : a = [] := by
  cases h
  rfl

/-- The ASCII bytes are those of before. -/
theorem mem {a b : Bytes} (h : Recoded a b) {d : UInt8} (hd : d ∈ b) (hlow : d < 0x80) : d ∈ a := by
  induction h with
  | nil => exact hd
  | keep hc _ ih =>
    rcases List.mem_cons.mp hd with rfl | hd
    · exact List.mem_cons_self
    · exact List.mem_cons_of_mem _ (ih hd)
  | high hc hx _ ih =>
    rcases List.mem_cons.mp hd with rfl | hd
    · exact absurd hlow hx
    · exact List.mem_cons_of_mem _ (ih hd)
  | more hx _ ih =>
    rcases List.mem_cons.mp hd with rfl | hd
    · exact absurd hlow hx
    · exact ih hd

/-- What is ASCII all through was not recoded. -/
theorem eq_of_ascii {a b : Bytes} (h : Recoded a b) (hb : ∀ d ∈ b, d < 0x80) : b = a := by
  induction h with
  | nil => rfl
  | keep _ _ ih =>
    rw [List.forall_mem_cons] at hb
    rw [ih hb.2]
  | high _ hd _ _ => exact absurd (hb _ List.mem_cons_self) hd
  | more hd _ _ => exact absurd (hb _ List.mem_cons_self) hd

theorem getLast? {a b : Bytes} (h : Recoded a b) {x : UInt8} (hx : x < 0x80)
    (hlast : b.getLast? = some x) : a.getLast? = some x := by
  -- a last byte in front of something is the last byte of that
  have hcons : ∀ {c d : UInt8} {a b : Bytes}, Recoded a b → (b ≠ [] → b.getLast? = some x →
      a.getLast? = some x) → (b = [] → d = x → c = x) → (d :: b).getLast? = some x →
        (c :: a).getLast? = some x := by
    intro c d a b hab ih hsame hl
    rw [List.getLast?_cons] at hl ⊢
    by_cases hb : b = []
    · subst hb
      rw [hab.nil_left]
      exact congrArg some (hsame rfl (Option.some.inj hl))
    · rw [List.getLast?_eq_some_getLast hb] at hl
      rw [ih hb (by rw [List.getLast?_eq_some_getLast hb]; exact hl)]
      rfl
  induction h with
  | nil => exact hlast
  | keep _ hab ih => exact hcons hab (fun _ => ih) (fun _ hc => hc) hlast
  | high _ hd hab ih =>
    refine hcons hab (fun _ => ih) (fun _ hdx => ?_) hlast
    exact absurd (hdx ▸ hx) hd
  | @more d a b hd hab ih =>
    rw [List.getLast?_cons] at hlast
    by_cases hb : b = []
    · subst hb
      have hdx : d = x := Option.some.inj hlast
      exact absurd (hdx ▸ hx) hd
    · rw [List.getLast?_eq_some_getLast hb] at hlast
      exact ih (by rw [List.getLast?_eq_some_getLast hb]; exact hlast)

theorem takeWhile {a b : Bytes} (h : Recoded a b) {x : UInt8} (hx : x < 0x80) :
    Recoded (a.takeWhile (· ≠ x)) (b.takeWhile (· ≠ x)) := by
  induction h with
  | nil => exact .nil
  | keep hc _ ih =>
    simp only [List.takeWhile_cons, ne_eq]
    split_ifs
    · exact .keep hc ih
    · exact .nil
  | high hc hd _ ih =>
    simp only [List.takeWhile_cons, ne_eq, high_ne hc hx, high_ne hd hx, not_false_eq_true,
      decide_true, if_true]
    exact .high hc hd ih
  | more hd _ ih =>
    simp only [List.takeWhile_cons, ne_eq, high_ne hd hx, not_false_eq_true, decide_true, if_true]
    exact .more hd ih

theorem not_separator {d : UInt8} (hd : ¬ d < 0x80) : is_separator d = false := by
  simp [is_separator, high_ne hd (d := 0x2F) (by decide), high_ne hd (d := 0x5C) (by decide)]

/-- The components correspond. -/
theorem components {a b : Bytes} (h : Recoded a b) :
    List.Forall₂ Recoded (entry_components a) (entry_components b) := by
  induction h with
  | nil => exact .cons .nil .nil
  | @keep c a b hc _ ih =>
    rw [entry_components, entry_components, List.splitOnP_cons_eq_if_modifyHead,
      List.splitOnP_cons_eq_if_modifyHead]
    split_ifs
    · exact .cons .nil ih
    · unfold entry_components at ih
      revert ih
      generalize List.splitOnP is_separator _ = as, List.splitOnP is_separator _ = bs
      intro ih
      cases ih with
      | nil => exact .nil
      | cons hfirst hrest => exact .cons (.keep hc hfirst) hrest
  | @high c d a b hc hd _ ih =>
    rw [entry_components, entry_components, List.splitOnP_cons_eq_if_modifyHead,
      List.splitOnP_cons_eq_if_modifyHead, not_separator hc, not_separator hd]
    unfold entry_components at ih
    revert ih
    generalize List.splitOnP is_separator _ = as, List.splitOnP is_separator _ = bs
    intro ih
    cases ih with
    | nil => exact .nil
    | cons hfirst hrest => exact .cons (.high hc hd hfirst) hrest
  | @more d a b hd _ ih =>
    rw [entry_components, entry_components, List.splitOnP_cons_eq_if_modifyHead, not_separator hd]
    unfold entry_components at ih
    revert ih
    generalize List.splitOnP is_separator _ = as, List.splitOnP is_separator _ = bs
    intro ih
    cases ih with
    | nil => exact .nil
    | cons hfirst hrest => exact .cons (.more hd hfirst) hrest

end Recoded

/-- Reserved names are ASCII in either case. -/
theorem win_reserved_ascii :
    (win_reserved_names.all fun name => name.all fun c => c < 0x61) = true := by
  decide +kernel

theorem ascii_of_upper_lt {c : UInt8} (h : ascii_upper c < 0x61) : c < 0x80 := by
  unfold ascii_upper at h
  split_ifs at h with hc
  · simp only [Bool.and_eq_true, decide_eq_true_eq, UInt8.le_iff_toNat_le] at hc
    rw [UInt8.lt_iff_toNat_lt]
    exact Nat.lt_of_le_of_lt hc.2 (by decide)
  · exact UInt8.lt_trans h (by decide)

theorem is_reserved_recoded {a b : Bytes} (h : Recoded a b)
    (ha : is_reserved_device_name a = false) : is_reserved_device_name b = false := by
  have hbase := h.takeWhile (x := 0x2E) (by decide)
  unfold is_reserved_device_name at ha ⊢
  simp only at ha ⊢
  generalize a.takeWhile (· ≠ 0x2E) = base at hbase ha
  generalize b.takeWhile (· ≠ 0x2E) = base' at hbase ⊢
  rw [Bool.eq_false_iff]
  intro hany
  obtain ⟨name, hname, hmatch⟩ := List.any_eq_true.mp hany
  simp only [Bool.and_eq_true, decide_eq_true_eq] at hmatch
  -- the base matches an ASCII name, so nothing in it was recoded
  have hascii : ∀ d ∈ base', d < 0x80 := by
    intro d hd
    have hup : ascii_upper d ∈ name := hmatch.2 ▸ List.mem_map.mpr ⟨d, hd, rfl⟩
    have hall := List.all_eq_true.mp (List.all_eq_true.mp win_reserved_ascii name hname) _ hup
    exact ascii_of_upper_lt (by simpa using hall)
  rw [hbase.eq_of_ascii hascii] at hmatch
  rw [List.any_eq_false] at ha
  exact ha name hname (by simpa using hmatch)

/-- **Recoding keeps a component safe.** -/
theorem is_unsafe_segment_recoded {a b : Bytes} (h : Recoded a b)
    (ha : is_unsafe_segment a = false) : is_unsafe_segment b = false := by
  unfold is_unsafe_segment at ha ⊢
  split_ifs at ha with h1 h2 h3 h4 h5
  have h1' : ¬ b.length = 0 := by
    intro hb
    rw [List.eq_nil_of_length_eq_zero hb] at h
    rw [h.nil_left] at h1
    exact h1 rfl
  have h2' : b ≠ [0x2E] := by
    rintro rfl
    exact h2 (h.eq_of_ascii (by simp)).symm
  have h3' : b ≠ [0x2E, 0x2E] := by
    rintro rfl
    exact h3 (h.eq_of_ascii (by simp)).symm
  have h4' : ¬ b.any (fun c => c < 0x20 || c = 0x7F || c = 0x3A) = true := by
    intro hany
    obtain ⟨d, hd, hbad⟩ := List.any_eq_true.mp hany
    refine h4 (List.any_eq_true.mpr ⟨d, h.mem hd ?_, hbad⟩)
    simp only [Bool.or_eq_true, decide_eq_true_eq] at hbad
    rcases hbad with (hbad | rfl) | rfl
    · exact UInt8.lt_trans hbad (by decide)
    · decide
    · decide
  have h5' : ¬ (b.getLast? = some 0x2E || b.getLast? = some 0x20) = true := by
    intro hlast
    simp only [Bool.or_eq_true, decide_eq_true_eq] at hlast h5
    exact h5 (hlast.imp (h.getLast? (by decide)) (h.getLast? (by decide)))
  rw [if_neg h1', if_neg h2', if_neg h3', if_neg h4', if_neg h5']
  exact is_reserved_recoded h ha

/-- **Recoding keeps a name safe.** -/
theorem unsafe_recoded {name target : CStr} (h : Recoded name.bytes target.bytes)
    (hsafe : pakka_unsafe_entry_name name = false) : pakka_unsafe_entry_name target = false := by
  rw [pakka_unsafe_entry_name_eq_false] at hsafe ⊢
  have hcomp := h.components
  revert hsafe
  generalize entry_components name.bytes = as, entry_components target.bytes = bs at hcomp
  intro hsafe
  induction hcomp with
  | nil => exact hsafe
  | cons hseg _ ih =>
    rw [List.forall_mem_cons] at hsafe ⊢
    exact ⟨is_unsafe_segment_recoded hseg hsafe.1, ih hsafe.2⟩

/-- The recoding loop appends what the rest is recoded to. -/
theorem pk3_decode_cp437_recoded {dst_cap : ℕ} (src : Bytes) {out bs : Bytes}
    (h : pk3_decode_cp437 dst_cap src out = some bs) :
    ∃ more, bs = out ++ more ∧ Recoded src more := by
  induction src generalizing out with
  | nil =>
    obtain rfl := Option.some.inj h
    exact ⟨[], by simp, .nil⟩
  | cons b src ih =>
    rw [pk3_decode_cp437] at h
    split_ifs at h with hb hfit
    · obtain ⟨more, rfl, hm⟩ := ih h
      exact ⟨b :: more, by simp, .keep hb hm⟩
    · split at h
      · cases h
      · rename_i u hu
        obtain ⟨hunit, -⟩ := pk3_cp437_unit hb hu
        obtain ⟨more, rfl, hm⟩ := ih h
        have hhigh := is_utf8_unit_high hunit
        cases u with
        | nil => exact absurd rfl (is_utf8_unit_whole hunit).1
        | cons d u =>
          rw [List.forall_mem_cons] at hhigh
          exact ⟨d :: u ++ more, by simp, .high hb hhigh.1 (hm.append hhigh.2)⟩

theorem Recoded.refl (a : Bytes) : Recoded a a := by
  induction a with
  | nil => exact .nil
  | cons c a ih =>
    by_cases hc : c < 0x80
    · exact .keep hc ih
    · exact .high hc hc ih

/-- What a name is decoded to. -/
theorem pk3_decode_entry_name_recoded {src bs : Bytes} {gp_flags : UInt16}
    (h : pk3_decode_entry_name src gp_flags PAKKA_ENTRY_NAME_SIZE = .name bs) : Recoded src bs := by
  unfold pk3_decode_entry_name at h
  rw [if_neg (by decide)] at h
  by_cases hv : pakka_is_valid_utf8 src = true
  · rw [if_pos hv] at h
    split_ifs at h
    obtain rfl := Decoded.name.inj h
    exact Recoded.refl _
  · rw [if_neg hv] at h
    split_ifs at h
    split at h
    · cases h
    · rename_i out hout
      obtain rfl := Decoded.name.inj h
      obtain ⟨more, rfl, hm⟩ := pk3_decode_cp437_recoded _ hout
      exact hm

/-- The loader reads a safe name as a safe name. -/
theorem zip_name_read_safe {name : CStr} (hsafe : pakka_unsafe_entry_name name = false) :
    pakka_unsafe_entry_name (zip_name_read name) = false := by
  unfold zip_name_read
  split
  · rename_i bs hdec
    have hrec := pk3_decode_entry_name_recoded hdec
    refine unsafe_recoded ?_ hsafe
    have hnul : (0 : UInt8) ∉ bs := fun hmem => name.no_nul (hrec.mem hmem (by decide))
    have hfield : CStr.ofField bs = ⟨bs, hnul⟩ := by
      have := CStr.ofField_padded ⟨bs, hnul⟩ 0
      rwa [List.replicate_zero, List.append_nil] at this
    rw [hfield]
    exact hrec
  · exact hsafe

/-! ## Names under calls

The list of names as a catalogue, and its edits.
-/

/-- The name a call takes from the entry it gives one to. -/
def Call.old_name : Call → Option CStr
  | .rename old_name _ => some old_name
  | _ => none

/-- The names of entries, as a catalogue. -/
def name_catalogue (es : List Entry) : Catalogue CStr Unit :=
  Catalogue.of Entry.filename (fun _ => ()) es

theorem names_name_catalogue (es : List Entry) :
    Catalogue.names (name_catalogue es) = es.map Entry.filename := Catalogue.names_of _ _ es

/-- The edit a call makes of the names. -/
def name_edit (c : Call) : Catalogue.Edit CStr Unit := call_edit (fun _ _ => ()) (fun _ => []) c

theorem name_edit_takes (c : Call) : (name_edit c).takes = c.new_name := by
  cases c <;> rfl

theorem name_edit_frees (c : Call) : (name_edit c).frees = c.old_name := by
  cases c <;> rfl

variable {df : Deflate} {format : Format} {geom : Geometry} {s s' : Session} {disk : Bytes}
  {env : Env} {c : Call}

/-- What a call that succeeds does to the names of a handle: the edit it stands for, where the name
it gives is listed or safe. -/
structure NamesEdited (pak pak' : Archive) (c : Call) : Prop where
  format : pak'.format = pak.format
  names : name_catalogue pak'.entries = Catalogue.edit (name_catalogue pak.entries) (name_edit c)
  safe : ∀ m, c.new_name = some m → m ∈ pak.entries.map Entry.filename ∨
    pakka_unsafe_entry_name m = false

/-- An added node. -/
theorem NamesEdited.added {pak pak' : Archive} {n : CStr} {e : Entry}
    (hname : pak_add_preflight pak n = .ok ()) (hformat : pak'.format = pak.format)
    (hents : pak'.entries = pak.entries ++ [e]) (he : e.filename = n)
    (hedit : name_edit c = .add n ()) : NamesEdited pak pak' c := by
  refine ⟨hformat, ?_, ?_⟩
  · rw [hents, name_catalogue, Catalogue.of_append, hedit]
    change _ ++ [(e.filename, ())] = _
    rw [he]
    rfl
  · intro m hm
    rw [← name_edit_takes, hedit] at hm
    obtain rfl := Option.some.inj hm
    exact Or.inr (pak_add_preflight_ok.mp hname).2.1

/-- The calls that name an existing entry. -/
theorem NameEffect.names_edited {pak pak' : Archive} (h : NameEffect pak c pak')
    (htail : pak.tail = lastIndex pak.entries) : NamesEdited pak pak' c := by
  refine ⟨?_, h.edits htail (fun _ _ => rfl) (fun _ _ _ => rfl) _ _, ?_⟩
  · cases h with
    | copy =>
      rw [pak_link_copy_entry_eq]
      rfl
    | _ => rfl
  · intro m hm
    cases h with
    | @same name e he =>
      obtain rfl := Option.some.inj hm
      have hfind : e.filename = name := by
        have := List.find?_some he
        simpa using this
      exact Or.inl (List.mem_map.mpr ⟨e, find_entry_mem he, hfind⟩)
    | rename _ hn =>
      obtain rfl := Option.some.inj hm
      exact Or.inr (pak_add_preflight_ok.mp hn).2.1
    | copy _ hn =>
      obtain rfl := Option.some.inj hm
      exact Or.inr (pak_add_preflight_ok.mp hn).2.1
    | delete => cases hm
    | set_compression => cases hm

/-- A call that leaves the names as they are. -/
theorem NamesEdited.of_same {pak pak' : Archive} (hformat : pak'.format = pak.format)
    (hnames : pak'.entries.map Entry.filename = pak.entries.map Entry.filename)
    (hedit : name_edit c = .keep) : NamesEdited pak pak' c := by
  refine ⟨hformat, ?_, ?_⟩
  · have hcat : ∀ es : List Entry, name_catalogue es =
        (es.map Entry.filename).map fun n => (n, ()) := by
      intro es
      rw [List.map_map]
      rfl
    rw [hedit, hcat, hnames, ← hcat]
    rfl
  · intro m hm
    rw [← name_edit_takes, hedit] at hm
    cases hm

/-- **A call that succeeds** on a PAK-class archive. -/
theorem PakLive.step_names (h : PakLive format geom False s disk)
    (hok : (s.step df env c).1 = .ok) : NamesEdited s.pak (s.step df env c).2.pak c := by
  by_cases hc : c = .commit
  · subst hc
    obtain ⟨disk', -, hformat, hnames, -⟩ := h.commit_names
      (Prod.ext hok rfl : s.step df env .commit = (.ok, _))
    exact NamesEdited.of_same (hformat.trans h.format.symm) hnames rfl
  · have he := pak_call_ok (not_zip_of_geometry h.state.geometry) hc hok
    change NamesEdited s.pak (pakka_call df env s.disk s.pak c).pak c
    have hformat := he.kept.1
    generalize pakka_call df env s.disk s.pak c = r at he hformat ⊢
    obtain ⟨st, pak', log⟩ := r
    simp only at he hformat ⊢
    cases he with
    | add_file hname _ _ ha =>
      obtain ⟨disk', e, -, ho⟩ := h.state.added hname ha h.file
      exact .added hname hformat ho.entries ho.filename rfl
    | add_memory hname ha =>
      obtain ⟨disk', e, -, ho⟩ := h.state.added hname ha h.file
      exact .added hname hformat ho.entries ho.filename rfl
    | name hn => exact hn.names_edited h.state.tail

/-- **A call that succeeds** on a ZIP archive. -/
theorem ZipLive.step_names (h : ZipLive format s disk) (hok : (s.step df env c).1 = .ok) :
    NamesEdited s.pak (s.step df env c).2.pak c := by
  by_cases hc : c = .commit
  · subst hc
    have hstep : s.step df env .commit = (.ok, (s.step df env .commit).2) := Prod.ext hok rfl
    rcases h.commit_cases hstep with ⟨-, hs⟩ | ⟨disk', -, hcom⟩
    · rw [hs]
      exact .of_same rfl rfl rfl
    · exact .of_same hcom.format hcom.names rfl
  · have he := zip_call_ok df env s.disk h.state.zip hc hok
    change NamesEdited s.pak (pakka_call df env s.disk s.pak c).pak c
    generalize (pakka_call df env s.disk s.pak c).pak = pak' at he ⊢
    cases he with
    | add_file hname ha =>
      exact .added hname rfl (h.state.linked.link_entries _) ha.length.1 rfl
    | add_memory hname ha =>
      exact .added hname rfl (h.state.linked.link_entries _) ha.length.1 rfl
    | name hn => exact hn.names_edited h.state.linked.tail

/-! ## Extraction keys

The key of a name is what extraction compares. A call is apart if the new name's key is new.
-/

/-- A name as the loader reads it back. -/
def published_name (format : Format) (name : CStr) : CStr :=
  if pakka_format_is_zip format then zip_name_read name else name

/-- What the preflight of an extraction compares. -/
def extract_key (format : Format) (name : CStr) : Bytes := extract_norm (published_name format name)

theorem published_name_safe {format : Format} {name : CStr}
    (h : pakka_unsafe_entry_name name = false) :
    pakka_unsafe_entry_name (published_name format name) = false := by
  unfold published_name
  split_ifs
  · exact zip_name_read_safe h
  · exact h

/-- A handle whose names can be extracted together. -/
structure Extractable (pak : Archive) : Prop where
  safe : ∀ e ∈ pak.entries, pakka_unsafe_entry_name e.filename = false
  apart : (pak.entries.map fun e => extract_key pak.format e.filename).Nodup

/-- A call gives no entry a name that is extracted to where another entry is. -/
def call_apart (pak : Archive) (c : Call) : Prop :=
  ∀ m, c.new_name = some m → ∀ e ∈ pak.entries, c.old_name ≠ some e.filename →
    extract_key pak.format e.filename ≠ extract_key pak.format m

/-- So do all calls of a run. -/
def run_apart (df : Deflate) : Session → List (Env × Call) → Prop
  | _, [] => True
  | s, (env, c) :: cs => call_apart s.pak c ∧ run_apart df (s.step df env c).2 cs

/-- **A call that keeps the keys apart** keeps a handle extractable. -/
theorem Extractable.edited {pak pak' : Archive} (h : Extractable pak) (he : NamesEdited pak pak' c)
    (hnodup : (pak.entries.map Entry.filename).Nodup) (hc : call_apart pak c) :
    Extractable pak' := by
  have hnames : pak'.entries.map Entry.filename =
      Catalogue.names (Catalogue.edit (name_catalogue pak.entries) (name_edit c)) := by
    rw [← he.names, names_name_catalogue]
  constructor
  · intro e hmem
    have hx : e.filename ∈ pak'.entries.map Entry.filename := List.mem_map_of_mem hmem
    have hlisted : ∀ n ∈ pak.entries.map Entry.filename, pakka_unsafe_entry_name n = false := by
      intro n hn
      obtain ⟨e', he', rfl⟩ := List.mem_map.mp hn
      exact h.safe e' he'
    rw [hnames] at hx
    rcases Catalogue.mem_names_edit hx with hx | hx
    · rw [names_name_catalogue] at hx
      exact hlisted _ hx
    · rw [name_edit_takes] at hx
      rcases he.safe _ hx with hn | hn
      · exact hlisted _ hn
      · exact hn
  · have hkeys : ∀ p : Archive, p.entries.map (fun e => extract_key p.format e.filename) =
        (p.entries.map Entry.filename).map (extract_key p.format) := by
      intro p
      rw [List.map_map]
      rfl
    rw [hkeys, hnames, he.format]
    refine Catalogue.nodup_map_names_edit (extract_key pak.format) ?_ ?_ ?_
    · rw [names_name_catalogue]
      exact hnodup
    · rw [names_name_catalogue, ← hkeys]
      exact h.apart
    · intro m hm x hx hfree
      rw [name_edit_takes] at hm
      rw [name_edit_frees] at hfree
      rw [names_name_catalogue] at hx
      obtain ⟨e, hmem, rfl⟩ := List.mem_map.mp hx
      exact hc m hm e hmem hfree

/-! ## Runs

If every call is apart, so are the names at the end.
-/

/-- A session after calls that succeeded. -/
inductive Built (s : Session) : Prop where
  | pak {format : Format} {geom : Geometry} {disk : Bytes} (h : PakLive format geom False s disk) :
      Built s
  | zip {format : Format} {disk : Bytes} (h : ZipLive format s disk) : Built s

theorem Built.step (h : Built s) (hok : (s.step df env c).1 = .ok) :
    Built (s.step df env c).2 ∧ NamesEdited s.pak (s.step df env c).2.pak c := by
  cases h with
  | pak hl =>
    obtain ⟨disk', hl'⟩ := hl.step_ok hok
    exact ⟨.pak hl', hl.step_names hok⟩
  | zip hl =>
    obtain ⟨disk', hl'⟩ := hl.step_ok hok
    exact ⟨.zip hl', hl.step_names hok⟩

theorem Built.nodup (h : Built s) (hwad : pakka_format_is_wad s.pak.format = false) :
    (s.pak.entries.map Entry.filename).Nodup := by
  cases h with
  | pak hl => exact hl.state.nodup hwad
  | zip hl => exact hl.state.linked.nodup hwad

/-- **A run whose calls keep the keys apart** keeps the handle extractable. -/
theorem Extractable.runOk (calls : List (Env × Call)) {s s' : Session} (h : Extractable s.pak)
    (hb : Built s) (hwad : pakka_format_is_wad s.pak.format = false)
    (hrun : s.runOk df calls = some s') (hapart : run_apart df s calls) :
    Built s' ∧ Extractable s'.pak ∧ s'.pak.format = s.pak.format := by
  induction calls generalizing s with
  | nil =>
    obtain rfl := Option.some.inj hrun
    exact ⟨hb, h, rfl⟩
  | cons p calls ih =>
    obtain ⟨env, c⟩ := p
    rw [Session.runOk] at hrun
    split_ifs at hrun with hok
    obtain ⟨hb', hedit⟩ := hb.step hok
    obtain ⟨h1, h2, h3⟩ := ih (h.edited hedit (hb.nodup hwad) hapart.1) hb'
      (by rw [hedit.format]; exact hwad) hrun hapart.2
    exact ⟨h1, h2, h3.trans hedit.format⟩

/-- A created archive has no names yet. -/
theorem created_extractable {path : CStr} {pak : Archive}
    (h : (pakka_create env path format false).res = .ok pak) :
    Built (Session.created (pakka_create env path format false) pak) ∧ Extractable pak := by
  have hnone : pak.entries = [] → Extractable pak := by
    intro hnil
    refine ⟨fun e he => ?_, ?_⟩
    · rw [hnil] at he
      cases he
    · rw [hnil]
      exact List.nodup_nil
  rcases (Session.Started.created h).format_class with hz | hcls
  · obtain ⟨⟨disk, hl⟩, hnil⟩ := ZipLive.created h hz
    exact ⟨.zip hl, hnone hnil⟩
  · obtain ⟨geom, disk, hl, hnil⟩ := PakLive.created h hcls
    exact ⟨.pak hl, hnone hnil⟩

/-! ## Publishing

From the names of the handle to the file that is opened and extracted; and the run in which two
names differ in case only.
-/

/-- The entries of a handle are no more than the loader takes, and what it can read. -/
def loader_takes (pak : Archive) : Prop :=
  if pakka_format_is_zip pak.format = true then
    (∀ e ∈ pak.entries, ZipReadable e) ∧ pak.entries.length ≠ 0xFFFF
  else pak.entries.length ≤ PAKFILE_MAX_ENTRIES

/-- A file opens under a format, and the preflight of an extraction of all its entries passes. -/
def Extracts (file : Option Bytes) (format : Format) : Prop :=
  ∀ (path : CStr) (mode : OpenMode), path.strlen < OS_PATH_MAX →
    ∃ pak chosen, pakka_open_ex path mode format file = .ok pak ∧
      op_extract_preflight pak [] = .ok chosen

/-- A file that opens with safe names of distinct targets. -/
theorem AcceptedAs.extracts {file : Option Bytes} {names : List CStr}
    (h : AcceptedAs file format names) (hsafe : ∀ n ∈ names, pakka_unsafe_entry_name n = false)
    (hapart : (names.map extract_norm).Nodup) : Extracts file format := by
  intro path mode hpath
  obtain ⟨pak, hopen, hnum, hnames⟩ := h path mode hpath
  have hcount : pak.num_entries.toNat = pak.entries.length := by
    rw [hnum, ← hnames, List.length_map]
  have hkeys : (pak.entries.map fun e => extract_norm e.filename).Nodup := by
    rw [← hnames, List.map_map] at hapart
    exact hapart
  obtain ⟨chosen, hchosen⟩ := (op_extract_preflight_all hcount).mpr
    ⟨fun e he => hsafe _ (hnames ▸ List.mem_map_of_mem he), hkeys⟩
  exact ⟨pak, chosen, hopen, hchosen⟩

/-- A commit that succeeds publishes the names as the loader reads them. -/
theorem Built.commit_accepted (h : Built s) (hc : s.step df env .commit = (.ok, s'))
    (htakes : loader_takes s.pak)
    (hkeys : (s.pak.entries.map fun e => published_name s.pak.format e.filename).Nodup) :
    s'.pak.is_new = s.pak.is_new ∧ AcceptedAs (s'.files .live) s.pak.format
      (s.pak.entries.map fun e => published_name s.pak.format e.filename) := by
  cases h with
  | @pak format geom disk hl =>
    have hz := not_zip_of_geometry hl.state.geometry
    have hpub : (s.pak.entries.map fun e => published_name s.pak.format e.filename) =
        s.pak.entries.map Entry.filename := by
      refine List.map_congr_left fun e _ => ?_
      rw [published_name, if_neg (by simp [hz])]
    rw [loader_takes, if_neg (by simp [hz])] at htakes
    obtain ⟨disk', hfile, hformat, hnames, hdir⟩ := hl.commit_names hc
    refine ⟨(hl.commit_opens (fun _ hx => hx) htakes hc).1, ?_⟩
    have hacc := (hdir htakes).accepted (hformat ▸ hl.geometry)
    rw [hpub, hfile, ← hnames, hl.format, ← hformat]
    exact hacc
  | @zip format disk hl =>
    have hpub : (s.pak.entries.map fun e => published_name s.pak.format e.filename) =
        s.pak.entries.map fun e => zip_name_read e.filename := by
      refine List.map_congr_left fun e _ => ?_
      rw [published_name, if_pos hl.state.zip]
    rw [loader_takes, if_pos hl.state.zip] at htakes
    rw [hpub] at hkeys ⊢
    constructor
    · rcases hl.commit df env with ⟨-, hs⟩ | ⟨-, ⟨herr, -⟩ | ⟨disk', -, -, hcom⟩ | ⟨⟨hne, -⟩, -⟩⟩
      · rw [hs] at hc
        rw [(Prod.mk.inj hc).2]
      · rw [hc] at herr
        exact absurd herr (by simp [IsError])
      · rw [hc] at hcom
        exact hcom.is_new
      · exact absurd (by rw [hc]) hne
    · intro path mode hpath
      refine hl.commit_accepted hc htakes.1 htakes.2 hkeys path mode s.pak.format hpath ?_
      have hz := hl.state.zip
      revert hz
      cases s.pak.format <;> simp [pakka_format_is_zip]

/-- **What is built can be extracted, when the calls see to it.** Take any archive but a WAD that is
created, and any calls on it that succeed, where none gives an entry a name that comes out as
another entry's does. When the loader takes what the handle lists, a close that succeeds leaves a
file that opens, and the preflight of an extraction of all entries passes. -/
theorem built_archive_extracts (df : Deflate) (env₀ : Env) (path₀ : CStr) (format : Format)
    (pak₀ : Archive) (s₁ : Session) (calls : List (Env × Call)) (env : Env)
    (hcreate : (pakka_create env₀ path₀ format false).res = .ok pak₀)
    (hwad : pakka_format_is_wad pak₀.format = false)
    (hrun : (Session.created (pakka_create env₀ path₀ format false) pak₀).runOk df calls = some s₁)
    (hapart : run_apart df (Session.created (pakka_create env₀ path₀ format false) pak₀) calls)
    (htakes : loader_takes s₁.pak) (hclose : (s₁.close env).1 = .ok ()) :
    Extracts ((s₁.close env).2 s₁.archive_file) pak₀.format := by
  obtain ⟨hb₀, hx₀⟩ := created_extractable hcreate
  obtain ⟨hb, hx, hformat⟩ := Extractable.runOk calls hx₀ hb₀ hwad hrun hapart
  have hkeys : ((s₁.pak.entries.map fun e => published_name s₁.pak.format e.filename).map
      extract_norm).Nodup := by
    rw [List.map_map]
    exact hx.apart
  obtain ⟨s₂, hcommit, hfile⟩ := Session.close_ok df hclose
  obtain ⟨hnew, hacc⟩ := hb.commit_accepted hcommit htakes hkeys.of_map
  have hf : s₁.pak.format = pak₀.format := hformat
  rw [hfile hnew, ← hf]
  refine hacc.extracts (fun n hn => ?_) hkeys
  obtain ⟨e, he, rfl⟩ := List.mem_map.mp hn
  exact published_name_safe (hx.safe e he)

/-- Adding an entry whose name is another one's in upper case. -/
def add_upper_a : Call := .add_memory lump_name [2]

/-- Two names that no case or recoding brings together. -/
theorem built_archive_extracts_two :
    Extracts (((created_pak.run .storing [(calm_env, add_a), (calm_env, add_zeros)]).close
      calm_env).2 .dest) .pak := by
  have hone : (created_pak.step .storing calm_env add_a).2.pak.entries.map Entry.filename =
      [⟨ascii "a", by decide⟩] := by
    decide +kernel
  have hapart : run_apart .storing created_pak [(calm_env, add_a), (calm_env, add_zeros)] := by
    refine ⟨fun m _ e he => ?_, ?_, trivial⟩
    · exact absurd he (List.not_mem_nil)
    · intro m hm e he _
      obtain rfl := Option.some.inj hm
      have hmem := List.mem_map_of_mem (f := Entry.filename) he
      rw [hone, List.mem_singleton] at hmem
      rw [hmem]
      decide +kernel
  exact built_archive_extracts .storing calm_env CStr.empty .pak
    (init_pak_header (create_initial .pak))
    (created_pak.run .storing [(calm_env, add_a), (calm_env, add_zeros)])
    [(calm_env, add_a), (calm_env, add_zeros)] calm_env rfl (by decide)
    (Session.runOk_eq_run (by decide +kernel)) hapart
    (by
      rw [loader_takes, if_neg (by decide +kernel)]
      decide +kernel) (by decide +kernel)

/-- Names that differ in case are both taken, and the archive they make is refused. -/
theorem case_twins_not_extracted :
    let s := created_pak.run .storing [(calm_env, add_a), (calm_env, add_upper_a)]
    created_pak.runOk .storing [(calm_env, add_a), (calm_env, add_upper_a)] = some s ∧
      (s.close calm_env).1 = .ok () ∧
      (pakka_open_ex CStr.empty .read .pak ((s.close calm_env).2 s.archive_file)).map
        (fun pak => op_extract_preflight pak []) = .ok (.error (.collision (ascii "a"))) ∧
      ¬ Extracts ((s.close calm_env).2 s.archive_file) .pak := by
  intro s
  have hpre : (pakka_open_ex CStr.empty .read .pak ((s.close calm_env).2 s.archive_file)).map
      (fun pak => op_extract_preflight pak []) = .ok (.error (.collision (ascii "a"))) := by
    decide +kernel
  refine ⟨Session.runOk_eq_run (by decide +kernel), by decide +kernel, hpre, fun h => ?_⟩
  obtain ⟨pak, chosen, hopen, hchosen⟩ := h CStr.empty .read (by decide)
  rw [hopen] at hpre
  change Except.ok (op_extract_preflight pak []) = _ at hpre
  rw [hchosen] at hpre
  cases hpre

end Pakka
