/-
What an extraction leaves in an empty destination when nothing fails.

The preflight compares whole names. It keeps two targets from being one, but not one target from
being a directory on the way to another, and a location is never both. So an extraction that
passed the preflight completes, and delivers every entry, exactly where no target is on the way to
another.

The state that is carried from entry to entry is `Extracted`: the files of the entries that are
done, the directories on the way to them, and nothing else. The condition is stated on the target
names alone (`OnTheWay`), so it can be told from an archive before anything is written. Contents are
those of `Delivers`, what the readers hand out for an entry.
-/
import Pakka.ExtractTarget
import Pakka.ExtractPreflight

set_option autoImplicit false

namespace Pakka

open ByteImage FileTree LittleEndian

/-! ## Nothing fails

Every attempt goes through, so that the walk makes what is missing and ends in the parent.
-/

@[simp] theorem attempt_calm {α : Type} (site : ExtractSite) (x : Except Errno α) :
    attempt (.calm ExtractSite) site x = x := rfl

/-- A directory that is there, or can be made, is entered. -/
theorem extract_descend_calm {i : ℕ} {dirfd : List Bytes} {seg : Bytes} {fs : Fs}
    (hseg : is_unsafe_segment seg = false) (hdir : fs.node dirfd = some .dir)
    (hway : fs.node (dirfd ++ [seg]) = none ∨ fs.node (dirfd ++ [seg]) = some .dir) :
    ∃ fs', extract_descend (.calm _) i dirfd seg fs = (some (dirfd ++ [seg]), fs') ∧
      fs'.node (dirfd ++ [seg]) = some .dir ∧
        ∀ p, p ≠ dirfd ++ [seg] → fs'.node p = fs.node p := by
  unfold extract_descend extract_redescend
  simp only [attempt_calm, (path_comp_safe hseg).2]
  rcases hway with hfree | hthere
  · rw [Tree.openat_descend_enoent.mpr hfree]
    obtain ⟨fs', hmk, hnode⟩ := Tree.mkdirat_free hdir hfree
    have hnew : fs'.node (dirfd ++ [seg]) = some .dir := by
      rw [hnode, Function.update_self]
    refine ⟨fs', ?_, hnew, ?_⟩
    · simp only [hmk, Tree.openat_descend_ok.mpr ⟨hnew, rfl, rfl⟩]
    · intro p hp
      rw [hnode, Function.update_of_ne hp]
  · refine ⟨fs, ?_, hthere, fun _ _ => rfl⟩
    simp only [Tree.openat_descend_ok.mpr ⟨hthere, rfl, rfl⟩]

/-- **The walk succeeds** where the way is free: directories or nothing on it, nothing at its
end. -/
theorem extract_walk_calm (rest seg : Bytes) (i : ℕ) {dirfd : List Bytes} {fs : Fs}
    (hseg : ∀ c ∈ seg, is_separator c = false)
    (hsafe : ∀ s ∈ entry_components (seg ++ rest), is_unsafe_segment s = false)
    (hlong : ∀ s ∈ entry_components (seg ++ rest), s.length < OS_PATH_MAX)
    (hdir : fs.node dirfd = some .dir)
    (hway : ∀ s t, entry_components (seg ++ rest) = s ++ t → s ≠ [] → t ≠ [] →
      fs.node (dirfd ++ s) = none ∨ fs.node (dirfd ++ s) = some .dir)
    (hfree : fs.node (dirfd ++ entry_components (seg ++ rest)) = none) :
    (extract_walk (.calm _) rest seg i dirfd fs).1 =
      some (dirfd ++ entry_components (seg ++ rest)) := by
  induction rest generalizing seg i dirfd fs with
  | nil =>
    rw [List.append_nil, entry_components, List.splitOnP_eq_singleton hseg] at *
    rw [List.forall_mem_singleton] at hsafe hlong
    have hne : seg.length ≠ 0 := fun h => (path_comp_safe hsafe).1 (List.length_eq_zero_iff.mp h)
    rw [extract_walk, (path_comp_safe hsafe).2, if_neg hne, if_neg (by omega)]
    obtain ⟨fs', hopen, -⟩ := Tree.openat_deliver_free hdir hfree
    simp only [attempt_calm, hopen]
    rw [if_neg (by simp [Schedule.calm])]
  | cons c rest ih =>
    rw [extract_walk]
    by_cases hc : is_separator c = true
    · rw [if_pos hc]
      rw [entry_components, List.splitOnP_append_cons_of_forall_mem hseg c hc] at *
      rw [List.forall_mem_cons] at hsafe hlong
      have hne : seg.length ≠ 0 :=
        fun h => (path_comp_safe hsafe.1).1 (List.length_eq_zero_iff.mp h)
      rw [if_neg hne, if_neg (by have := hlong.1; omega)]
      have hnil := List.splitOnP_ne_nil is_separator rest
      obtain ⟨fs', hdown, hnew, hsame⟩ := extract_descend_calm (i := i) hsafe.1 hdir
        (hway [seg] _ rfl (by simp) hnil)
      rw [hdown]
      have happ : ∀ s, dirfd ++ [seg] ++ s = dirfd ++ seg :: s := by simp
      -- what was below the new directory is as it was, so the rest of the way is still free
      have hbelow : ∀ s, s ≠ [] → fs'.node (dirfd ++ [seg] ++ s) = fs.node (dirfd ++ seg :: s) := by
        intro s hs
        have hne : dirfd ++ [seg] ++ s ≠ dirfd ++ [seg] := by simpa using hs
        rw [hsame _ hne, happ]
      have hrest := ih [] (i + 1) (by simp) hsafe.2 hlong.2 hnew ?_ ?_
      · rw [happ] at hrest
        exact hrest
      · intro s t hst hs ht
        rw [hbelow s hs]
        refine hway (seg :: s) t ?_ (by simp) ht
        rw [List.cons_append, ← hst]
        rfl
      · exact (hbelow _ hnil).trans hfree
    · rw [if_neg hc]
      have happ : seg ++ c :: rest = seg ++ [c] ++ rest := by simp
      rw [happ] at hsafe hlong hway hfree ⊢
      refine ih _ _ ?_ hsafe hlong hdir hway hfree
      intro b hb
      rcases List.mem_append.mp hb with hb | hb
      · exact hseg b hb
      · rw [List.mem_singleton.mp hb]
        simpa using hc

/-! ## Payloads

An entry is read in blocks until nothing comes, and its content is what was written.
-/

/-- One read of a reader that delivers `content`. -/
theorem reader_run_step {disk : Bytes} {pak : Archive} {r : Reader} {content : Bytes}
    (h : ∀ lens : List ℕ, reader_run disk pak r lens = .ok (content.take lens.sum)) (len : ℕ) :
    (pakka_reader_read disk pak r len).status = .ok ∧
      (pakka_reader_read disk pak r len).bytes = content.take len ∧
        ∀ lens : List ℕ, reader_run disk pak (pakka_reader_read disk pak r len).reader lens =
          .ok ((content.drop len).take lens.sum) := by
  obtain ⟨s, r', bytes, hread⟩ : ∃ s r' bytes, pakka_reader_read disk pak r len = ⟨s, r', bytes⟩ :=
    ⟨_, _, _, rfl⟩
  rw [hread]
  have hrun : ∀ lens : List ℕ, s = .ok ∧
      ∃ rest, reader_run disk pak r' lens = .ok rest ∧
        bytes ++ rest = content.take (len + lens.sum) := by
    intro lens
    have hlens := h (len :: lens)
    rw [reader_run, hread, List.sum_cons] at hlens
    by_cases hs : s = .ok
    · subst hs
      simp only [except_bind_eq_ok, except_pure_eq_ok] at hlens
      exact ⟨rfl, hlens⟩
    · exfalso
      cases s <;> first | exact hs rfl | cases hlens
  obtain ⟨hok, rest, hnil, hbytes⟩ := hrun []
  obtain rfl := Except.ok.inj hnil
  rw [List.append_nil, List.sum_nil, Nat.add_zero] at hbytes
  refine ⟨hok, hbytes, ?_⟩
  intro lens
  obtain ⟨-, rest, hrest, happ⟩ := hrun lens
  rw [hrest]
  congr 1
  rw [List.take_add, hbytes] at happ
  exact List.append_cancel_left happ

/-- **Copying** appends the whole content to the target. -/
theorem extract_copy_calm {disk : Bytes} {pak : Archive} {name : CStr} {tfd : List Bytes} {k : ℕ}
    {reader : Reader} {out content : Bytes} {fs : Fs}
    (h : ∀ lens : List ℕ, reader_run disk pak reader lens = .ok (content.take lens.sum))
    (hfile : fs.node tfd = some (.file out)) :
    ∃ fs', extract_copy (.calm _) disk pak name tfd k reader out fs = (.ok (), fs') ∧
      fs'.node = Function.update fs.node tfd (some (.file (out ++ content))) := by
  induction hn : reader.remaining using Nat.strong_induction_on
    generalizing reader k out content fs with
  | _ n ih =>
    obtain ⟨hok, hbytes, hnext⟩ := reader_run_step h PAKFILE_COPY_CHUNK
    rw [extract_copy]
    simp only [hok, ne_eq, not_true_eq_false, if_false]
    by_cases hdone : (pakka_reader_read disk pak reader PAKFILE_COPY_CHUNK).bytes = []
    · rw [dif_pos hdone]
      have hempty : content = [] := by
        rw [hbytes] at hdone
        simpa using hdone
      refine ⟨fs, rfl, ?_⟩
      rw [hempty, List.append_nil, ← hfile, Function.update_eq_self]
    · have hlt := pakka_reader_read_progress hdone
      rw [dif_neg hdone, if_neg (by simp [Schedule.calm])]
      have hstore := Tree.store_node
        (out ++ (pakka_reader_read disk pak reader PAKFILE_COPY_CHUNK).bytes) hfile
      obtain ⟨fs', hrun, hnode⟩ := ih _ (by omega) (k := k + 1) hnext
        (by rw [hstore, Function.update_self]) rfl
      refine ⟨fs', hrun, ?_⟩
      rw [hnode, hstore, Function.update_idem, hbytes, List.append_assoc, List.take_append_drop]

/-- A reader of an entry of no bytes starts with nothing left. -/
theorem open_entry_empty {df : Deflate} {sources : CStr → SourceView} {disk : Bytes}
    {pak : Archive} {e : Entry} {r : Reader} (hstaged : e.staged = false) (hlen : e.length = 0)
    (h : pakka_open_entry_handle df sources disk pak e = .ok r) :
    pak.fp = true ∧ r.remaining = 0 := by
  unfold pakka_open_entry_handle pakka_pk3_open_entry_impl at h
  simp only [ite_error_eq_ok, hstaged, hlen, Bool.false_eq_true, if_false, if_true] at h
  refine ⟨by simpa using h.1, ?_⟩
  replace h := h.2
  split_ifs at h
  · rw [← Except.ok.inj h]
    rfl
  · simp only [except_bind_eq_ok, except_pure_eq_ok] at h
    obtain ⟨compressed, -, out, -, rfl⟩ := h
    rfl
  · simp only [except_bind_eq_ok, except_pure_eq_ok] at h
    obtain ⟨compressed, -, out, -, rfl⟩ := h
    rfl
  · rw [← Except.ok.inj h]
    rfl

theorem Delivers.nothing {df : Deflate} {sources : CStr → SourceView} {disk : Bytes}
    {pak : Archive} {e : Entry} {content : Bytes} (hstaged : e.staged = false)
    (hlen : e.length = 0) (h : Delivers df sources disk pak e content) : content = [] := by
  obtain ⟨r, hopen, hrun⟩ := h
  obtain ⟨hfp, hzero⟩ := open_entry_empty hstaged hlen hopen
  have hall := hrun [content.length]
  rw [reader_run_done hfp _ hzero, List.sum_singleton, List.take_length] at hall
  exact (Except.ok.inj hall).symm

/-- **The payload of an entry** becomes the contents of its target. -/
theorem extract_payload_calm {df : Deflate} {sources : CStr → SourceView} {disk : Bytes}
    {pak : Archive} {e : Entry} {content : Bytes} {tfd : List Bytes} {fs : Fs}
    (hstaged : e.staged = false) (h : Delivers df sources disk pak e content)
    (hfile : fs.node tfd = some (.file [])) :
    ∃ fs', extract_payload df sources disk pak (.calm _) e tfd fs = (.ok (), fs') ∧
      fs'.node = Function.update fs.node tfd (some (.file content)) := by
  unfold extract_payload
  by_cases hlen : e.length = 0
  · rw [if_pos hlen, h.nothing hstaged hlen, ← hfile, Function.update_eq_self]
    exact ⟨fs, rfl, rfl⟩
  · rw [if_neg hlen]
    obtain ⟨r, hopen, hrun⟩ := h
    rw [hopen]
    exact extract_copy_calm hrun hfile

/-! ## Runs

`Extracted` says of the tree which targets are files with which contents, and that everything else
in it is a directory on the way to one of them. One entry more keeps it, as long as no target is on
the way to another.
-/

/-- Where an entry goes, below the destination. -/
def target_path (e : Entry) : List Bytes := entry_components (extract_name e.filename).bytes

/-- What an extraction into an empty `dest` has made by the time the entries `written` are done:
their files, the directories on the way, and nothing else. -/
structure Extracted (content : Entry → Bytes) (dest : List Bytes) (written : List Entry) (fs : Fs) :
    Prop where
  root : fs.node dest = some .dir
  files : ∀ e ∈ written, fs.node (dest ++ target_path e) = some (.file (content e))
  only : ∀ q, q ≠ [] → fs.node (dest ++ q) ≠ none →
    (∃ e ∈ written, q = target_path e) ∨
      fs.node (dest ++ q) = some .dir ∧ ∃ e ∈ written, ∃ t, t ≠ [] ∧ target_path e = q ++ t

/-- A target that is not where another is, nor on the way to it, nor behind it. -/
def Apart (a b : Entry) : Prop :=
  ¬ target_path a <+: target_path b ∧ ¬ target_path b <+: target_path a

/-- The conditions the walk needs hold of a target apart from those written. -/
theorem Extracted.way {content : Entry → Bytes} {dest : List Bytes} {written : List Entry} {fs : Fs}
    (h : Extracted content dest written fs) {e : Entry} (hapart : ∀ x ∈ written, Apart x e)
    (hne : target_path e ≠ []) :
    (∀ s t, target_path e = s ++ t → s ≠ [] → t ≠ [] →
        fs.node (dest ++ s) = none ∨ fs.node (dest ++ s) = some .dir) ∧
      fs.node (dest ++ target_path e) = none := by
  constructor
  · intro s t hst hs ht
    by_contra hcon
    rw [not_or] at hcon
    rcases h.only s hs hcon.1 with ⟨x, hx, rfl⟩ | ⟨hdir, -⟩
    · exact (hapart x hx).1 ⟨t, hst.symm⟩
    · exact hcon.2 hdir
  · by_contra hcon
    rcases h.only _ hne hcon with ⟨x, hx, hsame⟩ | ⟨-, x, hx, t, ht, hxt⟩
    · exact (hapart x hx).1 ⟨[], by rw [List.append_nil, hsame]⟩
    · exact (hapart x hx).2 ⟨t, hxt.symm⟩

theorem length_le_of_mem_components {bs s : Bytes} (h : s ∈ entry_components bs) :
    s.length ≤ bs.length := by
  induction bs generalizing s with
  | nil =>
    rw [List.mem_singleton.mp h]
    exact Nat.le_refl 0
  | cons c bs ih =>
    rw [entry_components, List.splitOnP_cons_eq_if_modifyHead] at h
    rw [List.length_cons]
    split_ifs at h
    · rcases List.mem_cons.mp h with rfl | h
      · exact Nat.zero_le _
      · exact Nat.le_succ_of_le (ih h)
    · obtain ⟨x, xs, hx⟩ := List.exists_cons_of_ne_nil (List.splitOnP_ne_nil is_separator bs)
      rw [hx, List.modifyHead_cons] at h
      unfold entry_components at ih
      rw [hx] at ih
      rcases List.mem_cons.mp h with rfl | h
      · rw [List.length_cons]
        exact Nat.succ_le_succ (ih List.mem_cons_self)
      · exact Nat.le_succ_of_le (ih (List.mem_cons_of_mem _ h))

/-- **One more entry**, apart from those before it. -/
theorem Extracted.step {df : Deflate} {sources : CStr → SourceView} {disk : Bytes} {pak : Archive}
    {content : Entry → Bytes} {dest : List Bytes} {written : List Entry} {fs : Fs}
    (h : Extracted content dest written fs) {e : Entry} (hstaged : e.staged = false)
    (hsafe : pakka_unsafe_entry_name (extract_name e.filename) = false)
    (hfits : (extract_name e.filename).strlen < OS_PATH_MAX)
    (hread : Delivers df sources disk pak e (content e))
    (hapart : ∀ x ∈ written, Apart x e) :
    ∃ fs', extract_entry df sources disk pak (.calm _) (dest.map Comp.name) e fs = (.ok (), fs') ∧
      Extracted content dest (written ++ [e]) fs' := by
  have hcomps := pakka_unsafe_entry_name_eq_false.mp hsafe
  have hne : target_path e ≠ [] := List.splitOnP_ne_nil _ _
  obtain ⟨hway, hfree⟩ := h.way hapart hne
  have hopened := extract_walk_calm (extract_name e.filename).bytes [] 0 (by simp) hcomps
    (fun s hs => Nat.lt_of_le_of_lt (length_le_of_mem_components hs) hfits) h.root hway hfree
  have hw := extract_walk_spec (.calm _) (extract_name e.filename).bytes [] 0 dest fs (by simp)
    hcomps
  rw [List.nil_append] at hw hopened
  obtain ⟨o, fs₁, hwalk⟩ : ∃ o fs₁, extract_walk (.calm _) (extract_name e.filename).bytes [] 0
      dest fs = (o, fs₁) := ⟨_, _, rfl⟩
  rw [hwalk] at hw hopened
  obtain rfl : o = some (dest ++ target_path e) := hopened
  obtain ⟨-, hfile⟩ := hw.target _ rfl
  obtain ⟨fs₂, hpayload, hnode⟩ := extract_payload_calm hstaged hread hfile
  refine ⟨fs₂, ?_, ?_⟩
  · unfold extract_entry pakka_platform_open_extract_target
    rw [attempt_calm, Tree.openat_real h.root]
    simp only [hwalk, hpayload]
    rw [if_neg (by simp [Schedule.calm])]
  -- where the walk and the copy left things alone, nothing was before
  have hother : ∀ p, fs₂.node p ≠ fs.node p → p = dest ++ target_path e ∨
      ∃ s t, s ≠ [] ∧ t ≠ [] ∧ target_path e = s ++ t ∧ p = dest ++ s ∧ fs.node p = none ∧
        fs₂.node p = some .dir := by
    intro p hp
    by_cases hpt : p = dest ++ target_path e
    · exact Or.inl hpt
    rw [hnode, Function.update_of_ne hpt] at hp ⊢
    cases hw.changed p hp with
    | made s t hs ht hst hps before after => exact Or.inr ⟨s, t, hs, ht, hst, hps, before, after⟩
    | opened _ hps _ _ => exact absurd hps hpt
  constructor
  · by_contra hcon
    rcases hother dest (by rw [h.root]; exact hcon) with hself | ⟨s, -, hs, -, -, hself, -⟩
    · exact hne (List.self_eq_append_right.mp hself)
    · exact hs (List.self_eq_append_right.mp hself)
  · intro x hx
    rcases List.mem_append.mp hx with hx | hx
    · by_contra hcon
      have hbefore := h.files x hx
      rcases hother _ (by rw [hbefore]; exact hcon) with hself | ⟨s, t, -, -, -, hself, hnone, -⟩
      · refine (hapart x hx).1 ⟨[], ?_⟩
        rw [List.append_nil, List.append_cancel_left hself]
      · rw [hnone] at hbefore
        cases hbefore
    · rw [List.mem_singleton.mp hx, hnode, Function.update_self]
  · intro q hq hthere
    by_cases hsame : fs₂.node (dest ++ q) = fs.node (dest ++ q)
    · rw [hsame] at hthere ⊢
      rcases h.only q hq hthere with ⟨x, hx, hqx⟩ | ⟨hdir, x, hx, t, ht, hxt⟩
      · exact Or.inl ⟨x, List.mem_append_left _ hx, hqx⟩
      · exact Or.inr ⟨hdir, x, List.mem_append_left _ hx, t, ht, hxt⟩
    · have hlast : e ∈ written ++ [e] := List.mem_append_right _ List.mem_cons_self
      rcases hother _ hsame with hself | ⟨s, t, hs, ht, hst, hself, -, hdir⟩
      · exact Or.inl ⟨e, hlast, List.append_cancel_left hself⟩
      · obtain rfl := List.append_cancel_left hself
        exact Or.inr ⟨hdir, e, hlast, t, ht, hst⟩

/-- **A whole run** over entries apart from each other. -/
theorem Extracted.run {df : Deflate} {sources : CStr → SourceView} {disk : Bytes} {pak : Archive}
    {content : Entry → Bytes} {dest : List Bytes} (chosen : List Entry) {written : List Entry}
    {fs : Fs} (h : Extracted content dest written fs)
    (hstaged : ∀ e ∈ chosen, e.staged = false)
    (hsafe : ∀ e ∈ chosen, pakka_unsafe_entry_name (extract_name e.filename) = false)
    (hfits : ∀ e ∈ chosen, (extract_name e.filename).strlen < OS_PATH_MAX)
    (hread : ∀ e ∈ chosen, Delivers df sources disk pak e (content e))
    (hapart : (written ++ chosen).Pairwise Apart) (i : ℕ) :
    ∃ fs', extract_entries df sources disk pak (fun _ => .calm _) (dest.map Comp.name) i chosen fs =
        (.ok (), fs') ∧
      Extracted content dest (written ++ chosen) fs' := by
  induction chosen generalizing written fs i with
  | nil => exact ⟨fs, rfl, by rwa [List.append_nil]⟩
  | cons e es ih =>
    rw [List.forall_mem_cons] at hstaged hsafe hfits hread
    have hnew : ∀ x ∈ written, Apart x e := by
      intro x hx
      exact (List.pairwise_append.mp hapart).2.2 x hx e List.mem_cons_self
    obtain ⟨fs₁, hentry, h₁⟩ := h.step hstaged.1 hsafe.1 hfits.1 hread.1 hnew
    rw [List.append_cons] at hapart ⊢
    obtain ⟨fs₂, hrest, h₂⟩ := ih h₁ hstaged.2 hsafe.2 hfits.2 hread.2 hapart (i + 1)
    refine ⟨fs₂, ?_, h₂⟩
    rw [extract_entries, hentry]
    exact hrest

/-! ## Everything is written, exactly when no target is on the way to another

One direction is the run. For the other, the second of two such entries finds a file where it needs
a directory, or a directory where it needs a file.
-/

/-- The first target is a directory on the way to the second. -/
def OnTheWay (a b : Entry) : Prop := ∃ t, t ≠ [] ∧ target_path b = target_path a ++ t

/-- What passed the preflight is apart, but for targets on the way to others. -/
theorem chosen_apart {pak : Archive} {paths : List CStr} {chosen : List Entry}
    (hl : Listing pak) (hpre : op_extract_preflight pak paths = .ok chosen)
    (hway : ∀ a ∈ chosen, ∀ b ∈ chosen, ¬ OnTheWay a b) : chosen.Pairwise Apart := by
  obtain ⟨hsub, hsafe, hnodup⟩ := op_extract_preflight_ok hpre
  rw [List.Nodup, List.pairwise_map] at hnodup
  refine hnodup.imp_of_mem ?_
  intro a b ha hb hne
  have hdistinct : target_path a ≠ target_path b := by
    intro heq
    apply hne
    rw [extract_norm_safe (hl.fits a (hsub.subset ha)) (hsafe a ha),
      extract_norm_safe (hl.fits b (hsub.subset hb)) (hsafe b hb), map_fold_eq_intercalate,
      map_fold_eq_intercalate]
    exact congrArg (fun l => List.intercalate [0x2F] (l.map (List.map ascii_lower))) heq
  have hno : ∀ {x y : Entry}, ¬ OnTheWay x y → target_path x ≠ target_path y →
      ¬ target_path x <+: target_path y := by
    rintro x y hxy hne ⟨t, ht⟩
    by_cases hnil : t = []
    · rw [hnil, List.append_nil] at ht
      exact hne ht
    · exact hxy ⟨t, hnil, ht.symm⟩
  exact ⟨hno (hway a ha b hb) hdistinct, hno (hway b hb a ha) hdistinct.symm⟩

/-- The write pass of `op_extract`, once destination and preflight are through. -/
theorem op_extract_eq {df : Deflate} {sources : CStr → SourceView} {disk : Bytes} {pak : Archive}
    {faults : ℕ → Schedule ExtractSite} {destination : List (Comp Bytes)} {paths : List CStr}
    {fs fs' : Fs} {dest : List Bytes} {chosen : List Entry}
    (hdest : fs.openat [] destination { directory := true } = .ok (dest, fs'))
    (hpre : op_extract_preflight pak paths = .ok chosen) :
    op_extract df sources disk pak faults destination paths fs =
      extract_entries df sources disk pak faults (dest.map Comp.name) 0 chosen fs := by
  unfold op_extract
  rw [hdest]
  simp only [hpre]

/-- A file on the way to a file is a contradiction in any tree. -/
theorem no_file_on_the_way {fs : Fs} {dest : List Bytes} {a b : Entry} {ca cb : Bytes}
    (ha : fs.node (dest ++ target_path a) = some (.file ca))
    (hb : fs.node (dest ++ target_path b) = some (.file cb)) : ¬ OnTheWay a b := by
  rintro ⟨t, ht, heq⟩
  rw [heq, ← List.append_assoc] at hb
  have hdir := Tree.dir_of_prefix (t := fs) (by rw [hb]; rfl) ht
  rw [ha] at hdir
  cases hdir

/-- **When a preflighted extraction writes everything.** Into an empty destination, with nothing
failing and every selected entry readable: the extraction completes and leaves under the destination
one regular file for each selected entry, with its content, at the path its target name denotes,
and no other regular file, if and only if no target is a directory on the way to another. -/
theorem op_extract_writes_all_iff (df : Deflate) (sources : CStr → SourceView) (path : CStr)
    (mode : OpenMode) (hint : Format) (disk : Bytes) (pak : Archive) (paths : List CStr)
    (chosen : List Entry) (destination : List (Comp Bytes)) (dest : List Bytes) (fs : Fs)
    (content : Entry → Bytes) (hopen : pakka_open_ex path mode hint (some disk) = .ok pak)
    (hpre : op_extract_preflight pak paths = .ok chosen)
    (hdest : fs.openat [] destination { directory := true } = .ok (dest, fs))
    (hempty : ∀ q, q ≠ [] → fs.node (dest ++ q) = none)
    (hread : ∀ e ∈ chosen, Delivers df sources disk pak e (content e)) :
    let r := op_extract df sources disk pak (fun _ => .calm _) destination paths fs
    (r.1 = .ok () ∧ ∀ q c, r.2.node (dest ++ q) = some (.file c) ↔
        ∃ e ∈ chosen, q = target_path e ∧ c = content e) ↔
      ∀ a ∈ chosen, ∀ b ∈ chosen, ¬ OnTheWay a b := by
  intro r
  have hl := open_listing hopen
  obtain ⟨hsub, -, -⟩ := op_extract_preflight_ok hpre
  obtain ⟨hroot, -⟩ := Tree.openat_directory_ok fs.root hdest
  constructor
  · rintro ⟨-, hfiles⟩ a ha b hb
    exact no_file_on_the_way ((hfiles _ _).mpr ⟨a, ha, rfl, rfl⟩)
      ((hfiles _ _).mpr ⟨b, hb, rfl, rfl⟩)
  · intro hway
    -- a target is no longer than its name, so every component fits the walk's buffer
    have hshort : ∀ e ∈ chosen, (extract_name e.filename).strlen < OS_PATH_MAX := by
      intro e he
      have hfits := hl.fits e (hsub.subset he)
      have hlen := (extract_name_underscored hfits).length_eq
      have hsize : PAKKA_ENTRY_NAME_SIZE = 256 := rfl
      have hmax : OS_PATH_MAX = 4096 := rfl
      simp only [CStr.strlen] at hfits ⊢
      omega
    have hstart : Extracted content dest [] fs := by
      refine ⟨hroot, by simp, ?_⟩
      intro q hq hthere
      exact absurd (hempty q hq) hthere
    obtain ⟨fs', hrun, hdone⟩ := hstart.run chosen (fun e he => hl.on_disk e (hsub.subset he))
      (op_extract_safe_targets hl hpre) hshort hread
      (by rw [List.nil_append]; exact chosen_apart hl hpre hway) 0
    have hr : r = (.ok (), fs') := (op_extract_eq hdest hpre).trans hrun
    rw [List.nil_append] at hdone
    rw [hr]
    refine ⟨rfl, ?_⟩
    intro q c
    constructor
    · intro hq
      have hne : q ≠ [] := by
        rintro rfl
        rw [List.append_nil, hdone.root] at hq
        cases hq
      rcases hdone.only q hne (by rw [hq]; simp) with ⟨e, he, rfl⟩ | ⟨hdir, -⟩
      · rw [hdone.files e he] at hq
        exact ⟨e, he, rfl, (Node.file.inj (Option.some.inj hq)).symm⟩
      · rw [hdir] at hq
        cases hq
    · rintro ⟨e, he, rfl, rfl⟩
      exact hdone.files e he

/-- The tree of an empty root. -/
def bare_tree : Fs where
  node p := if p = [] then some .dir else none
  root := by simp
  parent := by
    intro p n h
    simp at h

/-- A PAK file with two bytes under `a` and one under `d/b`. -/
def nested_pak : Bytes :=
  ascii "PACK" ++ put32 15 ++ put32 128 ++ [1, 2, 3] ++
    (ascii "a" ++ List.replicate 55 0 ++ put32 12 ++ put32 2) ++
    (ascii "d/b" ++ List.replicate 53 0 ++ put32 14 ++ put32 1)

/-- The handle it opens as. -/
def nested_handle : Archive :=
  opened_pak .read .pak ⟨ascii "PACK", 56, 64, false⟩ nested_pak 15 128

/-- A file at the top and a file in a directory are both written, with their bytes, and the directory
is made. -/
theorem op_extract_writes_all_nested :
    let r := op_extract .storing (fun _ => .ofFile []) nested_pak nested_handle (fun _ => .calm _) []
      [] bare_tree
    (r.1 = .ok () ∧ ∀ q c, r.2.node ([] ++ q) = some (.file c) ↔ ∃ e ∈ nested_handle.entries,
        q = target_path e ∧ c = slice nested_pak e.offset.toNat e.length.toNat) ∧
      r.2.node [ascii "d", ascii "b"] = some (.file [3]) := by
  have hplain : ∀ e ∈ nested_handle.entries, e.staged = false ∧
      e.offset.toNat + e.length.toNat ≤ nested_pak.length := by decide +kernel
  have hpaths : ∀ e ∈ nested_handle.entries, target_path e = [ascii "a"] ∨
      target_path e = [ascii "d", ascii "b"] := by decide +kernel
  have hboth := (op_extract_writes_all_iff .storing (fun _ => .ofFile []) CStr.empty .read .pak
    nested_pak nested_handle [] nested_handle.entries [] [] bare_tree
    (fun e => slice nested_pak e.offset.toNat e.length.toNat) (by decide +kernel)
    (by decide +kernel) (Tree.openat_real bare_tree.root) (by simp [bare_tree])
    (fun e he => delivers_plain rfl rfl (hplain e he).1 (fun hd => nomatch hd.1)
      (hplain e he).2)).mpr ?_
  · have hentry : ∃ e ∈ nested_handle.entries, [ascii "d", ascii "b"] = target_path e ∧
        [3] = slice nested_pak e.offset.toNat e.length.toNat := by decide +kernel
    exact ⟨hboth, (hboth.2 _ _).mpr hentry⟩
  · rintro a ha b hb ⟨t, ht, heq⟩
    rcases hpaths a ha with h | h <;> rcases hpaths b hb with h' | h' <;> rw [h, h'] at heq
    · exact ht (List.self_eq_append_right.mp heq)
    · exact absurd (List.cons.inj heq).1 (by decide)
    · exact absurd (List.cons.inj heq).1 (by decide)
    · exact ht (List.self_eq_append_right.mp heq)

/-- A file `a` and a file `a/b`: the preflight passes, both are readable, and the extraction dies
half way. -/
theorem op_extract_file_on_the_way :
    pakka_open_ex CStr.empty .read .auto (some (two_entry_pak (ascii "a") (ascii "a/b"))) =
        .ok (two_entry_handle (ascii "a") (ascii "a/b")) ∧
      op_extract_preflight (two_entry_handle (ascii "a") (ascii "a/b")) [] =
        .ok (two_entry_handle (ascii "a") (ascii "a/b")).entries ∧
      (∀ e ∈ (two_entry_handle (ascii "a") (ascii "a/b")).entries,
        Delivers .storing (fun _ => .ofFile []) (two_entry_pak (ascii "a") (ascii "a/b"))
          (two_entry_handle (ascii "a") (ascii "a/b")) e []) ∧
      (op_extract .storing (fun _ => .ofFile []) (two_entry_pak (ascii "a") (ascii "a/b"))
        (two_entry_handle (ascii "a") (ascii "a/b")) (fun _ => .calm _) [] [] bare_tree).1 =
        .error (.target (.ofField (ascii "a/b"))) := by
  have hread : ∀ e ∈ (two_entry_handle (ascii "a") (ascii "a/b")).entries,
      e.staged = false ∧ e.length = 0 ∧
        e.offset.toNat ≤ (two_entry_pak (ascii "a") (ascii "a/b")).length := by decide +kernel
  refine ⟨by decide +kernel, by decide +kernel, fun e he => ?_, by decide +kernel⟩
  obtain ⟨hstaged, hlen, hin⟩ := hread e he
  have hdelivers := @delivers_plain .storing (fun _ => .ofFile []) _
    (two_entry_handle (ascii "a") (ascii "a/b")) e rfl rfl hstaged (fun hd => nomatch hd.1)
    (by rw [hlen]; exact hin)
  rwa [hlen] at hdelivers

end Pakka
