/-
System calls that may fail, and what is known of a computation whatever fails.

A schedule says of every call site of a computation whether the call made there fails, and
how much of a failing write still reached the file. Quantifying over schedules is
quantifying over all ways a computation can be interrupted.

Three facts about a computation recur. `Confined` holds of every run, interrupted or not: all
it did was write to one file, and nowhere between two positions. `WritesAt` holds of a finished
one: its writes amount to one. And where nothing fails, `Completes` is composed from the parts.
-/
import Pakka.Lib.Logged

set_option autoImplicit false

open ByteImage

/-- Which call sites fail, and how many bytes a failing write gets through. -/
structure Schedule (P : Type) where
  fails : P → Bool
  cut : P → ℕ

/-- Nothing fails. -/
def Schedule.calm (P : Type) : Schedule P := ⟨fun _ => false, fun _ => 0⟩

namespace Logged

variable {ι ε α β P : Type}

/-! ## Primitives

A call that may fail and a write that may end early.
-/

/-- A call that changes no file. -/
def call (σ : Schedule P) (p : P) (e : ε) : Logged ι ε Unit :=
  if σ.fails p then fail e else pure ()

/-- A write, which on failure may have got through in part. -/
def writeAt (σ : Schedule P) (p : P) (f : ι) (off : ℕ) (bs : Bytes) (e : ε) : Logged ι ε Unit :=
  if σ.fails p then ⟨[.write f off (bs.take (σ.cut p))], .error e⟩ else emit (.write f off bs)

/-- Clean up if a computation fails. -/
def onError (x : Logged ι ε α) (ops : List (FileOp ι)) : Logged ι ε α :=
  match x.res with
  | .ok _ => x
  | .error e => ⟨x.log ++ ops, .error e⟩

/-- Report a failure differently. -/
def mapError (x : Logged ι ε α) {ε' : Type} (g : ε → ε') : Logged ι ε' α :=
  ⟨x.log, x.res.mapError g⟩

/-- Copy `remaining` bytes of `src` from `pos` on to position `dst` of `f`, a chunk of at most
`size` at a time. The result is what went through. -/
def copyChunks (σ : Schedule P) (rd wr : ℕ → P) (size : ℕ) (src : Bytes) (f : ι) (e : ε)
    (remaining pos dst k : ℕ) : Logged ι ε Bytes :=
  if _h : remaining = 0 ∨ size = 0 then pure []
  else do
    let n := min remaining size
    call σ (rd k) e
    let bs ← ofOption (readExact src pos n) e
    writeAt σ (wr k) f dst bs e
    let rest ← copyChunks σ rd wr size src f e (remaining - n) (pos + n) (dst + n) (k + 1)
    pure (bs ++ rest)
  termination_by remaining
  decreasing_by omega

@[simp] theorem call_log (σ : Schedule P) (p : P) (e : ε) :
    (call σ p e : Logged ι ε Unit).log = [] := by
  unfold call
  split_ifs <;> rfl

@[simp] theorem call_res_ok (σ : Schedule P) (p : P) (e : ε) (u : Unit) :
    (call σ p e : Logged ι ε Unit).res = .ok u ↔ σ.fails p = false := by
  unfold call
  split_ifs with h <;> simp [h]

@[simp] theorem writeAt_res_ok (σ : Schedule P) (p : P) (f : ι) (off : ℕ) (bs : Bytes) (e : ε)
    (u : Unit) : (writeAt σ p f off bs e).res = .ok u ↔ σ.fails p = false := by
  unfold writeAt
  split_ifs with h <;> simp [h]

theorem writeAt_log_of_ok {σ : Schedule P} {p : P} {f : ι} {off : ℕ} {bs : Bytes} {e : ε}
    (h : σ.fails p = false) : (writeAt σ p f off bs e).log = [.write f off bs] := by
  unfold writeAt
  rw [h]
  rfl

theorem onError_res (x : Logged ι ε α) (ops : List (FileOp ι)) : (x.onError ops).res = x.res := by
  unfold onError
  split <;> simp_all

theorem onError_log_of_ok {x : Logged ι ε α} {ops : List (FileOp ι)} {a : α}
    (h : x.res = .ok a) : (x.onError ops).log = x.log := by
  unfold onError
  rw [h]

theorem forall_mem_onError {Q : FileOp ι → Prop} {x : Logged ι ε α} {ops : List (FileOp ι)}
    (hx : ∀ op ∈ x.log, Q op) (hops : ∀ op ∈ ops, Q op) : ∀ op ∈ (x.onError ops).log, Q op := by
  unfold onError
  split
  · exact hx
  · intro op ho
    rcases List.mem_append.mp ho with h | h
    · exact hx op h
    · exact hops op h

@[simp] theorem mapError_log {ε' : Type} (x : Logged ι ε α) (g : ε → ε') :
    (x.mapError g).log = x.log := rfl

@[simp] theorem mapError_res_ok {ε' : Type} {x : Logged ι ε α} {g : ε → ε'} {a : α} :
    (x.mapError g).res = .ok a ↔ x.res = .ok a := by
  unfold mapError
  cases h : x.res <;> simp [Except.mapError]

/-! ## Errors

`FailsWith` is closed under all ways to put computations together.
-/

/-- Every error a computation can end with satisfies `Q`. -/
def FailsWith (Q : ε → Prop) (x : Logged ι ε α) : Prop := ∀ e, x.res = .error e → Q e

section

variable {Q : ε → Prop}

@[simp] theorem failsWith_pure (a : α) : FailsWith Q (pure a : Logged ι ε α) := by
  intro e h
  cases h

@[simp] theorem failsWith_emit (op : FileOp ι) : FailsWith Q (emit op : Logged ι ε Unit) := by
  intro e h
  cases h

@[simp] theorem failsWith_fail {e : ε} : FailsWith Q (fail e : Logged ι ε α) ↔ Q e := by
  constructor
  · exact fun h => h e rfl
  · rintro h e' he
    exact Except.error.inj he ▸ h

/-- Errors of a sequence are errors of its parts. -/
theorem FailsWith.bind {x : Logged ι ε α} {k : α → Logged ι ε β} (hx : FailsWith Q x)
    (hk : ∀ a, FailsWith Q (k a)) : FailsWith Q (x >>= k) := by
  intro e h
  change (Logged.bind x k).res = _ at h
  unfold Logged.bind at h
  cases hr : x.res with
  | ok a =>
    rw [hr] at h
    exact hk a e h
  | error e' =>
    rw [hr] at h
    exact Except.error.inj h ▸ hx e' hr

theorem FailsWith.ite {c : Prop} [Decidable c] {x y : Logged ι ε α} (hx : FailsWith Q x)
    (hy : FailsWith Q y) : FailsWith Q (if c then x else y) := by
  split_ifs
  · exact hx
  · exact hy

theorem failsWith_call {σ : Schedule P} {p : P} {e : ε} (h : Q e) :
    FailsWith Q (call σ p e : Logged ι ε Unit) :=
  FailsWith.ite (failsWith_fail.mpr h) (failsWith_pure ())

theorem failsWith_writeAt {σ : Schedule P} {p : P} {f : ι} {off : ℕ} {bs : Bytes} {e : ε}
    (h : Q e) : FailsWith Q (writeAt σ p f off bs e) := by
  refine FailsWith.ite (fun e' he => ?_) (failsWith_emit _)
  exact Except.error.inj he ▸ h

theorem failsWith_ofOption {o : Option α} {e : ε} (h : Q e) :
    FailsWith Q (ofOption o e : Logged ι ε α) := by
  cases o with
  | none => exact failsWith_fail.mpr h
  | some a => exact failsWith_pure a

theorem failsWith_ofExcept {x : Except ε α} (h : ∀ e, x = .error e → Q e) :
    FailsWith Q (ofExcept x : Logged ι ε α) := h

theorem failsWith_mapError {ε' : Type} {x : Logged ι ε' α} {g : ε' → ε}
    (h : FailsWith (fun e => Q (g e)) x) : FailsWith Q (x.mapError g) := by
  intro e he
  unfold mapError at he
  cases hr : x.res with
  | ok a =>
    rw [hr] at he
    cases he
  | error e' =>
    rw [hr] at he
    exact Except.error.inj he ▸ h e' hr

theorem failsWith_onError {x : Logged ι ε α} {ops : List (FileOp ι)} (h : FailsWith Q x) :
    FailsWith Q (x.onError ops) := by
  intro e he
  rw [onError_res] at he
  exact h e he

theorem failsWith_copyChunks {σ : Schedule P} {rd wr : ℕ → P} {size : ℕ} {src : Bytes} {f : ι}
    {e : ε} (h : Q e) (remaining : ℕ) {pos dst k : ℕ} :
    FailsWith Q (copyChunks σ rd wr size src f e remaining pos dst k) := by
  induction remaining using Nat.strongRecOn generalizing pos dst k with
  | ind remaining ih =>
    rw [copyChunks]
    split
    · exact failsWith_pure _
    · refine (failsWith_call h).bind fun _ => (failsWith_ofOption h).bind fun _ => ?_
      refine (failsWith_writeAt h).bind fun _ => ?_
      exact (ih _ (by omega)).bind fun _ => failsWith_pure _

end

/-! ## Success

The same for completing when nothing fails.
-/

/-- A computation ends without an error. -/
def Completes (x : Logged ι ε α) : Prop := ∃ a, x.res = .ok a

theorem completes_pure (a : α) : Completes (pure a : Logged ι ε α) := ⟨a, rfl⟩

theorem completes_emit (op : FileOp ι) : Completes (emit op : Logged ι ε Unit) := ⟨(), rfl⟩

theorem completes_call {σ : Schedule P} {p : P} {e : ε} (h : σ.fails p = false) :
    Completes (call σ p e : Logged ι ε Unit) := ⟨(), (call_res_ok σ p e ()).mpr h⟩

theorem completes_writeAt {σ : Schedule P} {p : P} {f : ι} {off : ℕ} {bs : Bytes} {e : ε}
    (h : σ.fails p = false) : Completes (writeAt σ p f off bs e) :=
  ⟨(), (writeAt_res_ok σ p f off bs e ()).mpr h⟩

/-- A sequence succeeds when its second part does on what the first delivered. -/
theorem Completes.bind {x : Logged ι ε α} {k : α → Logged ι ε β} (hx : Completes x)
    (hk : ∀ a, x.res = .ok a → Completes (k a)) : Completes (x >>= k) := by
  obtain ⟨a, ha⟩ := hx
  obtain ⟨b, hb⟩ := hk a ha
  exact ⟨b, bind_res_ok.mpr ⟨a, ha, hb⟩⟩

theorem Completes.mapError {ε' : Type} {x : Logged ι ε α} (h : Completes x) (g : ε → ε') :
    Completes (x.mapError g) := by
  obtain ⟨a, ha⟩ := h
  exact ⟨a, mapError_res_ok.mpr ha⟩

theorem Completes.onError {x : Logged ι ε α} (h : Completes x) (ops : List (FileOp ι)) :
    Completes (x.onError ops) := by
  obtain ⟨a, ha⟩ := h
  exact ⟨a, by rw [onError_res, ha]⟩

/-- **A copy of a range that is there**, when nothing fails. -/
theorem completes_copyChunks {σ : Schedule P} (hcalm : ∀ p, σ.fails p = false) {rd wr : ℕ → P}
    {size : ℕ} {src : Bytes} {f : ι} {e : ε} (remaining : ℕ) {pos dst k : ℕ}
    (h : remaining = 0 ∨ pos + remaining ≤ src.length) :
    Completes (copyChunks σ rd wr size src f e remaining pos dst k) := by
  induction remaining using Nat.strongRecOn generalizing pos dst k with
  | ind remaining ih =>
    rw [copyChunks]
    by_cases h0 : remaining = 0 ∨ size = 0
    · rw [dif_pos h0]
      exact completes_pure _
    · rw [dif_neg h0]
      have hchunk : readExact src pos (min remaining size) =
          some (slice src pos (min remaining size)) := readExact_of_le (by omega)
      apply (completes_call (hcalm _)).bind
      intro _ _
      apply Completes.bind ⟨_, (ofOption_res_ok _ _ _).mpr hchunk⟩
      intro bs _
      apply (completes_writeAt (hcalm _)).bind
      intro _ _
      apply (ih _ (by omega) (by omega)).bind
      intro rest _
      exact completes_pure _

/-! ## Confinement

And for what a run may touch.
-/

/-- All a log does is write to `f`, and nothing between `lo` and `hi`. -/
def Confined (f : ι) (lo hi : ℕ) (log : List (FileOp ι)) : Prop :=
  ∀ op ∈ log, ∃ off bs, op = .write f off bs ∧ (off + bs.length ≤ lo ∨ hi ≤ off)

theorem Confined.nil (f : ι) (lo hi : ℕ) : Confined f lo hi [] := by
  intro op ho
  cases ho

theorem Confined.bind {f : ι} {lo hi : ℕ} {x : Logged ι ε α} {k : α → Logged ι ε β}
    (hx : Confined f lo hi x.log) (hk : ∀ a, x.res = .ok a → Confined f lo hi (k a).log) :
    Confined f lo hi (x >>= k).log :=
  forall_mem_bind hx hk

theorem confined_call (f : ι) (lo hi : ℕ) (σ : Schedule P) (p : P) (e : ε) :
    Confined f lo hi (call σ p e : Logged ι ε Unit).log := by
  rw [call_log]
  exact Confined.nil f lo hi

theorem confined_ofOption (f : ι) (lo hi : ℕ) (o : Option α) (e : ε) :
    Confined f lo hi (ofOption o e : Logged ι ε α).log := by
  rw [ofOption_log]
  exact Confined.nil f lo hi

theorem confined_writeAt {σ : Schedule P} {p : P} {f : ι} {lo hi off : ℕ} {bs : Bytes} {e : ε}
    (h : off + bs.length ≤ lo ∨ hi ≤ off) : Confined f lo hi (writeAt σ p f off bs e).log := by
  unfold writeAt
  intro op ho
  split_ifs at ho
  · refine ⟨off, _, List.mem_singleton.mp ho, ?_⟩
    rw [List.length_take]
    omega
  · exact ⟨off, bs, List.mem_singleton.mp ho, h⟩

theorem confined_copyChunks {σ : Schedule P} {rd wr : ℕ → P} {size : ℕ} {src : Bytes} {f : ι}
    {e : ε} {lo hi : ℕ} (remaining : ℕ) {pos dst k : ℕ} (h : hi ≤ dst) :
    Confined f lo hi (copyChunks σ rd wr size src f e remaining pos dst k).log := by
  induction remaining using Nat.strongRecOn generalizing pos dst k with
  | ind remaining ih =>
    rw [copyChunks]
    split
    · exact Confined.nil f lo hi
    · refine Confined.bind (confined_call f lo hi σ _ e) fun _ _ => ?_
      refine Confined.bind (confined_ofOption f lo hi _ e) fun bs _ => ?_
      refine Confined.bind (confined_writeAt (Or.inr h)) fun _ _ => ?_
      refine Confined.bind (ih _ (by omega) (by omega)) fun _ _ => ?_
      exact Confined.nil f lo hi

variable [DecidableEq ι]

/-- Writes to `f`, none of which puts a byte between `lo` and `hi`, leave it the same there. -/
theorem sameBetween_run {f : ι} {lo hi : ℕ} {log : List (FileOp ι)}
    (h : ∀ op ∈ log, ∃ off bs, op = .write f off bs ∧
      (bs = [] ∨ off + bs.length ≤ lo ∨ hi ≤ off)) {fs : Files ι} {c : Bytes} (hc : fs f = some c) :
    ∃ c', FileOp.run fs log f = some c' ∧ SameBetween lo hi c c' := by
  induction log generalizing fs c with
  | nil => exact ⟨c, hc, SameBetween.refl _ _ _⟩
  | cons op log ih =>
    obtain ⟨off, bs, rfl, hoff⟩ := h op List.mem_cons_self
    have hstep : FileOp.apply fs (.write f off bs) f = some (overwrite c off bs) := by
      simp [FileOp.apply, hc]
    have hsame : SameBetween lo hi c (overwrite c off bs) := by
      rcases hoff with rfl | hoff
      · rw [overwrite_nil]
        exact SameBetween.refl _ _ _
      · exact sameBetween_overwrite hoff
    obtain ⟨c', hrun, hrest⟩ := ih (fun o ho => h o (List.mem_cons_of_mem _ ho)) hstep
    exact ⟨c', hrun, hsame.trans hrest⟩

/-- A confined log leaves its file the same between `lo` and `hi`. -/
theorem Confined.run_self {f : ι} {lo hi : ℕ} {log : List (FileOp ι)} (h : Confined f lo hi log)
    {fs : Files ι} {c : Bytes} (hc : fs f = some c) :
    ∃ c', FileOp.run fs log f = some c' ∧ SameBetween lo hi c c' := by
  apply sameBetween_run ?_ hc
  intro op ho
  obtain ⟨off, bs, hop, hoff⟩ := h op ho
  exact ⟨off, bs, hop, Or.inr hoff⟩

/-! ## Finished writes

What a run that was not interrupted has written.
-/

/-- A log amounts to writing `bs` at `off` of `f`. -/
def WritesAt (f : ι) (off : ℕ) (bs : Bytes) (log : List (FileOp ι)) : Prop :=
  ∀ (fs : Files ι) (c : Bytes), fs f = some c →
    FileOp.run fs log f = some (overwrite c off bs)

theorem WritesAt.nil (f : ι) (off : ℕ) : WritesAt f off [] ([] : List (FileOp ι)) := by
  intro fs c hc
  rw [FileOp.run_nil, hc, overwrite_nil]

theorem WritesAt.single (f : ι) (off : ℕ) (bs : Bytes) : WritesAt f off bs [.write f off bs] :=
  fun _ _ hc => FileOp.run_write hc

/-- Writes one behind the other. -/
theorem WritesAt.append {f : ι} {off off' : ℕ} {bs cs : Bytes} {l m : List (FileOp ι)}
    (hl : WritesAt f off bs l) (hm : WritesAt f off' cs m) (hoff : off' = off + bs.length) :
    WritesAt f off (bs ++ cs) (l ++ m) := by
  intro fs c hc
  subst hoff
  rw [FileOp.run_append, hm _ _ (hl fs c hc), overwrite_overwrite_adjacent]

/-- **A finished copy.** It delivers the range it was asked for, and wrote it as a whole. -/
theorem copyChunks_ok {σ : Schedule P} {rd wr : ℕ → P} {size : ℕ} {src : Bytes} {f : ι} {e : ε}
    (hsize : 0 < size) (remaining : ℕ) {pos dst k : ℕ} {bs : Bytes}
    (h : (copyChunks σ rd wr size src f e remaining pos dst k).res = .ok bs) :
    readExact src pos remaining = some bs ∧
      WritesAt f dst bs (copyChunks σ rd wr size src f e remaining pos dst k).log := by
  induction remaining using Nat.strongRecOn generalizing pos dst k bs with
  | ind remaining ih =>
    rw [copyChunks] at h ⊢
    by_cases h0 : remaining = 0 ∨ size = 0
    · rw [dif_pos h0] at h ⊢
      obtain rfl := Except.ok.inj h
      obtain rfl : remaining = 0 := by omega
      exact ⟨rfl, WritesAt.nil f dst⟩
    · rw [dif_neg h0] at h ⊢
      simp only [bind_res_ok, call_res_ok, ofOption_res_ok, writeAt_res_ok, exists_const,
        pure_res, Except.ok.injEq] at h
      obtain ⟨hrd, b, hb, hwr, rest, hrest, rfl⟩ := h
      obtain ⟨hread, hlog⟩ := ih _ (by omega) hrest
      obtain ⟨rfl, hblen⟩ := readExact_eq_some.mp hb
      obtain ⟨rfl, hrlen⟩ := readExact_eq_some.mp hread
      have hn : min remaining size + (remaining - min remaining size) = remaining := by omega
      refine ⟨readExact_eq_some.mpr ⟨?_, ?_⟩, ?_⟩
      · rw [slice_append_slice, hn]
      · rw [List.length_append, hblen, hrlen, hn]
      · rw [bind_log_of_ok (call_res_ok σ (rd k) e ()|>.mpr hrd),
          bind_log_of_ok ((ofOption_res_ok _ _ _).mpr hb),
          bind_log_of_ok ((writeAt_res_ok σ (wr k) f dst _ e ()).mpr hwr),
          bind_log_of_ok hrest, call_log, ofOption_log, writeAt_log_of_ok hwr, pure_log,
          List.nil_append, List.nil_append, List.append_nil]
        exact (WritesAt.single f dst _).append hlog (by rw [hblen])

end Logged
