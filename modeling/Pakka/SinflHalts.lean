/-
The decoder halts on every input.

A block takes bits of the stream, so there are fewer blocks than bits. At the end of the input the
reader promises bits that are not there; they are zeros, and a block of zeros is a stored block
whose two lengths do not agree. A stored block is the only one that moves the reader back, by what
the promise is too high, and that is never as much as its own header. Inside a block every round
grows what is written or the list of lengths, and both are bounded.

A loop of the source is modelled with a count. That the count is never used up is what is shown, in
the form of `Rounds`: the loop comes to a round that does not go on, and the model's value is that
round's. So a missing value means undefined and nothing else.
-/
import Pakka.SinflReader
import Pakka.Lib.Rounds

set_option autoImplicit false

namespace Pakka

open Cells BitString ByteImage Rounds

/-! ## What is left of the stream

A bound on the bits that are to come. Taking a field lowers it, wherever in the field the stream
ends.
-/

/-- At most `n` bits are to come. -/
def Left (inp : Bytes) (s : Sinfl) (n : ℕ) : Prop := ∃ rest, Reading inp s rest ∧ rest.length ≤ n

section Left

variable {inp : Bytes} {s s' : Sinfl} {rest : List Bool} {n cnt v : ℕ}

/-- A field, wherever the stream ends. -/
theorem Reading.get_any (h : Reading inp s rest) (hget : pakka_sinfl__get s cnt = some (v, s')) :
    v = toNat rest % 2 ^ cnt ∧ Reading inp s' (rest.drop cnt) ∧ cnt ≤ s.bitcnt ∧
      s'.bitcnt = s.bitcnt - cnt ∧ s'.bitptr = s.bitptr := by
  obtain ⟨res, hpeek, hrest⟩ := Option.bind_eq_some_iff.mp hget
  obtain ⟨s₁, heat, hres⟩ := Option.bind_eq_some_iff.mp hrest
  obtain ⟨rfl, rfl⟩ := Prod.mk.inj (Option.some_inj.mp hres)
  have hcnt : cnt ≤ 56 ∧ cnt ≤ s.bitcnt := by
    by_contra hcon
    rw [pakka_sinfl_peek, if_neg hcon] at hpeek
    exact absurd hpeek (by simp)
  obtain ⟨s₂, heat', hread, hleft⟩ := h.eat hcnt.2
  rw [heat] at heat'
  obtain rfl := Option.some_inj.mp heat'
  rw [h.peek hcnt.2 hcnt.1] at hpeek
  rw [pakka_sinfl_eat, if_pos hcnt.2] at heat
  refine ⟨(Option.some_inj.mp hpeek).symm, hread, hcnt.2, hleft, ?_⟩
  rw [← Option.some_inj.mp heat]

theorem Left.refill (h : Left inp s n) : Left inp (pakka_sinfl_refill inp s) n := by
  obtain ⟨rest, hread, hlen⟩ := h
  exact ⟨rest, hread.refill.1, hlen⟩

theorem Left.eat (h : Left inp s n) (heat : pakka_sinfl_eat s cnt = some s') : Left inp s' n := by
  obtain ⟨rest, hread, hlen⟩ := h
  have hcnt : cnt ≤ s.bitcnt := by
    by_contra hcon
    rw [pakka_sinfl_eat, if_neg hcon] at heat
    exact absurd heat (by simp)
  obtain ⟨s₁, heat', hread', -⟩ := hread.eat hcnt
  rw [heat] at heat'
  obtain rfl := Option.some_inj.mp heat'
  exact ⟨rest.drop cnt, hread', by rw [List.length_drop]; omega⟩

theorem Left.get (h : Left inp s n) (hget : pakka_sinfl__get s cnt = some (v, s')) :
    Left inp s' n := by
  obtain ⟨rest, hread, hlen⟩ := h
  exact ⟨rest.drop cnt, (hread.get_any hget).2.1, by rw [List.length_drop]; omega⟩

theorem Left.refill_get (h : Left inp s n) (hget : pakka_sinfl_get inp s cnt = some (v, s')) :
    Left inp s' n := h.refill.get hget

theorem Left.decode {tbl : List ℕ} {bit_len sym : ℕ} (h : Left inp s n)
    (hdec : pakka_sinfl_decode s tbl bit_len = some (sym, s')) : Left inp s' n := by
  obtain ⟨idx, -, hdec⟩ := Option.bind_eq_some_iff.mp hdec
  dsimp only at hdec
  split_ifs at hdec
  · obtain ⟨s₁, heat₁, hdec⟩ := Option.bind_eq_some_iff.mp hdec
    obtain ⟨idx', -, hdec⟩ := Option.bind_eq_some_iff.mp hdec
    obtain ⟨s₂, heat₂, hdec⟩ := Option.bind_eq_some_iff.mp hdec
    obtain ⟨-, rfl⟩ := Prod.mk.inj (Option.some_inj.mp hdec)
    exact (h.eat heat₁).eat heat₂
  · obtain ⟨s₁, heat₁, hdec⟩ := Option.bind_eq_some_iff.mp hdec
    obtain ⟨-, rfl⟩ := Prod.mk.inj (Option.some_inj.mp hdec)
    exact h.eat heat₁

end Left

/-! ## A stored block

The reader goes back by whole bytes, over bits it had not taken.
-/

section Stored

variable {inp : Bytes} {s s' : Sinfl} {rest : List Bool} {cap : ℕ}
  {out out' : Written}

/-- At the beginning of a byte. -/
theorem reading_at {p : ℕ} (hp : p ≤ inp.length) : Reading inp ⟨p, 0, 0⟩ (ofBytes (inp.drop p)) where
  suffix := by
    rw [← ofBytes_drop]
    exact List.drop_suffix _ _
  bits := fun j hj => absurd hj (Nat.not_lt_zero j)
  ahead := by simp
  cnt_le := Nat.zero_le _
  ptr_le := hp
  behind := by simp
  real := fun _ => Nat.zero_le _
  align := fun _ => by simp

/-- **A stored block goes on**, however much the promise is too high. -/
theorem stored_left (hread : Reading inp s rest) (hcnt : s.bitcnt ≤ 60)
    (hend : s.bitcnt ≤ rest.length ∨ s.bitptr = inp.length)
    (hgo : sinfl_stored inp cap s out = some (.go (s', out'))) :
    Left inp s' rest.length ∧ 32 ≤ rest.length ∧ out'.length ≤ cap ∧ out <+: out' := by
  obtain ⟨⟨pad, s₁⟩, hget₁, hgo⟩ := Option.bind_eq_some_iff.mp hgo
  obtain ⟨⟨len, s₂⟩, hget₂, hgo⟩ := Option.bind_eq_some_iff.mp hgo
  obtain ⟨⟨nlen, s₃⟩, hget₃, hgo⟩ := Option.bind_eq_some_iff.mp hgo
  obtain ⟨-, hread₁, -, hcnt₁, hptr₁⟩ := hread.get_any hget₁
  obtain ⟨-, hread₂, hle₂, hcnt₂, hptr₂⟩ := hread₁.get_any hget₂
  obtain ⟨hnlen, hread₃, hle₃, hcnt₃, hptr₃⟩ := hread₂.get_any hget₃
  have hpad : s.bitcnt &&& 7 ≤ s.bitcnt := Nat.and_le_left
  generalize s.bitcnt &&& 7 = pad₀ at *
  have hptr := hread₃.ptr_le
  have hbehind := hread₃.behind
  simp only [List.length_drop] at hbehind
  -- the reader gives back the bytes it was promised and did not use
  obtain ⟨rewind, hrewind, hle, hle'⟩ : ∃ r, r = (if s₃.bitcnt / 8 > s₃.bitptr then s₃.bitptr
      else s₃.bitcnt / 8) ∧ r ≤ s₃.bitcnt / 8 ∧ r ≤ s₃.bitptr := by
    refine ⟨_, rfl, ?_⟩
    split_ifs <;> omega
  dsimp only at hgo
  rw [← hrewind] at hgo
  split_ifs at hgo with hlens hroom hcap
  · exact nomatch hgo
  · exact nomatch hgo
  · exact nomatch hgo
  obtain ⟨rfl, rfl⟩ := Prod.mk.inj (SinflOut.go.inj (Option.some_inj.mp hgo))
  have h32 : 32 ≤ rest.length := by
    rcases hend with hreal | hend
    · omega
    · -- the two lengths agree, so the second is there
      have hlow : 2 ^ 15 ≤ toNat ((rest.drop pad₀).drop 16) := by
        have hmod := Nat.mod_le (toNat ((rest.drop pad₀).drop 16)) (2 ^ 16)
        omega
      have hlt := toNat_lt ((rest.drop pad₀).drop 16)
      have h16 : 16 ≤ ((rest.drop pad₀).drop 16).length := by
        by_contra hcon
        have := Nat.pow_le_pow_right (show 0 < 2 by decide)
          (show ((rest.drop pad₀).drop 16).length ≤ 15 by omega)
        omega
      simp only [List.length_drop] at h16
      omega
  refine ⟨⟨_, reading_at (by omega), ?_⟩, h32, ?_, List.prefix_append _ _⟩
  · rw [length_ofBytes, List.length_drop]
    rcases hend with hreal | hend <;> omega
  · rw [List.length_append, length_known, List.length_take, List.length_drop]
    omega

theorem stored_ret (hret : sinfl_stored inp cap s out = some (.ret out')) : out' = out := by
  obtain ⟨⟨pad, s₁⟩, -, hret⟩ := Option.bind_eq_some_iff.mp hret
  obtain ⟨⟨len, s₂⟩, -, hret⟩ := Option.bind_eq_some_iff.mp hret
  obtain ⟨⟨nlen, s₃⟩, -, hret⟩ := Option.bind_eq_some_iff.mp hret
  dsimp only at hret
  generalize (if s₃.bitcnt / 8 > s₃.bitptr then s₃.bitptr else s₃.bitcnt / 8) = rewind at hret
  split_ifs at hret
  · exact (SinflOut.ret.inj (Option.some_inj.mp hret)).symm
  · exact (SinflOut.ret.inj (Option.some_inj.mp hret)).symm
  · exact nomatch hret
  · exact nomatch hret

end Stored

/-! ## A block with codes of its own

Each item adds to the list of lengths, which has an end.
-/

section Dynamic

variable {inp : Bytes} {s s' : Sinfl} {n : ℕ} {hlens lens lens' : List ℕ}

theorem nlens_left {order : List ℕ} (h : Left inp s n)
    (hnlens : sinfl_nlens inp order (s, lens) = some (s', lens')) : Left inp s' n := by
  induction order generalizing s lens with
  | nil =>
    obtain ⟨rfl, -⟩ := Prod.mk.inj (Option.some_inj.mp hnlens)
    exact h
  | cons sym order ih =>
    obtain ⟨⟨len, s₁⟩, hget, hrest⟩ := Option.bind_eq_some_iff.mp hnlens
    exact ih (h.refill_get hget) hrest

theorem run_spec {len i : ℕ} (h : sinfl_run lens len i = some lens') :
    lens'.length = lens.length + i ∧ lens'.length ≤ 320 := by
  rw [sinfl_run] at h
  split_ifs at h with hroom
  rw [← Option.some_inj.mp h, List.length_append, List.length_replicate]
  exact ⟨rfl, hroom⟩

/-- **A round** grows the list of lengths. -/
theorem lens_round_left (h : Left inp s n)
    (hround : sinfl_lens_round inp hlens s lens = some (s', lens')) :
    Left inp s' n ∧ lens.length < lens'.length ∧ lens'.length ≤ 320 := by
  obtain ⟨⟨sym, s₁⟩, hdec, hround⟩ := Option.bind_eq_some_iff.mp hround
  have h₁ := h.refill.decode hdec
  dsimp only at hround
  split_ifs at hround
  · obtain ⟨⟨i, s₂⟩, hget, hround⟩ := Option.bind_eq_some_iff.mp hround
    obtain ⟨len, -, hround⟩ := Option.bind_eq_some_iff.mp hround
    obtain ⟨lens₂, hrun, hround⟩ := Option.bind_eq_some_iff.mp hround
    obtain ⟨rfl, rfl⟩ := Prod.mk.inj (Option.some_inj.mp hround)
    have := run_spec hrun
    exact ⟨h₁.refill_get hget, by omega, by omega⟩
  · obtain ⟨⟨i, s₂⟩, hget, hround⟩ := Option.bind_eq_some_iff.mp hround
    obtain ⟨lens₂, hrun, hround⟩ := Option.bind_eq_some_iff.mp hround
    obtain ⟨rfl, rfl⟩ := Prod.mk.inj (Option.some_inj.mp hround)
    have := run_spec hrun
    exact ⟨h₁.refill_get hget, by omega, by omega⟩
  · obtain ⟨⟨i, s₂⟩, hget, hround⟩ := Option.bind_eq_some_iff.mp hround
    obtain ⟨lens₂, hrun, hround⟩ := Option.bind_eq_some_iff.mp hround
    obtain ⟨rfl, rfl⟩ := Prod.mk.inj (Option.some_inj.mp hround)
    have := run_spec hrun
    exact ⟨h₁.refill_get hget, by omega, by omega⟩
  · obtain ⟨lens₂, hrun, hround⟩ := Option.bind_eq_some_iff.mp hround
    obtain ⟨rfl, rfl⟩ := Prod.mk.inj (Option.some_inj.mp hround)
    have := run_spec hrun
    exact ⟨h₁, by omega, by omega⟩

theorem lens_left {total : ℕ} (fuel : ℕ) (h : Left inp s n)
    (hlens' : sinfl_lens inp hlens total fuel s lens = some (s', lens')) : Left inp s' n := by
  induction fuel generalizing s lens with
  | zero => exact nomatch hlens'
  | succ fuel ih =>
    rw [sinfl_lens] at hlens'
    split_ifs at hlens'
    · obtain ⟨⟨s₁, lens₁⟩, hround, hrest⟩ := Option.bind_eq_some_iff.mp hlens'
      exact ih (lens_round_left h hround).1 hrest
    · obtain ⟨rfl, -⟩ := Prod.mk.inj (Option.some_inj.mp hlens')
      exact h

/-- The body of the loop over the code lengths. -/
def sinfl_lens_step (inp : Bytes) (hlens : List ℕ) (total : ℕ) (z : Sinfl × List ℕ) :
    Option ((Sinfl × List ℕ) ⊕ (Sinfl × List ℕ)) :=
  if z.2.length < total then (sinfl_lens_round inp hlens z.1 z.2).map .inl else some (.inr z)

theorem lens_eq (inp : Bytes) (hlens : List ℕ) (total fuel : ℕ) (z : Sinfl × List ℕ) :
    sinfl_lens inp hlens total (fuel + 1) z.1 z.2 =
      (sinfl_lens_step inp hlens total z).bind
        (Sum.elim (fun z => sinfl_lens inp hlens total fuel z.1 z.2) some) := by
  obtain ⟨s, lens⟩ := z
  rw [sinfl_lens, sinfl_lens_step]
  dsimp only
  split_ifs
  · rcases sinfl_lens_round inp hlens s lens with _ | ⟨s₁, lens₁⟩ <;> rfl
  · rfl

/-- **The lengths are decoded in at most 320 rounds**, as every round that goes on writes one. -/
theorem lens_ends {total : ℕ} (h : Left inp s n) (hroom : lens.length ≤ 320) :
    ∃ k, k ≤ 320 - lens.length ∧ ∃ o, EndsIn (sinfl_lens_step inp hlens total) k (s, lens) o := by
  apply ends_of_left (fun m z => Left inp z.1 n ∧ z.2.length + m = 320)
  · intro m z z' hz hstep
    obtain ⟨hleft, hm⟩ := hz
    rw [sinfl_lens_step] at hstep
    split_ifs at hstep
    · obtain ⟨z₁, hround, hz₁⟩ := Option.map_eq_some_iff.mp hstep
      obtain rfl := Sum.inl.inj hz₁
      obtain ⟨hleft', hgrow, hroom'⟩ := lens_round_left hleft hround
      exact ⟨320 - z₁.2.length, by omega, hleft', by omega⟩
    · exact absurd (Option.some.inj hstep) (by simp)
  · exact ⟨h, by dsimp only; omega⟩

theorem dyn_left {t t' : SinflTables} (h : Left inp s n) (hdyn : sinfl_dyn inp s t = some (s', t')) :
    Left inp s' n := by
  obtain ⟨⟨x, s₁⟩, hget₁, hdyn⟩ := Option.bind_eq_some_iff.mp hdyn
  obtain ⟨⟨y, s₂⟩, hget₂, hdyn⟩ := Option.bind_eq_some_iff.mp hdyn
  obtain ⟨⟨z, s₃⟩, hget₃, hdyn⟩ := Option.bind_eq_some_iff.mp hdyn
  obtain ⟨⟨s₄, nlens⟩, hnlens, hdyn⟩ := Option.bind_eq_some_iff.mp hdyn
  obtain ⟨⟨s₅, lens₅⟩, hlens', hdyn⟩ := Option.bind_eq_some_iff.mp hdyn
  obtain ⟨rfl, -⟩ := Prod.mk.inj (Option.some_inj.mp hdyn)
  have h₃ := ((h.refill.get hget₁).get hget₂).get hget₃
  exact lens_left 321 (nlens_left h₃ hnlens) hlens'

end Dynamic

/-! ## The body of a block

Each round that goes on has written a byte, and the capacity bounds what is written.
-/

section Body

variable {inp : Bytes} {s s' : Sinfl} {n cap : ℕ} {out out' : Written} {t : SinflTables}

/-- A round: what is handed on is longer and within the capacity, unless the block ends. -/
def Grown (inp : Bytes) (n cap : ℕ) (out : Written) :
    SinflOut Written (Bool × Sinfl × Written) → Prop
  | .ret out' => out <+: out' ∧ out'.length ≤ cap
  | .full => True
  | .go (fin, s', out') => Left inp s' n ∧ out <+: out' ∧ out'.length ≤ cap ∧
      (fin = false → out.length < out'.length)

theorem prefix_copy (offs len : ℕ) (out : Written) : out <+: sinfl_copy offs len out := by
  induction len generalizing out with
  | zero => exact List.prefix_rfl
  | succ len ih => exact (List.prefix_append _ _).trans (ih _)

theorem length_copy (offs len : ℕ) (out : Written) :
    (sinfl_copy offs len out).length = out.length + len := by
  induction len generalizing out with
  | zero => rfl
  | succ len ih =>
    rw [sinfl_copy, ih, List.length_append, List.length_singleton]
    omega

theorem match_grown {dsts : List ℕ} {sym : ℕ} {r : SinflOut Written (Bool × Sinfl × Written)}
    (h : Left inp s n) (hsym : 256 ≤ sym) (hout : out.length ≤ cap)
    (hmatch : sinfl_match cap dsts sym s out = some r) : Grown inp n cap out r := by
  rw [sinfl_match] at hmatch
  split_ifs at hmatch with hend hbad
  · rw [← Option.some_inj.mp hmatch]
    exact ⟨h, List.prefix_rfl, hout, fun hfin => nomatch hfin⟩
  · rw [← Option.some_inj.mp hmatch]
    exact ⟨List.prefix_rfl, hout⟩
  · obtain ⟨⟨x, s₁⟩, hget₁, hmatch⟩ := Option.bind_eq_some_iff.mp hmatch
    obtain ⟨⟨dsym, s₂⟩, hdec, hmatch⟩ := Option.bind_eq_some_iff.mp hmatch
    obtain ⟨⟨y, s₃⟩, hget₂, hmatch⟩ := Option.bind_eq_some_iff.mp hmatch
    have hlbase : ∀ k, k < 29 → 3 ≤ sinfl_lbase.getD k 0 := by decide
    have h3 := hlbase (sym - 257) (by omega)
    dsimp only at hmatch
    split_ifs at hmatch with hcap hbehind
    · rw [← Option.some_inj.mp hmatch]
      trivial
    · exact nomatch hmatch
    · rw [← Option.some_inj.mp hmatch]
      refine ⟨((h.get hget₁).decode hdec).get hget₂, prefix_copy _ _ _, ?_, fun _ => ?_⟩
      · rw [length_copy]
        omega
      · rw [length_copy]
        omega

/-- The second symbol of a round. -/
theorem second_grown {sym : ℕ} {r : SinflOut Written (Bool × Sinfl × Written)} (h : Left inp s n)
    (hout : out.length ≤ cap)
    (hrun : (if sym < 256 then if out.length ≥ cap then some .full
      else some (.go (false, s, out ++ [some (UInt8.ofNat sym)]))
      else sinfl_match cap t.dsts sym s out) =
        some r) : Grown inp n cap out r := by
  split_ifs at hrun with hlit hfull
  · rw [← Option.some_inj.mp hrun]
    trivial
  · rw [← Option.some_inj.mp hrun]
    refine ⟨h, List.prefix_append _ _, ?_, fun _ => ?_⟩
    · rw [List.length_append, List.length_singleton]
      omega
    · rw [List.length_append, List.length_singleton]
      omega
  · exact match_grown h (Nat.not_lt.mp hlit) hout hrun

/-- **A round** of the body. -/
theorem round_grown {r : SinflOut Written (Bool × Sinfl × Written)} (h : Left inp s n)
    (hout : out.length ≤ cap)
    (hround : sinfl_round inp cap t s out = some r) : Grown inp n cap out r := by
  obtain ⟨⟨sym, s₁⟩, hdec, hround⟩ := Option.bind_eq_some_iff.mp hround
  have h₁ := h.refill.decode hdec
  dsimp only at hround
  by_cases hlit : sym < 256
  · rw [if_pos hlit] at hround
    by_cases hfull : out.length ≥ cap
    · rw [if_pos hfull] at hround
      rw [← Option.some_inj.mp hround]
      trivial
    rw [if_neg hfull] at hround
    obtain ⟨⟨sym', s₂⟩, hdec', hround⟩ := Option.bind_eq_some_iff.mp hround
    have hlen : (out ++ [some (UInt8.ofNat sym)]).length = out.length + 1 := by
      rw [List.length_append, List.length_singleton]
    have hgrown := second_grown (h₁.decode hdec') (show _ ≤ cap by omega) hround
    rcases r with out' | _ | ⟨fin, s', out'⟩
    · exact ⟨(List.prefix_append _ _).trans hgrown.1, hgrown.2⟩
    · trivial
    · obtain ⟨hleft, hpre, hcap, -⟩ := hgrown
      refine ⟨hleft, (List.prefix_append _ _).trans hpre, hcap, fun _ => ?_⟩
      have := hpre.length_le
      omega
  · rw [if_neg hlit] at hround
    exact match_grown h₁ (Nat.not_lt.mp hlit) hout hround

/-- What a block hands on. -/
def Carried (inp : Bytes) (n cap : ℕ) (out : Written) : SinflOut Written (Sinfl × Written) → Prop
  | .ret out' => out <+: out' ∧ out'.length ≤ cap
  | .full => True
  | .go (s', out') => Left inp s' n ∧ out <+: out' ∧ out'.length ≤ cap

theorem blk_carried (fuel : ℕ) {r : SinflOut Written (Sinfl × Written)} (h : Left inp s n)
    (hout : out.length ≤ cap) (hblk : sinfl_blk inp cap t fuel s out = some r) :
    Carried inp n cap out r := by
  induction fuel generalizing s out with
  | zero => exact nomatch hblk
  | succ fuel ih =>
    obtain ⟨r₁, hround, hrest⟩ := Option.bind_eq_some_iff.mp hblk
    have hgrown := round_grown h hout hround
    rcases r₁ with out₁ | _ | ⟨_ | _, s₁, out₁⟩
    · rw [← Option.some_inj.mp hrest]
      exact hgrown
    · rw [← Option.some_inj.mp hrest]
      trivial
    · obtain ⟨h₁, hpre, hcap, -⟩ := hgrown
      have hcar := ih h₁ hcap hrest
      cases r with
      | ret out' => exact ⟨hpre.trans hcar.1, hcar.2⟩
      | full => trivial
      | go a => exact ⟨hcar.1, hpre.trans hcar.2.1, hcar.2.2⟩
    · rw [← Option.some_inj.mp hrest]
      exact ⟨hgrown.1, hgrown.2.1, hgrown.2.2.1⟩

/-- The body of the loop over the symbols of a block. -/
def sinfl_blk_step (inp : Bytes) (cap : ℕ) (t : SinflTables) (z : Sinfl × Written) :
    Option ((Sinfl × Written) ⊕ SinflOut Written (Sinfl × Written)) :=
  (sinfl_round inp cap t z.1 z.2).map fun
    | .ret out => .inr (.ret out)
    | .full => .inr .full
    | .go (true, s, out) => .inr (.go (s, out))
    | .go (false, s, out) => .inl (s, out)

theorem blk_eq (inp : Bytes) (cap : ℕ) (t : SinflTables) (fuel : ℕ) (z : Sinfl × Written) :
    sinfl_blk inp cap t (fuel + 1) z.1 z.2 =
      (sinfl_blk_step inp cap t z).bind
        (Sum.elim (fun z => sinfl_blk inp cap t fuel z.1 z.2) some) := by
  obtain ⟨s, out⟩ := z
  rw [sinfl_blk, sinfl_blk_step]
  dsimp only
  rcases sinfl_round inp cap t s out with _ | _ | _ | ⟨_ | _, s₁, out₁⟩ <;> rfl

/-- **The body of a block ends** before its rounds are more than the bytes there is room for, as
every round that goes on writes one. -/
theorem blk_ends (t : SinflTables) (h : Left inp s n) (hout : out.length ≤ cap) :
    ∃ k, k ≤ cap - out.length ∧ ∃ o, EndsIn (sinfl_blk_step inp cap t) k (s, out) o := by
  apply ends_of_left (fun m z => Left inp z.1 n ∧ z.2.length + m = cap)
  · intro m z z' hz hstep
    obtain ⟨hleft, hm⟩ := hz
    obtain ⟨r, hround, hr⟩ := Option.map_eq_some_iff.mp hstep
    have hgrown := round_grown hleft (by omega) hround
    rcases r with _ | _ | ⟨_ | _, s₁, out₁⟩
    · exact absurd hr (by simp)
    · exact absurd hr (by simp)
    · obtain rfl := Sum.inl.inj hr
      obtain ⟨hleft', -, hcap, hgrow⟩ := hgrown
      have hlt := hgrow rfl
      exact ⟨cap - out₁.length, by omega, hleft', by dsimp only; omega⟩
    · exact absurd hr (by simp)
  · exact ⟨h, by dsimp only; omega⟩

end Body

/-! ## Block after block

A block that is not the last leaves less of the stream. At the end of the stream the next block is a
stored one that is refused.
-/

section Blocks

variable {inp : Bytes} {s s₁ s₂ : Sinfl} {rest : List Bool} {n cap last type : ℕ} {out : Written}
  {t : SinflTables}

/-- The header of a block. -/
theorem head_any (hread : Reading inp s rest)
    (hlast : pakka_sinfl__get (pakka_sinfl_refill inp s) 1 = some (last, s₁))
    (htype : pakka_sinfl__get s₁ 2 = some (type, s₂)) :
    Reading inp s₂ (rest.drop 3) ∧ s₂.bitcnt ≤ 60 ∧
      (s₂.bitcnt ≤ (rest.drop 3).length ∨ s₂.bitptr = inp.length) ∧ (rest = [] → type = 0) := by
  obtain ⟨hread₀, h56⟩ := hread.refill
  obtain ⟨-, hread₁, -, hcnt₁, hptr₁⟩ := hread₀.get_any hlast
  obtain ⟨htypeeq, hread₂, -, hcnt₂, hptr₂⟩ := hread₁.get_any htype
  have hle := hread₀.cnt_le
  have hreal := hread₀.real
  have hbehind := hread₀.behind
  have hptr := hread₀.ptr_le
  rw [List.drop_drop] at hread₂
  refine ⟨hread₂, by omega, ?_, fun hnil => ?_⟩
  · rw [List.length_drop]
    rcases Nat.lt_or_ge rest.length 56 with hlt | hge
    · right
      omega
    · left
      have := hreal hge
      omega
  · rw [htypeeq, hnil]
    rfl

/-- What a block of a type hands on. -/
def Onward (inp : Bytes) (rest : List Bool) (type cap : ℕ) (out : Written) :
    SinflOut Written (Sinfl × SinflTables × Written) → Prop
  | .ret out' => out <+: out' ∧ out'.length ≤ cap
  | .full => True
  | .go (s', _, out') => Left inp s' rest.length ∧ (type = 0 → 32 ≤ rest.length) ∧ out <+: out' ∧
      out'.length ≤ cap

theorem Carried.passed {r : SinflOut Written (Sinfl × Written)}
    (h : Carried inp rest.length cap out r)
    (t : SinflTables) (htype : type ≠ 0) : Onward inp rest type cap out (sinfl_carry t r) := by
  rcases r with out₁ | _ | ⟨s₁, out₁⟩
  · exact h
  · trivial
  · exact ⟨h.1, fun h0 => absurd h0 htype, h.2⟩

theorem block_passed {r : SinflOut Written (Sinfl × SinflTables × Written)}
    (hread : Reading inp s rest)
    (hcnt : s.bitcnt ≤ 60) (hend : s.bitcnt ≤ rest.length ∨ s.bitptr = inp.length)
    (hout : out.length ≤ cap) (hblock : sinfl_block inp cap type s t out = some r) :
    Onward inp rest type cap out r := by
  rw [sinfl_block] at hblock
  split_ifs at hblock with hstored hfixed hdyn
  · obtain ⟨r₁, hrun, rfl⟩ := Option.map_eq_some_iff.mp hblock
    rcases r₁ with out₁ | _ | ⟨s₁, out₁⟩
    · rw [stored_ret hrun]
      exact ⟨List.prefix_rfl, hout⟩
    · trivial
    · obtain ⟨hleft, h32, hcap, hpre⟩ := stored_left hread hcnt hend hrun
      exact ⟨hleft, fun _ => h32, hpre, hcap⟩
  · obtain ⟨r₁, hblk, rfl⟩ := Option.map_eq_some_iff.mp hblock
    exact (blk_carried (cap + 1) ⟨rest, hread, le_rfl⟩ hout hblk).passed _ hstored
  · obtain ⟨⟨s₁, t₁⟩, hdyn, hblock⟩ := Option.bind_eq_some_iff.mp hblock
    obtain ⟨r₁, hblk, rfl⟩ := Option.map_eq_some_iff.mp hblock
    exact (blk_carried (cap + 1) (dyn_left ⟨rest, hread, le_rfl⟩ hdyn) hout hblk).passed _ hstored
  · rw [← Option.some_inj.mp hblock]
    exact ⟨List.prefix_rfl, hout⟩

/-- The body of the loop over the blocks. -/
def sinfl_blocks_step (inp : Bytes) (cap : ℕ) (z : Sinfl × SinflTables × Written) :
    Option ((Sinfl × SinflTables × Written) ⊕ Option Written) := do
  let (last, s) ← pakka_sinfl__get (pakka_sinfl_refill inp z.1) 1
  let (type, s) ← pakka_sinfl__get s 2
  match ← sinfl_block inp cap type s z.2.1 z.2.2 with
  | .ret out => return .inr (some out)
  | .full => return .inr none
  | .go z => return if last ≠ 0 then .inr (some z.2.2) else .inl z

theorem blocks_eq (inp : Bytes) (cap fuel : ℕ) (z : Sinfl × SinflTables × Written) :
    sinfl_blocks inp cap (fuel + 1) z.1 z.2.1 z.2.2 =
      (sinfl_blocks_step inp cap z).bind
        (Sum.elim (fun z => sinfl_blocks inp cap fuel z.1 z.2.1 z.2.2) some) := by
  obtain ⟨s, t, out⟩ := z
  rw [sinfl_blocks, sinfl_blocks_step]
  dsimp only
  rcases pakka_sinfl__get (pakka_sinfl_refill inp s) 1 with _ | ⟨last, s₁⟩
  · rfl
  simp only [Option.bind_eq_bind, Option.bind_some]
  rcases pakka_sinfl__get s₁ 2 with _ | ⟨type, s₂⟩
  · rfl
  simp only [Option.bind_some]
  rcases sinfl_block inp cap type s₂ t out with _ | out₃ | _ | ⟨s₃, t₃, out₃⟩
  · rfl
  · rfl
  · rfl
  · simp only [Option.bind_some]
    split_ifs <;> rfl

/-- **A block that goes on** takes bits of the stream. -/
theorem blocks_step_left {z z' : Sinfl × SinflTables × Written} (h : Left inp z.1 n)
    (hout : z.2.2.length ≤ cap) (hstep : sinfl_blocks_step inp cap z = some (.inl z')) :
    ∃ m, m < n ∧ Left inp z'.1 m ∧ z'.2.2.length ≤ cap := by
  obtain ⟨rest, hread, hlen⟩ := h
  obtain ⟨⟨last, s₁⟩, hlast, hstep⟩ := Option.bind_eq_some_iff.mp hstep
  obtain ⟨⟨type, s₂⟩, htype, hstep⟩ := Option.bind_eq_some_iff.mp hstep
  obtain ⟨r, hblock, hstep⟩ := Option.bind_eq_some_iff.mp hstep
  obtain ⟨hread₂, hcnt₂, hend₂, hnil⟩ := head_any hread hlast htype
  have hpassed := block_passed hread₂ hcnt₂ hend₂ hout hblock
  rcases r with out₃ | _ | z₃
  · exact absurd (Option.some.inj hstep) (by simp)
  · exact absurd (Option.some.inj hstep) (by simp)
  · dsimp only at hstep
    split_ifs at hstep with hfin
    · exact absurd (Option.some.inj hstep) (by simp)
    obtain rfl := Sum.inl.inj (Option.some.inj hstep)
    obtain ⟨hleft, h32, -, hcap⟩ := hpassed
    rw [List.length_drop] at hleft h32
    -- an empty stream has no block that goes on
    have hpos : 0 < rest.length := by
      rcases Nat.eq_zero_or_pos rest.length with h0 | hpos
      · have := h32 (hnil (List.length_eq_zero_iff.mp h0))
        omega
      · exact hpos
    exact ⟨rest.length - 3, by omega, hleft, hcap⟩

/-- **The blocks come to an end** before they are more than the bits. -/
theorem blocks_ends (t : SinflTables) (h : Left inp s n) (hout : out.length ≤ cap) :
    ∃ k, k ≤ n ∧ ∃ o, EndsIn (sinfl_blocks_step inp cap) k (s, t, out) o := by
  apply ends_of_left (fun m z => Left inp z.1 m ∧ z.2.2.length ≤ cap)
  · intro m z z' hz hstep
    exact blocks_step_left hz.1 hz.2 hstep
  · exact ⟨h, hout⟩

/-- What is written stays, and is within the capacity. -/
theorem blocks_grown (fuel : ℕ) {out' : Written} (h : Left inp s n) (hout : out.length ≤ cap)
    (hrun : sinfl_blocks inp cap fuel s t out = some (some out')) :
    out <+: out' ∧ out'.length ≤ cap := by
  induction fuel generalizing s t out n with
  | zero => exact nomatch hrun
  | succ fuel ih =>
    obtain ⟨rest, hread, hlen⟩ := h
    obtain ⟨⟨last, s₁⟩, hlast, hrun⟩ := Option.bind_eq_some_iff.mp hrun
    obtain ⟨⟨type, s₂⟩, htype, hrun⟩ := Option.bind_eq_some_iff.mp hrun
    obtain ⟨r, hblock, hrun⟩ := Option.bind_eq_some_iff.mp hrun
    obtain ⟨hread₂, hcnt₂, hend₂, -⟩ := head_any hread hlast htype
    have hpassed := block_passed hread₂ hcnt₂ hend₂ hout hblock
    rcases r with out₃ | _ | ⟨s₃, t₃, out₃⟩
    · rw [← Option.some_inj.mp (Option.some_inj.mp hrun)]
      exact hpassed
    · exact nomatch hrun
    · obtain ⟨hleft, -, hpre, hcap⟩ := hpassed
      dsimp only at hrun
      split_ifs at hrun
      · rw [← Option.some_inj.mp (Option.some_inj.mp hrun)]
        exact ⟨hpre, hcap⟩
      · obtain ⟨hpre', hcap'⟩ := ih hleft hcap hrun
        exact ⟨hpre.trans hpre', hcap'⟩

end Blocks

/-! ## The decoder

From the start of a stream: there are rounds enough, so the outcome is that of the loops themselves.
-/

theorem left_start (inp : Bytes) : Left inp ⟨0, 0, 0⟩ (8 * inp.length) :=
  ⟨ofBytes inp, reading_start inp, by rw [length_ofBytes]⟩

/-- **The decoder halts.** Each of its loops comes, within a number of rounds that the input, the
capacity or the array bounds, to a round that does not go on, and what the decoder gives for the
loop is what that round gives: the result, or nothing where it is undefined (an assertion fails, or
an access is outside an object). -/
theorem sinflate_halts (inp : Bytes) (cap : ℕ) :
    (∃ k, k ≤ 8 * inp.length ∧ ∃ o,
      EndsIn (sinfl_blocks_step inp cap) k (⟨0, 0, 0⟩, ⟨[], []⟩, []) o ∧
        pakka_sinfl_decompress cap inp = o) ∧
    (∀ s rest t out, Reading inp s rest → out.length ≤ cap → ∃ k, k ≤ cap - out.length ∧ ∃ o,
      EndsIn (sinfl_blk_step inp cap t) k (s, out) o ∧ sinfl_blk inp cap t (cap + 1) s out = o) ∧
    ∀ s rest hlens total, Reading inp s rest → ∃ k, k ≤ 320 ∧ ∃ o,
      EndsIn (sinfl_lens_step inp hlens total) k (s, []) o ∧
        sinfl_lens inp hlens total 321 s [] = o := by
  refine ⟨?_, ?_, ?_⟩
  · obtain ⟨k, hk, o, he⟩ : ∃ k, k ≤ 8 * inp.length ∧ ∃ o,
        EndsIn (sinfl_blocks_step inp cap) k (⟨0, 0, 0⟩, ⟨[], []⟩, []) o :=
      blocks_ends ⟨[], []⟩ (left_start inp) (Nat.zero_le cap)
    have hval := he.value (f := fun fuel z => sinfl_blocks inp cap fuel z.1 z.2.1 z.2.2)
      (blocks_eq inp cap) (Nat.lt_succ_of_le hk)
    exact ⟨k, hk, o, he, hval⟩
  · intro s rest t out hread hout
    obtain ⟨k, hk, o, he⟩ := blk_ends t ⟨rest, hread, le_rfl⟩ hout
    have hval := he.value (f := fun fuel z => sinfl_blk inp cap t fuel z.1 z.2) (blk_eq inp cap t)
      (show k < cap + 1 by omega)
    exact ⟨k, hk, o, he, hval⟩
  · intro s rest hlens total hread
    obtain ⟨k, hk, o, he⟩ : ∃ k, k ≤ 320 ∧ ∃ o,
        EndsIn (sinfl_lens_step inp hlens total) k (s, []) o :=
      lens_ends ⟨rest, hread, le_rfl⟩ (show ([] : List ℕ).length ≤ 320 by decide)
    have hval := he.value (f := fun fuel z => sinfl_lens inp hlens total fuel z.1 z.2)
      (lens_eq inp hlens total) (Nat.lt_succ_of_le hk)
    exact ⟨k, hk, o, he, hval⟩

/-- Two bytes without a block in them. -/
theorem sinflate_halts_zeros : ∃ k, k ≤ 320 ∧ ∃ o,
    EndsIn (sinfl_lens_step [0, 0] [] 19) k (⟨0, 0, 0⟩, []) o ∧
      sinfl_lens [0, 0] [] 19 321 ⟨0, 0, 0⟩ [] = o :=
  (sinflate_halts [0, 0] 0).2.2 _ _ [] 19 (reading_start [0, 0])

end Pakka
