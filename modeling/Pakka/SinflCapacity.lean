/-
The capacity is a threshold.

The decoder compares what it has written with the capacity and does nothing else with it. A stream
that decodes at one capacity decodes to the same bytes at every capacity that they fit in, and is
refused at every other (`sinflate_capacity`).

So a caller that does not know the size of the result may try with a buffer that is too small and
get an error, but never a shorter or a different text. The proof goes function by function through
the decoder: what one of them does at one capacity is compared with what it does at another, where
it either does the same or has written more than the smaller one allows.
-/
import Pakka.SinflHalts

set_option autoImplicit false

namespace Pakka

open Cells BitString ByteImage

/-- A result, at another capacity. -/
def SinflOut.limit {α : Type} (size : α → ℕ) (cap : ℕ) : SinflOut Written α → SinflOut Written α
  | .ret out => if out.length ≤ cap then .ret out else .full
  | .full => .full
  | .go a => if size a ≤ cap then .go a else .full

section Capacity

variable {inp : Bytes} {s : Sinfl} {rest : List Bool} {n cap type : ℕ} {out : Written}
  {t : SinflTables} (cap' : ℕ)

theorem stored_limit {r : SinflOut Written (Sinfl × Written)} (hout : out.length ≤ cap')
    (hrun : sinfl_stored inp cap s out = some r) (hr : r ≠ .full) :
    sinfl_stored inp cap' s out = some (r.limit (fun a => a.2.length) cap') := by
  obtain ⟨⟨pad, s₁⟩, hget₁, hrun⟩ := Option.bind_eq_some_iff.mp hrun
  obtain ⟨⟨len, s₂⟩, hget₂, hrun⟩ := Option.bind_eq_some_iff.mp hrun
  obtain ⟨⟨nlen, s₃⟩, hget₃, hrun⟩ := Option.bind_eq_some_iff.mp hrun
  rw [sinfl_stored, hget₁]
  show (pakka_sinfl__get s₁ 16).bind _ = _
  rw [hget₂]
  show (pakka_sinfl__get s₂ 16).bind _ = _
  rw [hget₃]
  dsimp only [Option.bind_some] at hrun ⊢
  generalize (if s₃.bitcnt / 8 > s₃.bitptr then s₃.bitptr else s₃.bitcnt / 8) = rewind at hrun ⊢
  by_cases hlens : len ≠ 0xffff - nlen
  · rw [if_pos hlens] at hrun ⊢
    rw [← Option.some_inj.mp hrun]
    show _ = some (if out.length ≤ cap' then SinflOut.ret out else .full)
    rw [if_pos hout]
    rfl
  rw [if_neg hlens] at hrun ⊢
  by_cases hroom : len > inp.length - (s₃.bitptr - rewind)
  · rw [if_pos hroom] at hrun ⊢
    rw [← Option.some_inj.mp hrun]
    show _ = some (if out.length ≤ cap' then SinflOut.ret out else .full)
    rw [if_pos hout]
    rfl
  rw [if_neg hroom] at hrun ⊢
  by_cases hcap : out.length + len > cap
  · rw [if_pos hcap] at hrun
    exact absurd (Option.some_inj.mp hrun).symm hr
  rw [if_neg hcap] at hrun
  rw [← Option.some_inj.mp hrun]
  show _ = some (if (out ++ sinfl_known ((inp.drop (s₃.bitptr - rewind)).take len)).length ≤ cap' then
    SinflOut.go _ else .full)
  rw [List.length_append, length_known, List.length_take, List.length_drop,
    Nat.min_eq_left (by omega)]
  by_cases hfits : out.length + len ≤ cap'
  · rw [if_pos hfits, if_neg (by omega)]
    rfl
  · rw [if_neg hfits, if_pos (by omega)]
    rfl

theorem match_limit {dsts : List ℕ} {sym : ℕ} {r : SinflOut Written (Bool × Sinfl × Written)}
    (hout : out.length ≤ cap') (hrun : sinfl_match cap dsts sym s out = some r) (hr : r ≠ .full) :
    sinfl_match cap' dsts sym s out = some (r.limit (fun a => a.2.2.length) cap') := by
  rw [sinfl_match] at hrun ⊢
  by_cases hend : sym = 256
  · rw [if_pos hend] at hrun ⊢
    rw [← Option.some_inj.mp hrun]
    show _ = some (if out.length ≤ cap' then SinflOut.go (true, s, out) else .full)
    rw [if_pos hout]
  rw [if_neg hend] at hrun ⊢
  by_cases hbad : sym ≥ 286
  · rw [if_pos hbad] at hrun ⊢
    rw [← Option.some_inj.mp hrun]
    show _ = some (if out.length ≤ cap' then SinflOut.ret out else .full)
    rw [if_pos hout]
  rw [if_neg hbad] at hrun ⊢
  obtain ⟨⟨x, s₁⟩, hget₁, hrun⟩ := Option.bind_eq_some_iff.mp hrun
  obtain ⟨⟨dsym, s₂⟩, hdec, hrun⟩ := Option.bind_eq_some_iff.mp hrun
  obtain ⟨⟨y, s₃⟩, hget₂, hrun⟩ := Option.bind_eq_some_iff.mp hrun
  dsimp only at hrun ⊢
  rw [hget₁]
  show (pakka_sinfl_decode s₁ dsts 8).bind _ = _
  rw [hdec]
  show (pakka_sinfl__get s₂ (sinfl_dbits.getD dsym 0)).bind _ = _
  rw [hget₂]
  dsimp only [Option.bind_some]
  generalize x + sinfl_lbase.getD (sym - 257) 0 = len at hrun ⊢
  generalize y + sinfl_dbase.getD dsym 0 = offs at hrun ⊢
  by_cases hcap : out.length + len > cap
  · rw [if_pos hcap] at hrun
    exact absurd (Option.some_inj.mp hrun).symm hr
  rw [if_neg hcap] at hrun
  by_cases hbehind : offs > out.length
  · rw [if_pos hbehind] at hrun
    exact (Option.some_ne_none r hrun.symm).elim
  rw [if_neg hbehind] at hrun ⊢
  rw [← Option.some_inj.mp hrun]
  show _ = some (if (sinfl_copy offs len out).length ≤ cap' then SinflOut.go _ else .full)
  rw [length_copy]
  by_cases hfits : out.length + len ≤ cap'
  · rw [if_pos hfits, if_neg (by omega)]
    rfl
  · rw [if_neg hfits, if_pos (by omega)]
    rfl

/-- What is too long stays too long. -/
theorem limit_over {r : SinflOut Written (Bool × Sinfl × Written)} {n : ℕ}
    (hgrown : Grown inp n cap out r) (hlong : cap' < out.length) : r.limit (fun a => a.2.2.length) cap' = .full := by
  rcases r with out₁ | _ | ⟨fin, s₁, out₁⟩
  · have hle : out.length ≤ out₁.length := hgrown.1.length_le
    exact if_neg (by omega)
  · rfl
  · have hle : out.length ≤ out₁.length := hgrown.2.1.length_le
    exact if_neg (show ¬ out₁.length ≤ cap' by omega)

/-- The second symbol of a round. -/
theorem second_limit {sym : ℕ} {r : SinflOut Written (Bool × Sinfl × Written)}
    (hout : out.length ≤ cap')
    (hrun : (if sym < 256 then if out.length ≥ cap then some .full
      else some (.go (false, s, out ++ [some (UInt8.ofNat sym)]))
      else sinfl_match cap t.dsts sym s out) =
        some r) (hr : r ≠ .full) :
    (if sym < 256 then if out.length ≥ cap' then some .full
      else some (.go (false, s, out ++ [some (UInt8.ofNat sym)]))
      else sinfl_match cap' t.dsts sym s out) =
        some (r.limit (fun a => a.2.2.length) cap') := by
  by_cases hlit : sym < 256
  · rw [if_pos hlit] at hrun ⊢
    by_cases hfull : out.length ≥ cap
    · rw [if_pos hfull] at hrun
      exact absurd (Option.some_inj.mp hrun).symm hr
    rw [if_neg hfull] at hrun
    rw [← Option.some_inj.mp hrun]
    show _ = some (if (out ++ [some (UInt8.ofNat sym)]).length ≤ cap' then SinflOut.go _ else .full)
    rw [List.length_append, List.length_singleton]
    by_cases hroom : out.length ≥ cap'
    · rw [if_pos hroom, if_neg (by omega)]
    · rw [if_neg hroom, if_pos (by omega)]
  · rw [if_neg hlit] at hrun ⊢
    exact match_limit cap' hout hrun hr

theorem round_limit {r : SinflOut Written (Bool × Sinfl × Written)} (h : Left inp s n)
    (hout : out.length ≤ cap') (hrun : sinfl_round inp cap t s out = some r) (hr : r ≠ .full) :
    sinfl_round inp cap' t s out = some (r.limit (fun a => a.2.2.length) cap') := by
  obtain ⟨⟨sym, s₁⟩, hdec, hrun⟩ := Option.bind_eq_some_iff.mp hrun
  have h₁ := h.refill.decode hdec
  rw [sinfl_round, hdec]
  dsimp only [Option.bind_some] at hrun
  show (if sym < 256 then if out.length ≥ cap' then some .full else
    (pakka_sinfl_decode s₁ t.lits 10).bind _ else sinfl_match cap' t.dsts sym s₁ out) = _
  by_cases hlit : sym < 256
  · rw [if_pos hlit] at hrun ⊢
    by_cases hfull : out.length ≥ cap
    · rw [if_pos hfull] at hrun
      exact absurd (Option.some_inj.mp hrun).symm hr
    rw [if_neg hfull] at hrun
    obtain ⟨⟨sym', s₂⟩, hdec', hrun⟩ := Option.bind_eq_some_iff.mp hrun
    have h₂ := h₁.decode hdec'
    have hlen : (out ++ [some (UInt8.ofNat sym)]).length = out.length + 1 := by
      rw [List.length_append, List.length_singleton]
    by_cases hroom : out.length ≥ cap'
    · rw [if_pos hroom, limit_over cap' (second_grown h₂ (show _ ≤ cap by omega) hrun) (by omega)]
    · rw [if_neg hroom, hdec']
      exact second_limit cap' (show _ ≤ cap' by omega) hrun hr
  · rw [if_neg hlit] at hrun ⊢
    exact match_limit cap' hout hrun hr

theorem blk_limit (fuel fuel' : ℕ) {r : SinflOut Written (Sinfl × Written)} (h : Left inp s n)
    (hcap : out.length ≤ cap) (hout : out.length ≤ cap') (hfuel : cap' < out.length + fuel')
    (hrun : sinfl_blk inp cap t fuel s out = some r) (hr : r ≠ .full) :
    sinfl_blk inp cap' t fuel' s out = some (r.limit (fun a => a.2.length) cap') := by
  induction fuel generalizing s out fuel' with
  | zero => exact nomatch hrun
  | succ fuel ih =>
    obtain ⟨fuel', rfl⟩ : ∃ k, fuel' = k + 1 := ⟨fuel' - 1, by omega⟩
    obtain ⟨r₁, hround, hrest⟩ := Option.bind_eq_some_iff.mp hrun
    have hgrown := round_grown h hcap hround
    have hr₁ : r₁ ≠ .full := fun hover => hr (by
      rw [hover] at hrest
      exact (Option.some_inj.mp hrest).symm)
    rw [sinfl_blk, round_limit cap' h hout hround hr₁]
    rcases r₁ with out₁ | _ | ⟨_ | _, s₁, out₁⟩
    · rw [← Option.some_inj.mp hrest]
      show (some (if out₁.length ≤ cap' then SinflOut.ret out₁ else .full)).bind _ =
        some (if out₁.length ≤ cap' then SinflOut.ret out₁ else .full)
      split_ifs <;> rfl
    · exact absurd rfl hr₁
    · obtain ⟨h₁, hpre, hcap₁, hgrow⟩ := hgrown
      have hlt := hgrow rfl
      show (some (if out₁.length ≤ cap' then SinflOut.go (false, s₁, out₁) else .full)).bind _ = _
      by_cases hfits : out₁.length ≤ cap'
      · rw [if_pos hfits]
        exact ih fuel' h₁ hcap₁ hfits (by omega) hrest
      · rw [if_neg hfits]
        have hcar := blk_carried fuel h₁ hcap₁ hrest
        rcases r with out₂ | _ | ⟨s₂, out₂⟩
        · have hle : out₁.length ≤ out₂.length := hcar.1.length_le
          exact (congrArg some (if_neg (by omega))).symm
        · rfl
        · have hle : out₁.length ≤ out₂.length := hcar.2.1.length_le
          exact (congrArg some (if_neg (show ¬ out₂.length ≤ cap' by omega))).symm
    · rw [← Option.some_inj.mp hrest]
      show (some (if out₁.length ≤ cap' then SinflOut.go (true, s₁, out₁) else .full)).bind _ =
        some (if out₁.length ≤ cap' then SinflOut.go (s₁, out₁) else .full)
      split_ifs <;> rfl

theorem carry_limit (t : SinflTables) (r : SinflOut Written (Sinfl × Written)) :
    sinfl_carry t (r.limit (fun a => a.2.length) cap') =
      (sinfl_carry t r).limit (fun a => a.2.2.length) cap' := by
  rcases r with out₁ | _ | ⟨s₁, out₁⟩
  · show sinfl_carry t (if out₁.length ≤ cap' then _ else _) = if out₁.length ≤ cap' then _ else _
    split_ifs <;> rfl
  · rfl
  · show sinfl_carry t (if out₁.length ≤ cap' then _ else _) = if out₁.length ≤ cap' then _ else _
    split_ifs <;> rfl

theorem carry_ne_over {t : SinflTables} {r : SinflOut Written (Sinfl × Written)}
    (h : sinfl_carry t r ≠ .full) :
    r ≠ .full := fun hover => h (by rw [hover]; rfl)

theorem block_limit {r : SinflOut Written (Sinfl × SinflTables × Written)} (h : Left inp s n)
    (hcap : out.length ≤ cap) (hout : out.length ≤ cap')
    (hrun : sinfl_block inp cap type s t out = some r) (hr : r ≠ .full) :
    sinfl_block inp cap' type s t out = some (r.limit (fun a => a.2.2.length) cap') := by
  rw [sinfl_block] at hrun ⊢
  split_ifs at hrun ⊢
  · obtain ⟨r₁, hstored, rfl⟩ := Option.map_eq_some_iff.mp hrun
    rw [stored_limit cap' hout hstored (carry_ne_over hr), Option.map_some, carry_limit]
  · obtain ⟨r₁, hblk, rfl⟩ := Option.map_eq_some_iff.mp hrun
    rw [blk_limit cap' (cap + 1) (cap' + 1) h hcap hout (by omega) hblk (carry_ne_over hr),
      Option.map_some, carry_limit]
  · obtain ⟨⟨s₁, t₁⟩, hdyn, hrun⟩ := Option.bind_eq_some_iff.mp hrun
    obtain ⟨r₁, hblk, rfl⟩ := Option.map_eq_some_iff.mp hrun
    rw [hdyn]
    show (sinfl_blk inp cap' t₁ (cap' + 1) s₁ out).map (sinfl_carry t₁) = _
    rw [blk_limit cap' (cap + 1) (cap' + 1) (dyn_left h hdyn) hcap hout (by omega) hblk
      (carry_ne_over hr), Option.map_some, carry_limit]
  · rw [← Option.some_inj.mp hrun]
    show _ = some (if out.length ≤ cap' then SinflOut.ret out else .full)
    rw [if_pos hout]

theorem blocks_limit (fuel : ℕ) {out' : Written} (h : Left inp s n) (hcap : out.length ≤ cap)
    (hout : out.length ≤ cap') (hrun : sinfl_blocks inp cap fuel s t out = some (some out')) :
    sinfl_blocks inp cap' fuel s t out = some (if out'.length ≤ cap' then some out' else none) := by
  induction fuel generalizing s t out n with
  | zero => exact nomatch hrun
  | succ fuel ih =>
    obtain ⟨rest, hread, hlen⟩ := h
    obtain ⟨⟨last, s₁⟩, hlast, hrun⟩ := Option.bind_eq_some_iff.mp hrun
    obtain ⟨⟨type, s₂⟩, htype, hrun⟩ := Option.bind_eq_some_iff.mp hrun
    obtain ⟨r, hblock, hrun⟩ := Option.bind_eq_some_iff.mp hrun
    obtain ⟨hread₂, hcnt₂, hend₂, -⟩ := head_any hread hlast htype
    have hpassed := block_passed hread₂ hcnt₂ hend₂ hcap hblock
    have hr : r ≠ .full := fun hover => by
      rw [hover] at hrun
      exact nomatch hrun
    rw [sinfl_blocks, hlast]
    show (pakka_sinfl__get s₁ 2).bind _ = _
    rw [htype]
    show (sinfl_block inp cap' type s₂ t out).bind _ = _
    rw [block_limit cap' ⟨_, hread₂, le_rfl⟩ hcap hout hblock hr]
    rcases r with out₃ | _ | ⟨s₃, t₃, out₃⟩
    · rw [← Option.some_inj.mp (Option.some_inj.mp hrun)]
      show (some (if out₃.length ≤ cap' then SinflOut.ret out₃ else .full)).bind _ = _
      split_ifs <;> rfl
    · exact absurd rfl hr
    · obtain ⟨hleft, -, hpre, hcap₃⟩ := hpassed
      show (some (if out₃.length ≤ cap' then SinflOut.go (s₃, t₃, out₃) else .full)).bind _ = _
      dsimp only at hrun
      by_cases hfits : out₃.length ≤ cap'
      · rw [if_pos hfits]
        show (if last ≠ 0 then some (some out₃) else sinfl_blocks inp cap' fuel s₃ t₃ out₃) = _
        split_ifs at hrun ⊢ with hfin hroom hroom
        · rw [← Option.some_inj.mp (Option.some_inj.mp hrun)]
        · rw [← Option.some_inj.mp (Option.some_inj.mp hrun)] at hroom
          exact absurd hfits hroom
        · rw [ih hleft hcap₃ hfits hrun, if_pos hroom]
        · rw [ih hleft hcap₃ hfits hrun, if_neg hroom]
      · -- it is too long already
        have hle : out₃.length ≤ out'.length := by
          split_ifs at hrun
          · rw [← Option.some_inj.mp (Option.some_inj.mp hrun)]
          · exact (blocks_grown fuel hleft hcap₃ hrun).1.length_le
        rw [if_neg hfits, if_neg (by omega)]
        rfl

end Capacity

/-- **The capacity is a threshold** and nothing else: an output is not longer than its capacity, it is
the same at every capacity that it fits in, and at every other the stream is refused. -/
theorem sinflate_capacity {inp : Bytes} {out : Written} {cap : ℕ}
    (h : pakka_sinflate cap inp = some (some out)) (cap' : ℕ) :
    out.length ≤ cap ∧
      pakka_sinflate cap' inp = some (if out.length ≤ cap' then some out else none) := by
  have hbound := blocks_grown _ (left_start inp) (Nat.zero_le _) h
  exact ⟨hbound.2, blocks_limit cap' _ (left_start inp) (Nat.zero_le _) (Nat.zero_le _) h⟩

/-- A stored block of three bytes. -/
theorem sinflate_capacity_three : pakka_sinflate 2 [1, 3, 0, 0xfc, 0xff, 7, 8, 9] = some none := by
  have h : pakka_sinflate 3 [1, 3, 0, 0xfc, 0xff, 7, 8, 9] =
      some (some (sinfl_known [7, 8, 9])) := by
    decide +kernel
  exact (sinflate_capacity h 2).2

end Pakka
