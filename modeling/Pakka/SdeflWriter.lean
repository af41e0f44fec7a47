/-
The bit writer of the encoder.

The bits that were put are those of the bytes in front of `*dst`, and then the fewer than eight in
the accumulator. Putting a field puts its bits behind them.

`Writes` is the relation between the writer's state and the bits put so far. Everything that is said
about what the encoder writes is said with it, and the accumulator does not occur outside of this
module.
-/
import Pakka.Sdefl
import Pakka.Lib.BitString

set_option autoImplicit false

namespace Pakka

open Cells BitString ByteImage

/-- The writer has put the bits `bs`. -/
structure Writes (w : SdeflBits) (bs : List Bool) : Prop where
  cnt_lt : w.bitcnt < 8
  bits_lt : w.bits < 2 ^ w.bitcnt
  eq : ofBytes w.out ++ ofNat w.bits w.bitcnt = bs

theorem writes_start : Writes ⟨[], 0, 0⟩ [] := ⟨by decide, by decide, rfl⟩

section Put

variable {w : SdeflBits} {bs : List Bool}

/-- Bytes leave the accumulator from its low end. -/
theorem put_loop_spec (fuel : ℕ) (hbits : w.bits < 2 ^ w.bitcnt) (hfuel : w.bitcnt < 8 + 8 * fuel) :
    Writes (sdefl_put_loop fuel w) (ofBytes w.out ++ ofNat w.bits w.bitcnt) := by
  induction fuel generalizing w with
  | zero => exact ⟨by rw [sdefl_put_loop]; omega, hbits, rfl⟩
  | succ fuel ih =>
    rw [sdefl_put_loop]
    split_ifs with hge
    · have hpow : 2 ^ w.bitcnt = 2 ^ 8 * 2 ^ (w.bitcnt - 8) := by
        rw [← pow_add]
        congr 1
        omega
      have hhigh : w.bits >>> 8 < 2 ^ (w.bitcnt - 8) := by
        rw [Nat.shiftRight_eq_div_pow, Nat.div_lt_iff_lt_mul (Nat.two_pow_pos 8), Nat.mul_comm,
          ← hpow]
        exact hbits
      have hbyte : ofNat (UInt8.ofNat (w.bits &&& 0xff)).toNat 8 = ofNat w.bits 8 := by
        rw [show (0xff : ℕ) = 2 ^ 8 - 1 from rfl, Nat.and_two_pow_sub_one_eq_mod, UInt8.toNat_ofNat',
          Nat.mod_mod, ofNat_mod]
      have hnext := ih (w := ⟨w.out ++ [UInt8.ofNat (w.bits &&& 0xff)], w.bits >>> 8, w.bitcnt - 8⟩)
        hhigh (by dsimp only; omega)
      dsimp only at hnext
      have hall : ofBytes (w.out ++ [UInt8.ofNat (w.bits &&& 0xff)]) ++
          ofNat (w.bits >>> 8) (w.bitcnt - 8) = ofBytes w.out ++ ofNat w.bits w.bitcnt := by
        rw [ofBytes_append, ofBytes_cons, ofBytes_nil, List.append_nil, hbyte,
          Nat.shiftRight_eq_div_pow, List.append_assoc, ← ofNat_add,
          show 8 + (w.bitcnt - 8) = w.bitcnt by omega]
      rwa [hall] at hnext
    · exact ⟨by omega, hbits, rfl⟩

/-- **Putting a field.** -/
theorem Writes.put (h : Writes w bs) {code cnt : ℕ} (hcode : code < 2 ^ cnt) :
    Writes (pakka_sdefl_put w code cnt) (bs ++ ofNat code cnt) := by
  have hor : w.bits ||| (code <<< w.bitcnt) = w.bits + 2 ^ w.bitcnt * code := by
    rw [Nat.lor_comm, ← Nat.shiftLeft_add_eq_or_of_lt h.bits_lt, Nat.shiftLeft_eq]
    ring
  have hlt : w.bits ||| (code <<< w.bitcnt) < 2 ^ (w.bitcnt + cnt) := by
    rw [hor, pow_add]
    have hbits := h.bits_lt
    calc w.bits + 2 ^ w.bitcnt * code < 2 ^ w.bitcnt * (code + 1) := by rw [Nat.mul_succ]; omega
      _ ≤ 2 ^ w.bitcnt * 2 ^ cnt := Nat.mul_le_mul_left _ hcode
  have hput := put_loop_spec (w := { w with
      bits := w.bits ||| (code <<< w.bitcnt), bitcnt := w.bitcnt + cnt }) (w.bitcnt + cnt) hlt
    (by dsimp only; omega)
  dsimp only at hput
  rw [hor, ← ofNat_append _ _ h.bits_lt, ← List.append_assoc, h.eq] at hput
  rw [pakka_sdefl_put, hor]
  exact hput

/-- Up to the next byte. -/
theorem Writes.pad (h : Writes w bs) :
    let w' := if w.bitcnt ≠ 0 then pakka_sdefl_put w 0 (8 - w.bitcnt) else w
    w'.bitcnt = 0 ∧ ∃ k, k < 8 ∧ 8 ∣ bs.length + k ∧ Writes w' (bs ++ List.replicate k false) := by
  have hlen := congrArg List.length h.eq
  rw [List.length_append, length_ofBytes, length_ofNat] at hlen
  have hcnt := h.cnt_lt
  dsimp only
  split_ifs with h0
  · have hput := h.put (show 0 < 2 ^ (8 - w.bitcnt) from Nat.two_pow_pos _)
    rw [ofNat_of_zero] at hput
    have hlen' := congrArg List.length hput.eq
    rw [List.length_append, length_ofBytes, length_ofNat, List.length_append,
      List.length_replicate] at hlen'
    have hcnt' := hput.cnt_lt
    exact ⟨by omega, 8 - w.bitcnt, by omega, by omega, hput⟩
  · refine ⟨by omega, 0, by omega, by omega, ?_⟩
    rw [List.replicate_zero, List.append_nil]
    exact h

/-- On the boundary of a byte, bytes are put as they are. -/
theorem Writes.bytes (h : Writes w bs) (h0 : w.bitcnt = 0) (b : Bytes) :
    Writes { w with out := w.out ++ b } (bs ++ ofBytes b) := by
  have heq := h.eq
  rw [h0, ofNat_zero, List.append_nil] at heq
  refine ⟨h.cnt_lt, h.bits_lt, ?_⟩
  rw [h0, ofNat_zero, List.append_nil, ofBytes_append, heq]

theorem ofBytes_pair (x : ℕ) :
    ofBytes [UInt8.ofNat (x &&& 0xff), UInt8.ofNat (x >>> 8)] = ofNat x 16 := by
  rw [ofBytes_cons, ofBytes_cons, ofBytes_nil, List.append_nil,
    show (0xff : ℕ) = 2 ^ 8 - 1 from rfl, Nat.and_two_pow_sub_one_eq_mod, UInt8.toNat_ofNat',
    UInt8.toNat_ofNat', Nat.mod_mod, ofNat_mod, ofNat_mod, Nat.shiftRight_eq_div_pow,
    show 16 = 8 + 8 from rfl, ofNat_add]

theorem Writes.put16 (h : Writes w bs) (h0 : w.bitcnt = 0) (x : ℕ) :
    Writes (pakka_sdefl_put16 w x) (bs ++ ofNat x 16) ∧ (pakka_sdefl_put16 w x).bitcnt = 0 := by
  have hput := h.bytes h0 [UInt8.ofNat (x &&& 0xff), UInt8.ofNat (x >>> 8)]
  rw [ofBytes_pair] at hput
  exact ⟨hput, h0⟩

end Put

end Pakka
