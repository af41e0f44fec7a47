/-
What the CRC is: the bitwise reflected CRC-32.

The source has a table and a loop, and says nothing about the polynomial. The table holds eight
steps of the shift register for every byte, so the update over a buffer is the register fed with its
bits, low bit first. The complements at the end of one chunk and the start of the next cancel, so
chunks of any sizes give the register of the whole.

The register and its table are a library of their own, over any width and polynomial. Here the
library is instantiated with the reflected polynomial of CRC-32 and compared with the source's table
entry by entry.
-/
import Pakka.Crc32
import Pakka.Lib.Crc

set_option autoImplicit false

namespace Pakka

open ByteImage Crc

/-- The reflected CRC-32 polynomial. -/
def crc32_polynomial : BitVec 32 := 0xEDB88320

/-- CRC-32, bit by bit: all ones to start with, and complemented in the end. -/
def crc32_bitwise (bs : Bytes) : UInt32 :=
  ⟨~~~feedBytes crc32_polynomial (BitVec.allOnes 32) (bs.map UInt8.toBitVec)⟩

/-- **The table** is eight steps of the register from every byte. -/
theorem pakka_crc32_table_entry : ∀ i : BitVec 8,
    (pakka_crc32_table.getD i.toNat 0).toBitVec = shifts crc32_polynomial 8 (i.setWidth 32) := by
  decide +kernel

/-- The low byte of a register. -/
theorem and_low_byte (x : UInt32) : (x &&& 0xFF).toNat = (x.toBitVec.setWidth 8).toNat := by
  rw [UInt32.toNat_and, BitVec.toNat_setWidth]
  exact Nat.and_two_pow_sub_one_eq_mod x.toNat 8

/-- **A byte of the loop** is a byte fed to the register. -/
theorem crc32_step_feeds (crc : UInt32) (b : UInt8) :
    (crc32_step crc b).toBitVec = feedByte crc32_polynomial crc.toBitVec b.toBitVec := by
  rw [feedByte_eq_table crc32_polynomial (by decide) pakka_crc32_table_entry, crc32_step,
    and_low_byte]
  rfl

theorem crc32_loop_feeds (bs : Bytes) (crc : UInt32) :
    (bs.foldl crc32_step crc).toBitVec =
      feedBytes crc32_polynomial crc.toBitVec (bs.map UInt8.toBitVec) := by
  induction bs generalizing crc with
  | nil => rfl
  | cons b bs ih =>
    rw [List.foldl_cons, ih, crc32_step_feeds]
    rfl

/-- Chaining over chunks is one update over all of them. -/
theorem pakka_crc32_update_flatten (chunks : List Bytes) (crc : UInt32) :
    chunks.foldl pakka_crc32_update crc = pakka_crc32_update crc chunks.flatten := by
  induction chunks generalizing crc with
  | nil => exact (pakka_crc32_update_nil crc).symm
  | cons chunk chunks ih => rw [List.foldl_cons, ih, List.flatten_cons, pakka_crc32_update_append]

/-- **Updates compose**, and what they compute is the bitwise CRC-32: however a byte string is cut
into chunks, chaining `pakka_crc32_update` over them from `0` delivers the CRC-32 of the whole. -/
theorem crc32_chunks (chunks : List Bytes) :
    chunks.foldl pakka_crc32_update 0 = crc32_bitwise chunks.flatten := by
  rw [pakka_crc32_update_flatten, pakka_crc32_update, crc32_bitwise]
  apply UInt32.toBitVec_inj.mp
  rw [UInt32.toBitVec_xor, crc32_loop_feeds]
  change _ ^^^ BitVec.allOnes 32 = _
  rw [BitVec.xor_allOnes]
  rfl

end Pakka
