/-
Decoding a ZIP name and writing it back.

Whatever a raw name is, what decoding makes of it is valid UTF-8, and a valid UTF-8 name decodes to
itself under any flags. So the flags the writer computes for a decoded name do not matter for
reading it back. ASCII is untouched by either decoding: every other byte of a result is part of a
sequence of bytes from `0x80` on.

The same is true of the part of the name that fits a small buffer. The decoder is also given with
its writes checked, for every capacity: it stays in the buffer, and the return value is the length
of what it left there.
-/
import Pakka.ZipNames
import Pakka.ZipWrite
import Pakka.Lib.Buffer
import Pakka.Utf8Scan

set_option autoImplicit false

namespace Pakka

open ByteImage

/-! ## ASCII

The bytes below 128 of a name are those of its decoding, in their order.
-/

/-- The ASCII bytes of a string, in order. -/
def ascii_bytes (bs : Bytes) : Bytes := bs.filter fun b => b < 0x80

theorem ascii_bytes_append (a b : Bytes) : ascii_bytes (a ++ b) = ascii_bytes a ++ ascii_bytes b :=
  List.filter_append a b

/-- A string of bytes from `0x80` on has none. -/
theorem ascii_bytes_high {bs : Bytes} (h : ∀ b ∈ bs, ¬ b < 0x80) : ascii_bytes bs = [] := by
  refine List.filter_eq_nil_iff.mpr ?_
  intro b hb
  simpa using h b hb

/-- **Recoding keeps the ASCII bytes.** -/
theorem pk3_decode_cp437_ascii {dst_cap : ℕ} (src : Bytes) {out bs : Bytes}
    (h : pk3_decode_cp437 dst_cap src out = some bs) :
    ascii_bytes bs = ascii_bytes out ++ ascii_bytes src := by
  induction src generalizing out with
  | nil =>
    obtain rfl := Option.some.inj h
    exact (List.append_nil _).symm
  | cons b src ih =>
    rw [pk3_decode_cp437] at h
    rw [← List.singleton_append, ascii_bytes_append [b]]
    split_ifs at h with hb hfit
    · rw [ih h, ascii_bytes_append, List.append_assoc]
    · split at h
      · cases h
      · rename_i u hu
        have hunit := (pk3_cp437_unit hb hu).1
        have hhigh : ascii_bytes [b] = [] := ascii_bytes_high (by simpa using hb)
        rw [ih h, ascii_bytes_append, ascii_bytes_high (is_utf8_unit_high hunit), hhigh,
          List.append_nil, List.nil_append]

/-! ## Into a buffer

Every write is checked, for every capacity; the result is as long as the return value says.
-/

/-- How decoding ends, less the bytes: those are in the buffer. -/
inductive DecodeReturn where
  | length (n : ℕ)
  | toolong
  | bit11_invalid
  deriving DecidableEq, Repr

/-- The CP437 loop over checked accesses, with `out` bytes written so far. -/
def pk3_decode_cp437_checked (dst_cap : ℕ) : Bytes → Bytes → ℕ → Option (Bytes × DecodeReturn)
  | [], dst, out => do
    let dst ← Buffer.store dst out [0]
    some (dst, .length out)
  | b :: src, dst, out =>
    if b < 0x80 then
      if out + 1 ≥ dst_cap then some (dst, .toolong)
      else do
        let dst ← Buffer.store dst out [b]
        pk3_decode_cp437_checked dst_cap src dst (out + 1)
    else do
      let cp ← pk3_cp437_high[b.toNat - 0x80]?
      -- the room is a difference of unsigned numbers
      let room ← if out + 1 ≤ dst_cap then some (dst_cap - out - 1) else none
      match pk3_utf8_encode_bmp cp room with
      | none => some (dst, .toolong)
      | some bs => do
        let dst ← Buffer.store dst out bs
        pk3_decode_cp437_checked dst_cap src dst (out + bs.length)

/-- `pk3_decode_entry_name` over checked accesses. -/
def pk3_decode_entry_name_checked (src : Bytes) (gp_flags : UInt16) (dst : Bytes) (dst_cap : ℕ) :
    Option (Bytes × DecodeReturn) :=
  if dst_cap = 0 then some (dst, .toolong)
  else do
    let valid ← pakka_is_valid_utf8_checked src src.length 0
    if valid then
      if src.length + 1 > dst_cap then some (dst, .toolong)
      else do
        let bytes ← Buffer.load src 0 src.length
        let dst ← Buffer.store dst 0 bytes
        let dst ← Buffer.store dst src.length [0]
        some (dst, .length src.length)
    else if gp_flags &&& 0x0800 ≠ 0 then some (dst, .bit11_invalid)
    else pk3_decode_cp437_checked dst_cap src dst 0

/-- A buffer and a return code hold what decoding gives. -/
def Holds (dst_cap : ℕ) (r : Bytes × DecodeReturn) : Decoded → Prop
  | .name bs => r.2 = .length bs.length ∧ r.1.length = dst_cap ∧ ∃ rest, r.1 = bs ++ 0 :: rest
  | .toolong => r.2 = .toolong ∧ r.1.length = dst_cap
  | .bit11_invalid => r.2 = .bit11_invalid ∧ r.1.length = dst_cap

/-- How the plain CP437 loop ends. -/
def cp437_outcome : Option Bytes → Decoded
  | none => .toolong
  | some bs => .name bs

/-- **The recoding loop stays inside** its buffer and its table. -/
theorem pk3_decode_cp437_checked_holds {dst_cap : ℕ} (src out more : Bytes)
    (hroom : out.length < dst_cap) (hcap : (out ++ more).length = dst_cap) :
    ∃ r, pk3_decode_cp437_checked dst_cap src (out ++ more) out.length = some r ∧
      Holds dst_cap r (cp437_outcome (pk3_decode_cp437 dst_cap src out)) := by
  induction src generalizing out more with
  | nil =>
    rw [List.length_append] at hcap
    rw [pk3_decode_cp437_checked, pk3_decode_cp437,
      Buffer.store_append out [0] more (by rw [List.length_singleton]; omega)]
    refine ⟨_, rfl, rfl, ?_, more.drop 1, ?_⟩
    · simp only [List.length_append, List.length_singleton, List.length_drop]
      omega
    · simp
  | cons b src ih =>
    rw [List.length_append] at hcap
    rw [pk3_decode_cp437_checked, pk3_decode_cp437]
    by_cases hb : b < 0x80
    · rw [if_pos hb, if_pos hb]
      by_cases hfull : out.length + 1 ≥ dst_cap
      · rw [if_pos hfull, if_pos hfull]
        exact ⟨_, rfl, rfl, by rw [List.length_append, hcap]⟩
      · rw [if_neg hfull, if_neg hfull,
          Buffer.store_append out [b] more (by rw [List.length_singleton]; omega)]
        have h := ih (out ++ [b]) (more.drop 1)
          (by rw [List.length_append, List.length_singleton]; omega)
          (by simp only [List.length_append, List.length_drop, List.length_singleton]; omega)
        rw [List.length_append, List.length_singleton] at h
        exact h
    -- a byte of the upper half becomes a sequence, or there is no room for it
    · have hlt : b.toNat - 0x80 < pk3_cp437_high.length := by
        have := UInt8.toNat_lt b
        have hlen : pk3_cp437_high.length = 128 := by decide +kernel
        omega
      rw [if_neg hb, if_neg hb, List.getElem?_eq_getElem hlt, List.getD_eq_getElem _ _ hlt,
        Option.bind_eq_bind, Option.bind_some, if_pos (by omega), Option.bind_eq_bind,
        Option.bind_some]
      beta_reduce
      cases henc : pk3_utf8_encode_bmp pk3_cp437_high[b.toNat - 0x80]
          (dst_cap - out.length - 1) with
      | none => exact ⟨_, rfl, rfl, by rw [List.length_append, hcap]⟩
      | some u =>
        have hu : u.length ≤ dst_cap - out.length - 1 := (pk3_utf8_encode_bmp_room henc).2
        simp only
        rw [Buffer.store_append out u more (by omega)]
        have h := ih (out ++ u) (more.drop u.length) (by rw [List.length_append]; omega)
          (by simp only [List.length_append, List.length_drop]; omega)
        rw [List.length_append] at h
        exact h

/-- **Decoding stays inside** its buffers, whatever the name and however small the buffer. -/
theorem pk3_decode_entry_name_checked_holds (src : Bytes) (gp_flags : UInt16) (dst : Bytes) :
    ∃ r, pk3_decode_entry_name_checked src gp_flags dst dst.length = some r ∧
      Holds dst.length r (pk3_decode_entry_name src gp_flags dst.length) := by
  have hvalid := pakka_is_valid_utf8_checked_from (Nat.zero_le src.length)
  rw [List.drop_zero] at hvalid
  unfold pk3_decode_entry_name_checked pk3_decode_entry_name
  by_cases hcap : dst.length = 0
  · rw [if_pos hcap, if_pos hcap]
    exact ⟨_, rfl, rfl, rfl⟩
  · rw [if_neg hcap, if_neg hcap, hvalid, Option.bind_eq_bind, Option.bind_some]
    by_cases hutf8 : pakka_is_valid_utf8 src = true
    · rw [if_pos hutf8, if_pos hutf8]
      by_cases hlong : src.length + 1 > dst.length
      · rw [if_pos hlong, if_pos hlong]
        exact ⟨_, rfl, rfl, rfl⟩
      · have hload : Buffer.load src 0 src.length = some src := by
          rw [Buffer.load_of_le (by omega), List.drop_zero, List.take_length]
        have hfirst := Buffer.store_append [] src dst (by omega)
        rw [List.nil_append, List.nil_append, List.length_nil] at hfirst
        have hlast := Buffer.store_append src [0] (dst.drop src.length) (by
          rw [List.length_singleton, List.length_drop]
          omega)
        rw [if_neg hlong, if_neg hlong]
        simp only [hload, hfirst, hlast, Option.bind_eq_bind, Option.bind_some]
        refine ⟨_, rfl, rfl, ?_, (dst.drop src.length).drop 1, ?_⟩
        · simp only [List.length_append, List.length_drop, List.length_singleton]
          omega
        · simp
    · rw [if_neg hutf8, if_neg hutf8]
      by_cases hflag : gp_flags &&& 0x0800 ≠ 0
      · rw [if_pos hflag, if_pos hflag]
        exact ⟨_, rfl, rfl, rfl⟩
      · rw [if_neg hflag, if_neg hflag]
        obtain ⟨r, hr, hholds⟩ := pk3_decode_cp437_checked_holds src [] dst
          (Nat.pos_of_ne_zero hcap) rfl
        refine ⟨r, hr, ?_⟩
        revert hholds
        cases pk3_decode_cp437 dst.length src [] with
        | none => exact fun h => h
        | some bs => exact fun h => h

/-! ## The codec

Decoding what was decoded.
-/

/-- **What a decoded name is**: valid, short enough, and with the ASCII bytes of the raw name. -/
theorem pk3_decode_entry_name_result {src bs : Bytes} {gp_flags : UInt16} {dst_cap : ℕ}
    (h : pk3_decode_entry_name src gp_flags dst_cap = .name bs) :
    pakka_is_valid_utf8 bs = true ∧ bs.length + 1 ≤ dst_cap ∧ ascii_bytes bs = ascii_bytes src := by
  unfold pk3_decode_entry_name at h
  by_cases hcap : dst_cap = 0
  · rw [if_pos hcap] at h
    cases h
  rw [if_neg hcap] at h
  by_cases hv : pakka_is_valid_utf8 src = true
  · rw [if_pos hv] at h
    split_ifs at h with hfit
    obtain rfl := Decoded.name.inj h
    exact ⟨hv, by omega, rfl⟩
  · rw [if_neg hv] at h
    split_ifs at h
    split at h
    · cases h
    · rename_i out hout
      obtain rfl := Decoded.name.inj h
      obtain ⟨hlen, more, rfl, hm⟩ := pk3_decode_cp437_ok src hout (Nat.pos_of_ne_zero hcap)
      exact ⟨hm.whole.valid, hlen, pk3_decode_cp437_ascii src hout⟩

/-- A byte string with the ASCII bytes of one without NUL has no NUL. -/
theorem no_nul_of_ascii_bytes {src bs : Bytes} (h : ascii_bytes bs = ascii_bytes src)
    (hsrc : (0 : UInt8) ∉ src) : (0 : UInt8) ∉ bs := by
  intro hmem
  have hascii : (0 : UInt8) ∈ ascii_bytes bs := List.mem_filter.mpr ⟨hmem, by decide⟩
  rw [h] at hascii
  exact hsrc (List.mem_filter.mp hascii).1

/-- **The name codec is stable.** Decoding writes inside its buffer, and what it leaves there is a
valid name with the ASCII bytes of the raw one; written back, under the flags of any part of it, it
is read as it is. -/
theorem zip_name_codec_stable (src : CStr) (gp_flags : UInt16) (dst : Bytes) :
    (∃ r, pk3_decode_entry_name_checked src.bytes gp_flags dst dst.length = some r ∧
      Holds dst.length r (pk3_decode_entry_name src.bytes gp_flags dst.length)) ∧
    ∀ bs, pk3_decode_entry_name src.bytes gp_flags dst.length = .name bs →
      pakka_is_valid_utf8 bs = true ∧ bs.length ≤ dst.length - 1 ∧ (0 : UInt8) ∉ bs ∧
        ascii_bytes bs = ascii_bytes src.bytes ∧
        ∀ name_len,
          pk3_decode_entry_name bs (pk3_gp_flags_for_name (bs.take name_len)) dst.length =
            .name bs := by
  refine ⟨pk3_decode_entry_name_checked_holds src.bytes gp_flags dst, ?_⟩
  intro bs h
  obtain ⟨hv, hlen, hascii⟩ := pk3_decode_entry_name_result h
  refine ⟨hv, by omega, no_nul_of_ascii_bytes hascii src.no_nul, hascii, ?_⟩
  intro name_len
  exact pk3_decode_entry_name_utf8 hv hlen

/-- A letter and a byte of CP437 that takes two of UTF-8. -/
def cp437_name : CStr := ⟨[0x61, 0x80], by decide⟩

theorem zip_name_codec_stable_cp437 :
    pakka_is_valid_utf8 [0x61, 0xC3, 0x87] = true ∧
      pk3_decode_entry_name [0x61, 0xC3, 0x87] (pk3_gp_flags_for_name [0x61, 0xC3, 0x87]) 4 =
        .name [0x61, 0xC3, 0x87] := by
  obtain ⟨hv, -, -, -, hagain⟩ := (zip_name_codec_stable cp437_name 0 [0, 0, 0, 0]).2
    [0x61, 0xC3, 0x87] (by decide +kernel)
  exact ⟨hv, hagain 3⟩

end Pakka
