/-
The names of ZIP entries.

A name is read from the central directory as it is where it is valid UTF-8, and recoded from
CP437 byte by byte where it is not. Either way what comes out is valid UTF-8 that fits the name
buffer, without control bytes if there were none, and it ends in a slash only if the raw
name did.

Control bytes are refused by the loader, so a name that was loaded can be printed and compared byte
by byte. The trailing slash is what marks a directory record, and it has to survive the decoding
because it is looked for in the raw name.
-/
import Pakka.ZipLoadSpec

set_option autoImplicit false

namespace Pakka

open ByteImage

/-! ## Names

What a name is that came out of the loader.
-/

/-- What the name of a ZIP entry is. -/
structure ZipName (bs : Bytes) : Prop where
  nonempty : bs ≠ []
  fits : bs.length < PAKKA_ENTRY_NAME_SIZE
  utf8 : pakka_is_valid_utf8 bs = true
  no_control : ∀ b ∈ bs, is_control_byte b = false

/-- A byte string that a scan for valid UTF-8 steps over. -/
def Utf8Whole (bs : Bytes) : Prop :=
  ∀ rest, pakka_is_valid_utf8 (bs ++ rest) = pakka_is_valid_utf8 rest

theorem Utf8Whole.nil : Utf8Whole [] := fun _ => rfl

theorem Utf8Whole.append {a b : Bytes} (ha : Utf8Whole a) (hb : Utf8Whole b) :
    Utf8Whole (a ++ b) := by
  intro rest
  rw [List.append_assoc, ha, hb]

theorem Utf8Whole.valid {bs : Bytes} (h : Utf8Whole bs) : pakka_is_valid_utf8 bs = true := by
  have := h []
  rwa [List.append_nil] at this

/-! ## CP437

A byte at a time: ASCII stays, and each of the other 128 characters is a sequence of two or three
bytes.
-/

/-- `Utf8Unit`, tested, of bytes from `0x80` on. -/
def is_utf8_unit (bs : Bytes) : Bool :=
  bs.all (fun b => 0x80 ≤ b) &&
    match bs with
    | [c, c1] => c &&& 0xE0 = 0xC0 && !(c < 0xC2) && is_continuation c1
    | [c, c1, c2] => !(c &&& 0xE0 = 0xC0) && c &&& 0xF0 = 0xE0 && is_continuation c1 &&
        is_continuation c2 && !(cp3 c c1 c2 < 0x800) &&
        !(cp3 c c1 c2 ≥ 0xD800 && cp3 c c1 c2 ≤ 0xDFFF)
    | _ => false

theorem is_utf8_unit_high {bs : Bytes} (h : is_utf8_unit bs = true) :
    ∀ b ∈ bs, ¬ b < 0x80 := by
  intro b hb
  simp only [is_utf8_unit, Bool.and_eq_true, List.all_eq_true, decide_eq_true_eq] at h
  exact UInt8.not_lt.mpr (h.1 b hb)

theorem is_utf8_unit_whole {bs : Bytes} (h : is_utf8_unit bs = true) :
    bs ≠ [] ∧ Utf8Whole bs := by
  have hhigh := is_utf8_unit_high h
  unfold is_utf8_unit at h
  rw [Bool.and_eq_true] at h
  obtain ⟨-, h⟩ := h
  match bs with
  | [c, c1] =>
    simp only [Bool.and_eq_true, decide_eq_true_eq, Bool.not_eq_true', decide_eq_false_iff_not]
      at h
    obtain ⟨⟨h1, h2⟩, h3⟩ := h
    exact ⟨by simp, fun rest => pakka_is_valid_utf8_unit rest
      (Utf8Unit.two (hhigh c (by simp)) h1 h2 h3)⟩
  | [c, c1, c2] =>
    simp only [Bool.and_eq_true, decide_eq_true_eq, Bool.not_eq_true', decide_eq_false_iff_not]
      at h
    obtain ⟨⟨⟨⟨⟨h1, h2⟩, h3⟩, h4⟩, h5⟩, h6⟩ := h
    exact ⟨by simp, fun rest => pakka_is_valid_utf8_unit rest
      (Utf8Unit.three (hhigh c (by simp)) h1 h2 h3 h4 h5 (by simpa using h6))⟩

/-- The room there is decides whether a code point is encoded, not how. -/
theorem pk3_utf8_encode_bmp_room {cp : UInt16} {cap : ℕ} {bs : Bytes}
    (h : pk3_utf8_encode_bmp cp cap = some bs) :
    pk3_utf8_encode_bmp cp 3 = some bs ∧ bs.length ≤ cap := by
  unfold pk3_utf8_encode_bmp at h ⊢
  split_ifs at h ⊢ <;> first
    | omega
    | exact ⟨h, by rw [← Option.some.inj h]; simp only [List.length_cons, List.length_nil]; omega⟩

/-- Every code point of the table is encoded as one unit. -/
theorem pk3_cp437_high_units :
    (pk3_cp437_high.all fun cp => (pk3_utf8_encode_bmp cp 3).all is_utf8_unit) = true := by
  decide +kernel

/-- A recoded byte from `0x80` on. -/
theorem pk3_cp437_unit {b : UInt8} {cap : ℕ} {bs : Bytes} (hb : ¬ b < 0x80)
    (h : pk3_utf8_encode_bmp (pk3_cp437_high.getD (b.toNat - 0x80) 0) cap = some bs) :
    is_utf8_unit bs = true ∧ bs.length ≤ cap := by
  obtain ⟨h3, hlen⟩ := pk3_utf8_encode_bmp_room h
  have hge : 0x80 ≤ b.toNat := UInt8.le_iff_toNat_le.mp (UInt8.not_lt.mp hb)
  have hlt : b.toNat - 0x80 < pk3_cp437_high.length := by
    have := UInt8.toNat_lt b
    have hlen : pk3_cp437_high.length = 128 := by decide +kernel
    omega
  have hmem : pk3_cp437_high.getD (b.toNat - 0x80) 0 ∈ pk3_cp437_high := by
    rw [List.getD_eq_getElem _ _ hlt]
    exact List.getElem_mem hlt
  have := List.all_eq_true.mp pk3_cp437_high_units _ hmem
  rw [h3] at this
  exact ⟨this, hlen⟩

/-- Bytes from `0x80` on are no control bytes, and no slash. -/
theorem high_byte_plain {b : UInt8} (h : ¬ b < 0x80) : is_control_byte b = false ∧ b ≠ 0x2F := by
  have hge : 0x80 ≤ b.toNat := UInt8.le_iff_toNat_le.mp (UInt8.not_lt.mp h)
  constructor
  · simp only [is_control_byte, Bool.or_eq_false_iff, decide_eq_false_iff_not, UInt8.not_lt,
      UInt8.le_iff_toNat_le]
    refine ⟨Nat.le_trans (by decide) hge, ?_⟩
    rintro rfl
    exact absurd hge (by decide)
  · rintro rfl
    exact absurd hge (by decide)

/-- What recoding makes of a raw name: whole UTF-8, something of something, no new control bytes
and no new slash at the end. -/
structure Recodes (src out : Bytes) : Prop where
  whole : Utf8Whole out
  nonempty : out = [] → src = []
  no_control : (∀ b ∈ src, is_control_byte b = false) → ∀ b ∈ out, is_control_byte b = false
  slash : out.getLast? = some 0x2F → src.getLast? = some 0x2F

theorem Recodes.nil : Recodes [] [] := by
  refine ⟨Utf8Whole.nil, fun _ => rfl, ?_, fun hx => hx⟩
  intro _ b hb
  cases hb

/-- One byte in front. -/
theorem Recodes.cons {b : UInt8} {u src out : Bytes} (hu : Recodes [b] u) (h : Recodes src out) :
    Recodes (b :: src) (u ++ out) := by
  refine ⟨hu.whole.append h.whole, ?_, ?_, ?_⟩
  · intro hx
    cases hu.nonempty (List.append_eq_nil_iff.mp hx).1
  · intro hall x hx
    rcases List.mem_append.mp hx with hx | hx
    · refine hu.no_control ?_ x hx
      intro y hy
      rw [List.mem_singleton.mp hy]
      exact hall b List.mem_cons_self
    · exact h.no_control (fun y hy => hall y (List.mem_cons_of_mem _ hy)) x hx
  · intro hx
    by_cases hm : out = []
    · rw [hm, List.append_nil] at hx
      rw [h.nonempty hm]
      exact hu.slash hx
    · have hlast : (u ++ out).getLast? = out.getLast? := by
        rw [List.getLast?_append, List.getLast?_eq_some_getLast hm]
        rfl
      rw [hlast] at hx
      rw [List.getLast?_cons, h.slash hx]
      rfl

theorem recodes_ascii {b : UInt8} (hb : b < 0x80) : Recodes [b] [b] :=
  ⟨fun rest => pakka_is_valid_utf8_cons_ascii rest hb, fun hx => hx, fun hx => hx, fun hx => hx⟩

theorem recodes_unit {b : UInt8} {u : Bytes} (hu : is_utf8_unit u = true) : Recodes [b] u := by
  obtain ⟨hne, hwhole⟩ := is_utf8_unit_whole hu
  have hhigh := is_utf8_unit_high hu
  refine ⟨hwhole, fun hx => absurd hx hne, ?_, ?_⟩
  · intro _ x hx
    exact (high_byte_plain (hhigh x hx)).1
  · intro hx
    exact absurd rfl (high_byte_plain (hhigh _ (List.mem_of_getLast? hx))).2

/-- One round of the loop: an ASCII byte is kept, any other recoded. -/
theorem pk3_decode_cp437_cons {dst_cap : ℕ} {b : UInt8} {src out bs : Bytes}
    (h : pk3_decode_cp437 dst_cap (b :: src) out = some bs) :
    ∃ u, Recodes [b] u ∧ out.length + u.length < dst_cap ∧
      pk3_decode_cp437 dst_cap src (out ++ u) = some bs := by
  rw [pk3_decode_cp437] at h
  split_ifs at h with hb hfit
  · exact ⟨[b], recodes_ascii hb, by rw [List.length_singleton]; omega, h⟩
  · split at h
    · cases h
    · rename_i u hu
      obtain ⟨hunit, hroom⟩ := pk3_cp437_unit hb hu
      have hpos : 0 < u.length := List.length_pos_iff.mpr (is_utf8_unit_whole hunit).1
      exact ⟨u, recodes_unit hunit, by omega, h⟩

/-- **The recoding loop** appends what recodes the rest, and stops short of the buffer's end. -/
theorem pk3_decode_cp437_ok {dst_cap : ℕ} (src : Bytes) {out bs : Bytes}
    (h : pk3_decode_cp437 dst_cap src out = some bs) (hlen : out.length < dst_cap) :
    bs.length < dst_cap ∧ ∃ more, bs = out ++ more ∧ Recodes src more := by
  induction src generalizing out with
  | nil =>
    obtain rfl := Option.some.inj h
    exact ⟨hlen, [], by simp, Recodes.nil⟩
  | cons b src ih =>
    obtain ⟨u, hu, hfit, hrest⟩ := pk3_decode_cp437_cons h
    obtain ⟨hl, more, hbs, hm⟩ := ih hrest (by rw [List.length_append]; exact hfit)
    exact ⟨hl, u ++ more, by rw [hbs, List.append_assoc], hu.cons hm⟩

/-- **Decoding a name**, read as it is or recoded. -/
theorem pk3_decode_entry_name_ok {src bs : Bytes} {gp_flags : UInt16}
    (h : pk3_decode_entry_name src gp_flags PAKKA_ENTRY_NAME_SIZE = .name bs) (hne : src ≠ [])
    (hctl : ∀ b ∈ src, is_control_byte b = false) :
    ZipName bs ∧ (bs.getLast? = some 0x2F → src.getLast? = some 0x2F) := by
  unfold pk3_decode_entry_name at h
  rw [if_neg (by decide)] at h
  by_cases hv : pakka_is_valid_utf8 src = true
  · rw [if_pos hv] at h
    split_ifs at h with hfit
    obtain rfl := Decoded.name.inj h
    exact ⟨⟨hne, by omega, hv, hctl⟩, fun hx => hx⟩
  · rw [if_neg hv] at h
    split_ifs at h
    split at h
    · cases h
    · rename_i out hout
      obtain rfl := Decoded.name.inj h
      obtain ⟨hl, more, rfl, hm⟩ := pk3_decode_cp437_ok src hout (by decide)
      exact ⟨⟨fun hx => hne (hm.nonempty hx), hl, hm.whole.valid, hm.no_control hctl⟩, hm.slash⟩

end Pakka
