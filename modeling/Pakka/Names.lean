/-
Entry names: the safety check every new name passes, the normalisation that
`pakka_verify` compares by, UTF-8 validation, and the decoding of ZIP names with
its CP437 fallback.

These are functions of names only, and all of them are loops over bytes. They are here together
because every format and every command uses some of them; what they compute is said in the modules
on safety, normal forms and UTF-8.
-/
import Pakka.Basic
import Mathlib.Data.List.DropRight

set_option autoImplicit false

namespace Pakka

open ByteImage

/-! ## Safety

`pakka_unsafe_entry_name`, with its table of device names, and what the bytes of a name are that
passes.
-/

/-- `/` and `\`. -/
def is_separator (c : UInt8) : Bool := c = 0x2F || c = 0x5C

/-- `win_reserved_names`. -/
def win_reserved_names : List Bytes :=
  ["CON", "PRN", "AUX", "NUL",
    "COM0", "COM1", "COM2", "COM3", "COM4", "COM5", "COM6", "COM7", "COM8", "COM9",
    "LPT0", "LPT1", "LPT2", "LPT3", "LPT4", "LPT5", "LPT6", "LPT7", "LPT8", "LPT9"].map ascii

/-- ASCII upper case. -/
def ascii_upper (c : UInt8) : UInt8 := if 0x61 ≤ c && c ≤ 0x7A then c - 32 else c

/-- ASCII lower case. -/
def ascii_lower (c : UInt8) : UInt8 := if 0x41 ≤ c && c ≤ 0x5A then c - 0x41 + 0x61 else c

/-- A segment is reserved by what stands before its first dot. -/
def is_reserved_device_name (seg : Bytes) : Bool :=
  let base := seg.takeWhile (· ≠ 0x2E)
  win_reserved_names.any fun name =>
    name.length = base.length && base.map ascii_upper = name

def is_unsafe_segment (seg : Bytes) : Bool :=
  if seg.length = 0 then true
  else if seg = [0x2E] then true
  else if seg = [0x2E, 0x2E] then true
  else if seg.any (fun c => c < 0x20 || c = 0x7F || c = 0x3A) then true
  else if seg.getLast? = some 0x2E || seg.getLast? = some 0x20 then true
  else is_reserved_device_name seg

/-- The walk over the segments; `seg` is the current one up to here. -/
def unsafe_segments : Bytes → Bytes → Bool
  | [], seg => is_unsafe_segment seg
  | c :: rest, seg =>
    if is_separator c then
      if is_unsafe_segment seg then true else unsafe_segments rest []
    else unsafe_segments rest (seg ++ [c])

def pakka_unsafe_entry_name (path : CStr) : Bool :=
  match path.bytes with
  | [] => true
  | c :: _ => if is_separator c then true else unsafe_segments path.bytes []

/-- A safe segment has no control bytes, nor a separator's place at its end. -/
theorem safe_segment_bytes {seg : Bytes} (h : is_unsafe_segment seg = false) :
    seg ≠ [] ∧ ∀ c ∈ seg, ¬ c < 0x20 ∧ c ≠ 0x7F := by
  unfold is_unsafe_segment at h
  split_ifs at h with h1 h2 h3 h4 h5
  refine ⟨fun he => h1 (by rw [he]; rfl), ?_⟩
  intro c hc
  have h4' : ¬ (c < 0x20 || c = 0x7F || c = 0x3A) = true := by
    intro hbad
    exact h4 (List.any_eq_true.mpr ⟨c, hc, hbad⟩)
  simp only [Bool.or_eq_true, decide_eq_true_eq, not_or] at h4'
  exact ⟨h4'.1.1, h4'.1.2⟩

/-- A walk that finds nothing unsafe has seen no control byte and does not end at a
separator. -/
theorem safe_segments_bytes {rest seg : Bytes} (hseg : ∀ c ∈ seg, is_separator c = false)
    (h : unsafe_segments rest seg = false) :
    (∀ c ∈ seg ++ rest, ¬ c < 0x20 ∧ c ≠ 0x7F) ∧
      ∃ c, (seg ++ rest).getLast? = some c ∧ is_separator c = false := by
  induction rest generalizing seg with
  | nil =>
    rw [List.append_nil]
    obtain ⟨hne, hb⟩ := safe_segment_bytes h
    exact ⟨hb, _, List.getLast?_eq_some_getLast hne, hseg _ (List.getLast_mem hne)⟩
  | cons c rest ih =>
    simp only [unsafe_segments] at h
    by_cases hc : is_separator c = true
    · rw [if_pos hc] at h
      by_cases hs : is_unsafe_segment seg = true
      · rw [if_pos hs] at h
        cases h
      · rw [if_neg hs] at h
        obtain ⟨hrest, l, hl, hlsep⟩ := ih (by simp) h
        rw [List.nil_append] at hrest hl
        refine ⟨?_, l, ?_, hlsep⟩
        · intro b hb
          rcases List.mem_append.mp hb with hb | hb
          · exact (safe_segment_bytes (by simpa using hs)).2 b hb
          rcases List.mem_cons.mp hb with rfl | hb
          · simp only [is_separator, Bool.or_eq_true, decide_eq_true_eq] at hc
            rcases hc with rfl | rfl <;> decide
          · exact hrest b hb
        · rw [List.getLast?_append, List.getLast?_cons, hl]
          rfl
    · rw [if_neg hc] at h
      have happ : seg ++ c :: rest = seg ++ [c] ++ rest := by simp
      rw [happ]
      refine ih ?_ h
      intro b hb
      rcases List.mem_append.mp hb with hb | hb
      · exact hseg b hb
      · rw [List.mem_singleton.mp hb]
        simpa using hc

/-- **What a safe name looks like**: not empty, no control byte, no separator at its end. -/
theorem safe_name_bytes {name : CStr} (h : pakka_unsafe_entry_name name = false) :
    (∀ c ∈ name.bytes, ¬ c < 0x20 ∧ c ≠ 0x7F) ∧
      ∃ c, name.bytes.getLast? = some c ∧ is_separator c = false := by
  unfold pakka_unsafe_entry_name at h
  cases hn : name.bytes with
  | nil =>
    rw [hn] at h
    cases h
  | cons c rest =>
    rw [hn] at h
    simp only at h
    split_ifs at h
    simpa using safe_segments_bytes (by simp) h

/-! ## Normalisation

A loop over the name with a bounded output.
-/

/-- Drop trailing dots and spaces of the segment that starts at `seg_start`. -/
def strip_segment (dst : Bytes) (seg_start : ℕ) : Bytes :=
  dst.take seg_start ++ (dst.drop seg_start).rdropWhile (fun c => c = 0x2E || c = 0x20)

/-- The loop of `pakka_normalize_entry_name`, over the rest of `src`. -/
def normalize_loop (dstsz : ℕ) : Bytes → Bytes → ℕ → Bytes
  | src, dst, seg_start =>
    if dst.length + 1 < dstsz then
      match src with
      | [] => strip_segment dst seg_start
      | c :: src =>
        if is_separator c then
          let dst := strip_segment dst seg_start ++ [0x2F]
          normalize_loop dstsz src dst dst.length
        else normalize_loop dstsz src (dst ++ [ascii_lower c]) seg_start
    else dst

/-- `pakka_normalize_entry_name` into a buffer of `dstsz` bytes. -/
def pakka_normalize_entry_name (src : CStr) (dstsz : ℕ) : Bytes :=
  if dstsz = 0 then [] else normalize_loop dstsz src.bytes [] 0

/-! ## UTF-8

The scan of `pakka_is_valid_utf8`, by the class of the first byte.
-/

/-- `(s[i] & 0xC0) == 0x80`. -/
def is_continuation (c : UInt8) : Bool := c &&& 0xC0 = 0x80

/-- The code point of a three-byte sequence. -/
def cp3 (c c1 c2 : UInt8) : UInt32 :=
  ((c &&& 0x0F).toUInt32 <<< 12) ||| ((c1 &&& 0x3F).toUInt32 <<< 6) ||| (c2 &&& 0x3F).toUInt32

/-- The code point of a four-byte sequence. -/
def cp4 (c c1 c2 c3 : UInt8) : UInt32 :=
  ((c &&& 0x07).toUInt32 <<< 18) ||| ((c1 &&& 0x3F).toUInt32 <<< 12) |||
    ((c2 &&& 0x3F).toUInt32 <<< 6) ||| (c3 &&& 0x3F).toUInt32

/-- `pakka_is_valid_utf8`. -/
def pakka_is_valid_utf8 : Bytes → Bool
  | [] => true
  | c :: rest =>
    if c < 0x80 then pakka_is_valid_utf8 rest
    else if c &&& 0xE0 = 0xC0 then
      if c < 0xC2 then false
      else
        match rest with
        | c1 :: rest => if is_continuation c1 then pakka_is_valid_utf8 rest else false
        | _ => false
    else if c &&& 0xF0 = 0xE0 then
      match rest with
      | c1 :: c2 :: rest =>
        if !is_continuation c1 then false
        else if !is_continuation c2 then false
        else if cp3 c c1 c2 < 0x800 then false
        else if cp3 c c1 c2 ≥ 0xD800 && cp3 c c1 c2 ≤ 0xDFFF then false
        else pakka_is_valid_utf8 rest
      | _ => false
    else if c &&& 0xF8 = 0xF0 then
      if c > 0xF4 then false
      else
        match rest with
        | c1 :: c2 :: c3 :: rest =>
          if !is_continuation c1 then false
          else if !is_continuation c2 then false
          else if !is_continuation c3 then false
          else if cp4 c c1 c2 c3 < 0x10000 then false
          else if cp4 c c1 c2 c3 > 0x10FFFF then false
          else pakka_is_valid_utf8 rest
        | _ => false
    else false

/-! ## ZIP names

A name that is valid as UTF-8 is taken as it is, with or without the flag. One that is not is an
error under the flag, and is read as CP437 without.
-/

/-- `pk3_cp437_high`: the code points of the bytes from `0x80`. -/
@[irreducible] def pk3_cp437_high : List UInt16 := [
  0x00C7, 0x00FC, 0x00E9, 0x00E2, 0x00E4, 0x00E0, 0x00E5, 0x00E7,
  0x00EA, 0x00EB, 0x00E8, 0x00EF, 0x00EE, 0x00EC, 0x00C4, 0x00C5,
  0x00C9, 0x00E6, 0x00C6, 0x00F4, 0x00F6, 0x00F2, 0x00FB, 0x00F9,
  0x00FF, 0x00D6, 0x00DC, 0x00A2, 0x00A3, 0x00A5, 0x20A7, 0x0192,
  0x00E1, 0x00ED, 0x00F3, 0x00FA, 0x00F1, 0x00D1, 0x00AA, 0x00BA,
  0x00BF, 0x2310, 0x00AC, 0x00BD, 0x00BC, 0x00A1, 0x00AB, 0x00BB,
  0x2591, 0x2592, 0x2593, 0x2502, 0x2524, 0x2561, 0x2562, 0x2556,
  0x2555, 0x2563, 0x2551, 0x2557, 0x255D, 0x255C, 0x255B, 0x2510,
  0x2514, 0x2534, 0x252C, 0x251C, 0x2500, 0x253C, 0x255E, 0x255F,
  0x255A, 0x2554, 0x2569, 0x2566, 0x2560, 0x2550, 0x256C, 0x2567,
  0x2568, 0x2564, 0x2565, 0x2559, 0x2558, 0x2552, 0x2553, 0x256B,
  0x256A, 0x2518, 0x250C, 0x2588, 0x2584, 0x258C, 0x2590, 0x2580,
  0x03B1, 0x00DF, 0x0393, 0x03C0, 0x03A3, 0x03C3, 0x00B5, 0x03C4,
  0x03A6, 0x0398, 0x03A9, 0x03B4, 0x221E, 0x03C6, 0x03B5, 0x2229,
  0x2261, 0x00B1, 0x2265, 0x2264, 0x2320, 0x2321, 0x00F7, 0x2248,
  0x00B0, 0x2219, 0x00B7, 0x221A, 0x207F, 0x00B2, 0x25A0, 0x00A0]

/-- `pk3_utf8_encode_bmp`: the bytes, unless they do not fit in `cap`. -/
def pk3_utf8_encode_bmp (cp : UInt16) (cap : ℕ) : Option Bytes :=
  if cp < 0x80 then if cap < 1 then none else some [cp.toUInt8]
  else if cp < 0x800 then
    if cap < 2 then none
    else some [(0xC0 : UInt8) ||| (cp >>> 6).toUInt8, (0x80 : UInt8) ||| (cp &&& 0x3F).toUInt8]
  else if cap < 3 then none
  else some [(0xE0 : UInt8) ||| (cp >>> 12).toUInt8, (0x80 : UInt8) ||| ((cp >>> 6) &&& 0x3F).toUInt8,
    (0x80 : UInt8) ||| (cp &&& 0x3F).toUInt8]

/-- The CP437 loop of `pk3_decode_entry_name`, with `out` written so far. -/
def pk3_decode_cp437 (dst_cap : ℕ) : Bytes → Bytes → Option Bytes
  | [], out => some out
  | b :: src, out =>
    if b < 0x80 then
      if out.length + 1 ≥ dst_cap then none else pk3_decode_cp437 dst_cap src (out ++ [b])
    else
      match pk3_utf8_encode_bmp (pk3_cp437_high.getD (b.toNat - 0x80) 0)
          (dst_cap - out.length - 1) with
      | none => none
      | some bs => pk3_decode_cp437 dst_cap src (out ++ bs)

/-- How decoding a name ends. -/
inductive Decoded where
  | name (bs : Bytes)
  | toolong
  | bit11_invalid
  deriving DecidableEq, Repr

/-- `pk3_decode_entry_name`. -/
def pk3_decode_entry_name (src : Bytes) (gp_flags : UInt16) (dst_cap : ℕ) : Decoded :=
  if dst_cap = 0 then .toolong
  else if pakka_is_valid_utf8 src then
    if src.length + 1 > dst_cap then .toolong else .name src
  else if gp_flags &&& 0x0800 ≠ 0 then .bit11_invalid
  else
    match pk3_decode_cp437 dst_cap src [] with
    | none => .toolong
    | some bs => .name bs

/-- A valid UTF-8 name that fits is taken as it is. -/
theorem pk3_decode_entry_name_utf8 {src : Bytes} {gp_flags : UInt16} {dst_cap : ℕ}
    (hv : pakka_is_valid_utf8 src = true) (hl : src.length + 1 ≤ dst_cap) :
    pk3_decode_entry_name src gp_flags dst_cap = .name src := by
  unfold pk3_decode_entry_name
  rw [if_neg (by omega), if_pos hv, if_neg (by omega)]

/-- An ASCII byte in front changes nothing. -/
theorem pakka_is_valid_utf8_cons_ascii {c : UInt8} (rest : Bytes) (h : c < 0x80) :
    pakka_is_valid_utf8 (c :: rest) = pakka_is_valid_utf8 rest := by
  conv_lhs => rw [pakka_is_valid_utf8.eq_def]
  simp only
  rw [if_pos h]

/-- What the encoder of a code point has to deliver for a decoder to step over it: one,
two or three bytes of the right classes. -/
inductive Utf8Unit : Bytes → Prop where
  | two {c c1 : UInt8} (h0 : ¬ c < 0x80) (h1 : c &&& 0xE0 = 0xC0) (h2 : ¬ c < 0xC2)
      (h3 : is_continuation c1 = true) : Utf8Unit [c, c1]
  | three {c c1 c2 : UInt8} (h0 : ¬ c < 0x80) (h1 : ¬ c &&& 0xE0 = 0xC0)
      (h2 : c &&& 0xF0 = 0xE0) (h3 : is_continuation c1 = true)
      (h4 : is_continuation c2 = true) (h5 : ¬ cp3 c c1 c2 < 0x800)
      (h6 : ¬ (cp3 c c1 c2 ≥ 0xD800 && cp3 c c1 c2 ≤ 0xDFFF) = true) : Utf8Unit [c, c1, c2]

/-- A unit in front changes nothing. -/
theorem pakka_is_valid_utf8_unit {bs : Bytes} (rest : Bytes) (h : Utf8Unit bs) :
    pakka_is_valid_utf8 (bs ++ rest) = pakka_is_valid_utf8 rest := by
  cases h with
  | two h0 h1 h2 h3 =>
    simp only [List.cons_append, List.nil_append]
    conv_lhs => rw [pakka_is_valid_utf8.eq_def]
    simp only
    rw [if_neg h0, if_pos h1, if_neg h2, if_pos h3]
  | three h0 h1 h2 h3 h4 h5 h6 =>
    simp only [List.cons_append, List.nil_append]
    conv_lhs => rw [pakka_is_valid_utf8.eq_def]
    simp only
    rw [if_neg h0, if_neg h1, if_pos h2, h3, h4, if_neg (by simp), if_neg (by simp), if_neg h5,
      if_neg h6]

end Pakka
