/-
The grammar of the Daikatana byte codec, and the decoder as its interpreter.

A `DkToken` is one of the four opcode classes with its operands in the range the opcode can
express, so its word is determined and nothing else has that word: `dk_code` is a token code,
and a stream has at most one reading. What a token adds to the output is `expand`, where a back
reference is the closed form `refer` and not the copying loop of the decoder.

The decoder is `dk_decode`, run on some input after some output. `dk_decode_ok` says what a
decoding that succeeds can have done first, `dk_decode_token` that it does it; from the two,
`dk_decode_iff` says which streams it accepts and what it makes of them.
-/
import Pakka.DkCodec
import Pakka.Lib.TokenStream

set_option autoImplicit false

namespace Pakka

open ByteImage

/-! ## Tokens

The opcodes fall into four ranges, and where an opcode stands in its range says a length. The
terminator is the one opcode that belongs to no token.
-/

/-- A token of the stream. -/
inductive DkToken where
  | literal (bytes : Bytes) (range : 1 ≤ bytes.length ∧ bytes.length ≤ 64)
  | zero_run (n : ℕ) (range : 2 ≤ n ∧ n ≤ 65)
  | byte_run (n : ℕ) (v : UInt8) (range : 2 ≤ n ∧ n ≤ 65)
  | back_ref (n distance : ℕ) (range : (2 ≤ n ∧ n ≤ 63) ∧ 2 ≤ distance ∧ distance ≤ 257)

namespace DkToken

/-- The opcode byte, as a number. -/
def opcode : DkToken → ℕ
  | literal bytes _ => bytes.length - 1
  | zero_run n _ => n + 62
  | byte_run n _ _ => n + 126
  | back_ref n _ _ => n + 190

/-- What follows the opcode. -/
def operand : DkToken → Bytes
  | literal bytes _ => bytes
  | zero_run _ _ => []
  | byte_run _ v _ => [v]
  | back_ref _ distance _ => [UInt8.ofNat (distance - 2)]

/-- The token as it stands in the stream. -/
def word (t : DkToken) : Bytes := UInt8.ofNat t.opcode :: t.operand

/-- How many bytes the token produces. -/
def size : DkToken → ℕ
  | literal bytes _ => bytes.length
  | zero_run n _ => n
  | byte_run n _ _ => n
  | back_ref n _ _ => n

/-- How far back the token looks. -/
def reach : DkToken → ℕ
  | back_ref _ distance _ => distance
  | _ => 0

/-- The bytes the token produces after some output. -/
def expand (out : Bytes) : DkToken → Bytes
  | literal bytes _ => bytes
  | zero_run n _ => List.replicate n 0
  | byte_run n v _ => List.replicate n v
  | back_ref n distance _ => refer out distance n 0

@[simp] theorem expand_length (out : Bytes) (t : DkToken) : (t.expand out).length = t.size := by
  cases t <;> simp [expand, size]

/-- **No opcode is out of its class**, and none is the gap or the terminator. -/
theorem opcode_range (t : DkToken) : match t with
    | literal _ _ => t.opcode < 64
    | zero_run _ _ => 64 ≤ t.opcode ∧ t.opcode < 128
    | byte_run _ _ _ => 128 ≤ t.opcode ∧ t.opcode < 192
    | back_ref _ distance _ => (192 ≤ t.opcode ∧ t.opcode < 254) ∧ distance - 2 < 256 := by
  cases t <;> simp only [opcode] <;> omega

theorem opcode_lt (t : DkToken) : t.opcode < 254 := by
  have h := t.opcode_range
  cases t <;> simp only at h <;> omega

end DkToken

/-- An 8-bit cast is reversible below 256. -/
@[simp] theorem toNat_ofNat_of_lt {n : ℕ} (h : n < 256) : (UInt8.ofNat n).toNat = n := by
  rw [UInt8.toNat_ofNat']
  omega

theorem ofNat_inj_of_lt {m n : ℕ} (hm : m < 256) (hn : n < 256)
    (h : UInt8.ofNat m = UInt8.ofNat n) : m = n := by
  rw [← toNat_ofNat_of_lt hm, ← toNat_ofNat_of_lt hn, h]

/-- The word of a token determines it, whatever follows. -/
theorem DkToken.word_inj {t t' : DkToken} {r r' : Bytes} (h : t.word ++ r = t'.word ++ r') :
    t = t' := by
  obtain ⟨hhead, hrest⟩ := List.cons.inj h
  have hop : t.opcode = t'.opcode :=
    ofNat_inj_of_lt (t.opcode_lt.trans (by decide)) (t'.opcode_lt.trans (by decide)) hhead
  have ht := t.opcode_range
  have ht' := t'.opcode_range
  rw [hop] at ht
  -- two tokens of different classes have different opcodes
  cases t <;> cases t' <;> simp only at ht ht' <;> try omega
  all_goals simp only [opcode] at hop
  all_goals simp only [operand] at hrest
  · rename_i bytes hb bytes' hb'
    have hlen : bytes.length = bytes'.length := by omega
    obtain rfl := (List.append_inj hrest hlen).1
    rfl
  · obtain rfl := Nat.add_right_cancel hop
    rfl
  · obtain rfl := Nat.add_right_cancel hop
    obtain rfl := (List.cons.inj hrest).1
    rfl
  · obtain rfl := Nat.add_right_cancel hop
    have hd := ofNat_inj_of_lt (by omega) (by omega) (List.cons.inj hrest).1
    congr 1
    omega

/-- The stream format: the words of the tokens, and `0xFF` ends a stream. -/
def dk_code : TokenCode DkToken UInt8 where
  word := DkToken.word
  stop := 0xFF
  word_head t := by
    refine ⟨_, _, rfl, ?_⟩
    intro h
    have h255 := congrArg UInt8.toNat h
    have hlt := t.opcode_lt
    rw [toNat_ofNat_of_lt (by omega)] at h255
    have : (0xFF : UInt8).toNat = 255 := by decide
    omega
  word_inj _ _ _ _ := DkToken.word_inj

@[simp] theorem dk_code_word (t : DkToken) : dk_code.word t = t.word := rfl

@[simp] theorem dk_code_stop : dk_code.stop = 0xFF := rfl

/-- The bytes of a token say what it is: its opcode byte is in its own class, and its length and
its distance read back from the bytes. -/
def DkToken.Legible (t : DkToken) : Prop :=
  let b := (UInt8.ofNat t.opcode).toNat
  match t with
  | literal bytes _ => b < 64 ∧ b + 1 = bytes.length
  | zero_run n _ => (64 ≤ b ∧ b < 128) ∧ b - 62 = n
  | byte_run n _ _ => (128 ≤ b ∧ b < 192) ∧ b - 126 = n
  | back_ref n distance _ =>
    (192 ≤ b ∧ b < 254) ∧ b - 190 = n ∧ (UInt8.ofNat (distance - 2)).toNat + 2 = distance

/-- **No wrap.** The casts to a byte lose nothing. -/
theorem DkToken.legible (t : DkToken) : t.Legible := by
  unfold Legible
  rw [toNat_ofNat_of_lt (t.opcode_lt.trans (by decide))]
  have hrange := t.opcode_range
  cases t with
  | literal bytes range =>
    refine ⟨hrange, ?_⟩
    simp only [opcode]
    omega
  | zero_run n range => exact ⟨hrange, Nat.add_sub_cancel n 62⟩
  | byte_run n v range => exact ⟨hrange, Nat.add_sub_cancel n 126⟩
  | back_ref n distance range =>
    refine ⟨hrange.1, Nat.add_sub_cancel n 190, ?_⟩
    rw [toNat_ofNat_of_lt hrange.2]
    omega

/-! ## Denotation

A list of tokens denotes what they add to an output one after the other. A reference is in reach if
it goes back no further than the output is long.
-/

/-- The output after some tokens. -/
def dk_denote (out : Bytes) : List DkToken → Bytes
  | [] => out
  | t :: ts => dk_denote (out ++ t.expand out) ts

/-- Every token of a list has a property that depends on how many bytes were produced before
it, `produced` for the first. -/
def dk_along (p : ℕ → DkToken → Prop) (produced : ℕ) : List DkToken → Prop
  | [] => True
  | t :: ts => p produced t ∧ dk_along p (produced + t.size) ts

/-- No token looks back further than the start of the output. -/
def dk_in_reach (produced : ℕ) (ts : List DkToken) : Prop :=
  dk_along (fun produced t => t.reach ≤ produced) produced ts

theorem dk_along_append {p : ℕ → DkToken → Prop} {produced : ℕ} {ts us : List DkToken} :
    dk_along p produced (ts ++ us) ↔
      dk_along p produced ts ∧ dk_along p (produced + (ts.map DkToken.size).sum) us := by
  induction ts generalizing produced with
  | nil => simp [dk_along]
  | cons t ts ih =>
    rw [List.cons_append, dk_along, dk_along, ih, List.map_cons, List.sum_cons, Nat.add_assoc,
      and_assoc]

theorem dk_along_mono {p q : ℕ → DkToken → Prop} (hpq : ∀ n t, p n t → q n t) {produced : ℕ}
    {ts : List DkToken} (h : dk_along p produced ts) : dk_along q produced ts := by
  induction ts generalizing produced with
  | nil => trivial
  | cons t ts ih => exact ⟨hpq _ _ h.1, ih h.2⟩

theorem dk_denote_append (out : Bytes) (ts us : List DkToken) :
    dk_denote out (ts ++ us) = dk_denote (dk_denote out ts) us := by
  induction ts generalizing out with
  | nil => rfl
  | cons t ts ih => exact ih _

theorem dk_denote_length (out : Bytes) (ts : List DkToken) :
    (dk_denote out ts).length = out.length + (ts.map DkToken.size).sum := by
  induction ts generalizing out with
  | nil => rfl
  | cons t ts ih =>
    rw [dk_denote, ih, List.length_append, DkToken.expand_length, List.map_cons, List.sum_cons,
      Nat.add_assoc]

/-- **The copying loop** of the decoder produces what the reference stands for: the symbol
`distance` back is in the output also where the copy overlaps itself. -/
theorem dk_copy_back_eq_refer {out : Bytes} {distance : ℕ} (hd : 0 < distance)
    (hle : distance ≤ out.length) (k n : ℕ) :
    dk_copy_back distance n (out ++ refer out distance k 0) =
      out ++ refer out distance (k + n) 0 := by
  induction n generalizing k with
  | zero => rfl
  | succ n ih =>
    rw [dk_copy_back, getD_append_refer k 0 hd hle, List.append_assoc, ← refer_succ, ih]
    congr 2
    omega

/-! ## The decoder, token by token

One token of a well-formed stream is one iteration of the loop, and a loop that ends well has read
tokens only.
-/

/-- The decoding loop with as much fuel as there is input. -/
def dk_decode (out_len : ℕ) (inp out : Bytes) : Except Status Bytes :=
  dk_inflate_loop out_len inp.length inp out

private theorem dk_inflate_loop_fuel_aux (out_len : ℕ) :
    ∀ (fuel fuel' : ℕ) (inp out : Bytes), inp.length ≤ fuel → inp.length ≤ fuel' →
      dk_inflate_loop out_len fuel inp out = dk_inflate_loop out_len fuel' inp out := by
  intro fuel
  induction fuel with
  | zero =>
    intro fuel' inp out h _
    obtain rfl := List.length_eq_zero_iff.mp (Nat.le_zero.mp h)
    cases fuel' <;> rfl
  | succ fuel ih =>
    intro fuel' inp out h h'
    cases inp with
    | nil => cases fuel' <;> rfl
    | cons b inp =>
      cases fuel' with
      | zero => simp at h'
      | succ fuel' =>
        simp only [List.length_cons, Nat.add_le_add_iff_right] at h h'
        have hdrop : ∀ k, (inp.drop k).length ≤ fuel ∧ (inp.drop k).length ≤ fuel' := by
          intro k
          rw [List.length_drop]
          omega
        -- in every class of opcodes the rest of the input is shorter
        simp only [dk_inflate_loop]
        by_cases h64 : b.toNat < 64
        · rw [if_pos h64, if_pos h64]
          split_ifs
          · rfl
          · rfl
          · exact ih _ _ _ (hdrop _).1 (hdrop _).2
        rw [if_neg h64, if_neg h64]
        by_cases h128 : b.toNat < 128
        · rw [if_pos h128, if_pos h128]
          split_ifs
          · rfl
          · exact ih _ _ _ h h'
        rw [if_neg h128, if_neg h128]
        by_cases h192 : b.toNat < 192
        · rw [if_pos h192, if_pos h192]
          cases inp with
          | nil => rfl
          | cons v inp =>
            simp only [List.length_cons] at h h' ⊢
            split_ifs
            · rfl
            · exact ih _ _ _ (by omega) (by omega)
        rw [if_neg h192, if_neg h192]
        by_cases h254 : b.toNat < 254
        · rw [if_pos h254, if_pos h254]
          cases inp with
          | nil => rfl
          | cons d inp =>
            simp only [List.length_cons] at h h' ⊢
            split_ifs
            · rfl
            · rfl
            · exact ih _ _ _ (by omega) (by omega)
        rw [if_neg h254, if_neg h254]

/-- **Enough fuel.** The loop never uses more iterations than there is input. -/
theorem dk_inflate_loop_fuel {out_len fuel : ℕ} {inp : Bytes} (out : Bytes)
    (h : inp.length ≤ fuel) :
    dk_inflate_loop out_len fuel inp out = dk_decode out_len inp out :=
  dk_inflate_loop_fuel_aux out_len _ _ _ _ h (Nat.le_refl _)

@[simp] theorem dk_decode_nil (out_len : ℕ) (out : Bytes) : dk_decode out_len [] out = .ok out := rfl

/-- One iteration of the loop. -/
theorem dk_decode_cons (out_len : ℕ) (b : UInt8) (inp out : Bytes) :
    dk_decode out_len (b :: inp) out =
      if b.toNat < 64 then
        if b.toNat + 1 > inp.length then .error .format
        else if b.toNat + 1 > out_len - out.length then .error .format
        else dk_decode out_len (inp.drop (b.toNat + 1)) (out ++ inp.take (b.toNat + 1))
      else if b.toNat < 128 then
        if b.toNat - 62 > out_len - out.length then .error .format
        else dk_decode out_len inp (out ++ List.replicate (b.toNat - 62) 0)
      else if b.toNat < 192 then
        match inp with
        | [] => .error .format
        | v :: inp =>
          if b.toNat - 126 > out_len - out.length then .error .format
          else dk_decode out_len inp (out ++ List.replicate (b.toNat - 126) v)
      else if b.toNat < 254 then
        match inp with
        | [] => .error .format
        | d :: inp =>
          if d.toNat + 2 > out.length then .error .format
          else if b.toNat - 190 > out_len - out.length then .error .format
          else dk_decode out_len inp (dk_copy_back (d.toNat + 2) (b.toNat - 190) out)
      else if b.toNat = 254 then .error .format
      else .ok out := by
  have hfuel : ∀ k out', dk_inflate_loop out_len inp.length (inp.drop k) out' =
      dk_decode out_len (inp.drop k) out' := by
    intro k out'
    apply dk_inflate_loop_fuel
    rw [List.length_drop]
    omega
  have htail : ∀ v (tail : Bytes) out', inp = v :: tail →
      dk_inflate_loop out_len inp.length tail out' = dk_decode out_len tail out' := by
    rintro v tail out' rfl
    exact dk_inflate_loop_fuel _ (Nat.le_succ _)
  have hfull : ∀ out', dk_inflate_loop out_len inp.length inp out' = dk_decode out_len inp out' :=
    fun _ => rfl
  simp only [dk_decode, List.length_cons, dk_inflate_loop]
  simp only [hfuel, hfull]
  cases inp with
  | nil => rfl
  | cons v tail =>
    simp only [htail v tail _ rfl]
    rfl

/-- The decoder does what a token in front of the input says, when its reference reaches no
further than the output and the room is there. -/
theorem dk_decode_token {out_len : ℕ} (t : DkToken) {rest out : Bytes}
    (hreach : t.reach ≤ out.length) (hroom : out.length + t.size ≤ out_len) :
    dk_decode out_len (t.word ++ rest) out = dk_decode out_len rest (out ++ t.expand out) := by
  cases t with
  | literal bytes range =>
    change out.length + bytes.length ≤ out_len at hroom
    have hlen : bytes.length - 1 + 1 = bytes.length := by omega
    rw [DkToken.word, DkToken.opcode, DkToken.operand, DkToken.expand, List.cons_append,
      dk_decode_cons, toNat_ofNat_of_lt (by omega), if_pos (by omega), hlen,
      if_neg (by rw [List.length_append]; omega), if_neg (by omega), List.drop_left,
      List.take_left]
  | zero_run n range =>
    change out.length + n ≤ out_len at hroom
    rw [DkToken.word, DkToken.opcode, DkToken.operand, DkToken.expand, List.cons_append,
      dk_decode_cons, toNat_ofNat_of_lt (by omega), if_neg (by omega), if_pos (by omega),
      Nat.add_sub_cancel, if_neg (by omega), List.nil_append]
  | byte_run n v range =>
    change out.length + n ≤ out_len at hroom
    rw [DkToken.word, DkToken.opcode, DkToken.operand, DkToken.expand, List.cons_append,
      dk_decode_cons, toNat_ofNat_of_lt (by omega), if_neg (by omega), if_neg (by omega),
      if_pos (by omega), List.singleton_append, Nat.add_sub_cancel]
    exact if_neg (by omega)
  | back_ref n distance range =>
    change out.length + n ≤ out_len at hroom
    change distance ≤ out.length at hreach
    have hcopy := dk_copy_back_eq_refer (by omega) hreach 0 n
    rw [refer_zero, List.append_nil, Nat.zero_add] at hcopy
    rw [DkToken.word, DkToken.opcode, DkToken.operand, DkToken.expand, List.cons_append,
      dk_decode_cons, toNat_ofNat_of_lt (by omega), if_neg (by omega), if_neg (by omega),
      if_neg (by omega), if_pos (by omega), List.singleton_append, Nat.add_sub_cancel]
    simp only
    rw [toNat_ofNat_of_lt (by omega), Nat.sub_add_cancel range.2.1, if_neg (by omega),
      if_neg (by omega), hcopy]

/-- **What a decoding that succeeds did first**: nothing, where the stream ends, or one token. -/
theorem dk_decode_ok {out_len : ℕ} {inp out o : Bytes} (h : dk_decode out_len inp out = .ok o) :
    (dk_code.Ended inp ∧ o = out) ∨ ∃ (t : DkToken) (rest : Bytes), inp = t.word ++ rest ∧
      t.reach ≤ out.length ∧ t.size ≤ out_len - out.length ∧
      dk_decode out_len rest (out ++ t.expand out) = .ok o := by
  cases inp with
  | nil => exact Or.inl ⟨TokenCode.Ended.nil, (Except.ok.inj h).symm⟩
  | cons b inp =>
    have hb : UInt8.ofNat b.toNat = b := UInt8.ofNat_toNat
    -- once the token is known, the loop did what `dk_decode_token` says
    have hfirst : ∀ (t : DkToken) (rest : Bytes), b :: inp = t.word ++ rest →
        t.reach ≤ out.length → t.size ≤ out_len - out.length → 0 < t.size →
        ∃ (t : DkToken) (rest : Bytes), b :: inp = t.word ++ rest ∧
          t.reach ≤ out.length ∧ t.size ≤ out_len - out.length ∧
          dk_decode out_len rest (out ++ t.expand out) = .ok o := by
      intro t rest hin hreach hsize hpos
      refine ⟨t, rest, hin, hreach, hsize, ?_⟩
      rw [← dk_decode_token t hreach (by omega), ← hin]
      exact h
    have hstep := h
    rw [dk_decode_cons] at hstep
    by_cases h64 : b.toNat < 64
    · rw [if_pos h64] at hstep
      split_ifs at hstep with hin hout
      refine Or.inr (hfirst (.literal (inp.take (b.toNat + 1)) ?_) (inp.drop (b.toNat + 1)) ?_
        (Nat.zero_le _) ?_ ?_)
      · rw [List.length_take]
        omega
      · have hlen : (inp.take (b.toNat + 1)).length - 1 = b.toNat := by
          rw [List.length_take]
          omega
        simp only [DkToken.word, DkToken.opcode, DkToken.operand]
        rw [hlen, hb, List.cons_append, List.take_append_drop]
      · simp only [DkToken.size, List.length_take]
        omega
      · simp only [DkToken.size, List.length_take]
        omega
    rw [if_neg h64] at hstep
    by_cases h128 : b.toNat < 128
    · rw [if_pos h128] at hstep
      split_ifs at hstep with hout
      refine Or.inr (hfirst (.zero_run (b.toNat - 62) (by omega)) inp ?_ (Nat.zero_le _) ?_ ?_)
      · simp only [DkToken.word, DkToken.opcode, DkToken.operand]
        rw [Nat.sub_add_cancel (by omega), hb]
        rfl
      · simp only [DkToken.size]
        omega
      · simp only [DkToken.size]
        omega
    rw [if_neg h128] at hstep
    by_cases h192 : b.toNat < 192
    · rw [if_pos h192] at hstep
      cases inp with
      | nil => cases hstep
      | cons v rest =>
        simp only at hstep
        split_ifs at hstep with hout
        refine Or.inr (hfirst (.byte_run (b.toNat - 126) v (by omega)) rest ?_ (Nat.zero_le _)
          ?_ ?_)
        · simp only [DkToken.word, DkToken.opcode, DkToken.operand]
          rw [Nat.sub_add_cancel (by omega), hb]
          rfl
        · simp only [DkToken.size]
          omega
        · simp only [DkToken.size]
          omega
    rw [if_neg h192] at hstep
    by_cases h254 : b.toNat < 254
    · rw [if_pos h254] at hstep
      cases inp with
      | nil => cases hstep
      | cons d rest =>
        have hd := d.toNat_lt
        simp only at hstep
        split_ifs at hstep with hback hout
        refine Or.inr (hfirst (.back_ref (b.toNat - 190) (d.toNat + 2) (by omega)) rest ?_ ?_ ?_ ?_)
        · simp only [DkToken.word, DkToken.opcode, DkToken.operand]
          rw [Nat.sub_add_cancel (by omega), hb, Nat.add_sub_cancel, UInt8.ofNat_toNat]
          rfl
        · simp only [DkToken.reach]
          omega
        · simp only [DkToken.size]
          omega
        · simp only [DkToken.size]
          omega
    rw [if_neg h254] at hstep
    split_ifs at hstep with hgap
    have h255 : b = 0xFF := by
      have hlt := b.toNat_lt
      have h' : b.toNat = 255 := by omega
      rw [← hb, h']
      rfl
    rw [h255]
    exact Or.inl ⟨TokenCode.Ended.stop inp, (Except.ok.inj hstep).symm⟩

/-- Where a stream ends, so does the decoding. -/
theorem dk_decode_ended {out_len : ℕ} {inp out : Bytes} (h : dk_code.Ended inp) :
    dk_decode out_len inp out = .ok out := by
  rcases h with rfl | ⟨junk, rfl⟩
  · exact dk_decode_nil out_len out
  · have h255 : (0xFF : UInt8).toNat = 255 := by decide
    rw [dk_code_stop, dk_decode_cons, h255, if_neg (by omega), if_neg (by omega),
      if_neg (by omega), if_neg (by omega), if_neg (by omega)]

/-- A stream whose tokens reach nowhere they must not and whose denotation fits is decoded to
that denotation. -/
theorem dk_decode_reads {out_len : ℕ} (ts : List DkToken) {inp out : Bytes}
    (h : dk_code.Reads inp ts) (hreach : dk_in_reach out.length ts)
    (hroom : (dk_denote out ts).length ≤ out_len) :
    dk_decode out_len inp out = .ok (dk_denote out ts) := by
  obtain ⟨rest, rfl, hend⟩ := h
  induction ts generalizing out with
  | nil => exact dk_decode_ended hend
  | cons t ts ih =>
    obtain ⟨ht, hts⟩ := hreach
    have hlen : (out ++ t.expand out).length = out.length + t.size := by
      rw [List.length_append, DkToken.expand_length]
    have hroom' : out.length + t.size ≤ out_len := by
      rw [dk_denote, dk_denote_length, hlen] at hroom
      omega
    rw [TokenCode.encode_cons, dk_code_word, List.append_assoc, dk_decode_token t ht hroom']
    exact ih (by rwa [hlen]) hroom

/-- A decoding that succeeds has read tokens. -/
theorem reads_of_dk_decode {out_len : ℕ} (n : ℕ) {inp out o : Bytes} (hn : inp.length ≤ n)
    (hle : out.length ≤ out_len) (h : dk_decode out_len inp out = .ok o) :
    ∃ ts, dk_code.Reads inp ts ∧ dk_in_reach out.length ts ∧ dk_denote out ts = o ∧
      o.length ≤ out_len := by
  induction n generalizing inp out with
  | zero =>
    obtain rfl := List.length_eq_zero_iff.mp (Nat.le_zero.mp hn)
    obtain rfl := Except.ok.inj h
    exact ⟨[], TokenCode.Ended.nil.reads, trivial, rfl, hle⟩
  | succ n ih =>
    rcases dk_decode_ok h with ⟨hend, rfl⟩ | ⟨t, rest, rfl, hreach, hsize, hrest⟩
    · exact ⟨[], hend.reads, trivial, rfl, hle⟩
    · have hlen : (out ++ t.expand out).length = out.length + t.size := by
        rw [List.length_append, DkToken.expand_length]
      have hshort : rest.length ≤ n := by
        rw [DkToken.word, List.cons_append, List.length_cons, List.length_append] at hn
        omega
      obtain ⟨ts, hts, hin, hden, ho⟩ := ih hshort (by rw [hlen]; omega) hrest
      rw [hlen] at hin
      exact ⟨t :: ts, hts.cons t, ⟨hreach, hin⟩, hden, ho⟩

/-- **The decoder is the interpreter of the grammar.** -/
theorem dk_inflate_iff (inp : Bytes) (out_len : ℕ) (out : Bytes) :
    pakka_dk_inflate inp out_len = .ok out ↔
      ∃ ts, dk_code.Reads inp ts ∧ dk_in_reach 0 ts ∧ dk_denote [] ts = out ∧
        out.length = out_len := by
  have hdec : dk_inflate_loop out_len inp.length inp [] = dk_decode out_len inp [] := rfl
  unfold pakka_dk_inflate
  rw [hdec]
  constructor
  · intro h
    cases hrun : dk_decode out_len inp [] with
    | error s =>
      rw [hrun] at h
      cases h
    | ok o =>
      rw [hrun] at h
      simp only at h
      split_ifs at h with hlen
      obtain rfl := Except.ok.inj h
      obtain ⟨ts, hts, hreach, hden, -⟩ :=
        reads_of_dk_decode inp.length (Nat.le_refl _) (Nat.zero_le _) hrun
      exact ⟨ts, hts, hreach, hden, not_not.mp hlen⟩
  · rintro ⟨ts, hts, hreach, rfl, hlen⟩
    have hstart : dk_in_reach ([] : Bytes).length ts := hreach
    rw [dk_decode_reads ts hts hstart (Nat.le_of_eq hlen)]
    exact if_neg (not_not.mpr hlen)

/-- **One length.** A stream is accepted for at most one output length. -/
theorem dk_inflate_length_unique {inp : Bytes} {n n' : ℕ} {out out' : Bytes}
    (h : pakka_dk_inflate inp n = .ok out) (h' : pakka_dk_inflate inp n' = .ok out') : n = n' := by
  obtain ⟨ts, hts, -, hout, rfl⟩ := (dk_inflate_iff inp n out).mp h
  obtain ⟨ts', hts', -, hout', rfl⟩ := (dk_inflate_iff inp n' out').mp h'
  obtain rfl := hts.unique hts'
  rw [← hout, ← hout']

end Pakka
