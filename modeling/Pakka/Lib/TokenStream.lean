/-
Token streams, the form of a byte-oriented compression format.

A token code writes each token as a word. No word starts with the stop symbol, and a text
starts with the word of at most one token; so a text has at most one reading, which goes on
to the stop symbol or to the end of the text, whatever follows the stop symbol.

The second half is the back reference, the token that repeats what was already produced.
`refer` says what it stands for, with no loop: the last `d` symbols, over and over.

No assumption is made on the tokens but the two about their words. A decoder for such a format is
right if it accepts what `Reads` and returns what the tokens denote, and what it returns is then
determined by the input.
-/
import Mathlib.Data.List.GetD

set_option autoImplicit false

/-- A way to write tokens as words, with a symbol that ends a stream. -/
structure TokenCode (τ α : Type) where
  /-- The word of a token. -/
  word : τ → List α
  /-- The symbol that ends a stream. -/
  stop : α
  word_head : ∀ t, ∃ a w, word t = a :: w ∧ a ≠ stop
  word_inj : ∀ t t' r r', word t ++ r = word t' ++ r' → t = t'

namespace TokenCode

variable {τ α : Type} (c : TokenCode τ α)

/-- The words of some tokens, one after the other. -/
def encode (ts : List τ) : List α := ts.flatMap c.word

@[simp] theorem encode_nil : c.encode [] = [] := rfl

@[simp] theorem encode_cons (t : τ) (ts : List τ) :
    c.encode (t :: ts) = c.word t ++ c.encode ts := rfl

@[simp] theorem encode_append (ts us : List τ) :
    c.encode (ts ++ us) = c.encode ts ++ c.encode us := List.flatMap_append

/-- The end of a stream: nothing is left, or the stop symbol is next. -/
def Ended (rest : List α) : Prop := rest = [] ∨ ∃ junk, rest = c.stop :: junk

/-- The tokens of a text: their words, and then the stream ends. -/
def Reads (text : List α) (ts : List τ) : Prop := ∃ rest, text = c.encode ts ++ rest ∧ c.Ended rest

variable {c}

theorem Ended.nil : c.Ended [] := Or.inl rfl

theorem Ended.stop (junk : List α) : c.Ended (c.stop :: junk) := Or.inr ⟨junk, rfl⟩

/-- A stream that ended has no token in front. -/
theorem Ended.not_word {t : τ} {text : List α} : ¬ c.Ended (c.word t ++ text) := by
  intro h
  obtain ⟨a, w, hw, ha⟩ := c.word_head t
  rw [hw] at h
  rcases h with h | ⟨junk, h⟩
  · simp at h
  · exact ha (List.cons.inj h).1

theorem Ended.reads {text : List α} (h : c.Ended text) : c.Reads text [] := ⟨text, rfl, h⟩

/-- One token more in front. -/
theorem Reads.cons {text : List α} {ts : List τ} (t : τ) (h : c.Reads text ts) :
    c.Reads (c.word t ++ text) (t :: ts) := by
  obtain ⟨rest, rfl, hend⟩ := h
  exact ⟨rest, by rw [encode_cons, List.append_assoc], hend⟩

/-- **One reading.** The tokens of a text are determined by it, and so is what follows them. -/
theorem encode_unique {ts us : List τ} {r s : List α} (hr : c.Ended r) (hs : c.Ended s)
    (h : c.encode ts ++ r = c.encode us ++ s) : ts = us ∧ r = s := by
  induction ts generalizing us with
  | nil =>
    cases us with
    | nil => exact ⟨rfl, h⟩
    | cons u us =>
      rw [encode_nil, List.nil_append, encode_cons, List.append_assoc] at h
      exact absurd (h ▸ hr) Ended.not_word
  | cons t ts ih =>
    cases us with
    | nil =>
      rw [encode_nil, List.nil_append, encode_cons, List.append_assoc] at h
      exact absurd (h ▸ hs) Ended.not_word
    | cons u us =>
      rw [encode_cons, encode_cons, List.append_assoc, List.append_assoc] at h
      obtain rfl := c.word_inj _ _ _ _ h
      obtain ⟨rfl, rfl⟩ := ih (List.append_cancel_left h)
      exact ⟨rfl, rfl⟩

theorem Reads.unique {text : List α} {ts us : List τ} (h : c.Reads text ts)
    (h' : c.Reads text us) : ts = us := by
  obtain ⟨r, hr, hrend⟩ := h
  obtain ⟨s, hs, hsend⟩ := h'
  exact (encode_unique hrend hsend (hr.symm.trans hs)).1

end TokenCode

/-! ## Back references

In closed form, and as the loop that copies one symbol after the other.
-/

section BackReference

variable {α : Type}

/-- What a reference of length `n` to `d` symbols back stands for: the last `d` symbols of
what was produced, in turn. -/
def refer (out : List α) (d n : ℕ) (a : α) : List α :=
  (List.range n).map fun j => out.getD (out.length - d + j % d) a

@[simp] theorem refer_length (out : List α) (d n : ℕ) (a : α) : (refer out d n a).length = n := by
  rw [refer, List.length_map, List.length_range]

@[simp] theorem refer_zero (out : List α) (d : ℕ) (a : α) : refer out d 0 a = [] := rfl

theorem refer_succ (out : List α) (d n : ℕ) (a : α) :
    refer out d (n + 1) a = refer out d n a ++ [out.getD (out.length - d + n % d) a] := by
  rw [refer, List.range_succ, List.map_append]
  rfl

/-- **Overlap.** With a part of a reference copied, the symbol `d` back is the next one of the
reference, also when it is one that the reference itself produced. -/
theorem getD_append_refer {out : List α} {d : ℕ} (n : ℕ) (a : α) (hd : 0 < d)
    (hle : d ≤ out.length) :
    (out ++ refer out d n a).getD ((out ++ refer out d n a).length - d) a =
      out.getD (out.length - d + n % d) a := by
  rw [List.length_append, refer_length]
  by_cases hn : n < d
  · rw [Nat.mod_eq_of_lt hn, List.getD_append _ _ _ _ (by omega)]
    congr 1
    omega
  · have hmod : (n - d) % d = n % d := (Nat.mod_eq_sub_mod (Nat.le_of_not_lt hn)).symm
    have hidx : out.length + n - d - out.length = n - d := by omega
    rw [List.getD_append_right _ _ _ _ (by omega), hidx, refer,
      List.getD_eq_getElem _ _ (by rw [List.length_map, List.length_range]; omega),
      List.getElem_map, List.getElem_range, hmod]

/-- Without overlap a reference is a range of what was produced. -/
theorem refer_of_le {out : List α} {d n : ℕ} (a : α) (hn : n ≤ d) (hle : d ≤ out.length) :
    refer out d n a = (out.drop (out.length - d)).take n := by
  apply List.ext_getElem
  · rw [refer_length, List.length_take, List.length_drop]
    omega
  · intro j h₁ h₂
    rw [refer_length] at h₁
    have hj : out.length - d + j % d = out.length - d + j := by
      rw [Nat.mod_eq_of_lt (by omega)]
    simp only [refer, List.getElem_map, List.getElem_range, List.getElem_take, List.getElem_drop]
    rw [hj, List.getD_eq_getElem _ _ (by omega)]

end BackReference
