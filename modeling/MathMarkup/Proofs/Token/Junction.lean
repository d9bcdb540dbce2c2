import MathMarkup.Token.Lexeme
import MathMarkup.Proofs.Text.Character
import Mathlib.Data.List.Infix

/-! The tokens of two texts put together. A text is whole if none of its pieces takes in what
follows, except that a word goes on with letters and a number with digits; the tokens of a whole
text are then followed by those of the rest. -/
namespace MathMarkup.Scan

variable {d : Dialect} {o : ℕ} {a b : List Char}

/-- Whether a piece that ends with `x` may go on with `y`. -/
def joins (x y : Char) : Bool :=
  x.isAlpha && y.isAlpha || x.isDigit && y.isDigit || x = '\\' && y = '\\'

def Separate (a b : List Char) : Prop := ∀ x ∈ a.getLast?, ∀ y ∈ b.head?, joins x y = false

/-- The tokens of a text that starts at `o`, without the one at its end. -/
def pieces (d : Dialect) (o : ℕ) (cs : List Char) : List Token := (scan d 0 o cs).dropLast

/-- No piece of the text takes in what follows. -/
def Whole (d : Dialect) (a : List Char) : Prop :=
  ∀ o b, Separate a b → scan d 0 o (a ++ b) = pieces d o a ++ scan d 0 (o + a.length) b

theorem scan_skip (d : Dialect) (o : ℕ) (a b : List Char) :
    scan d a.length o (a ++ b) = scan d 0 (o + a.length) b := by
  induction a generalizing o with
  | nil => rfl
  | cons c cs ih =>
    simp only [List.length_cons, List.cons_append, scan, ih]
    congr 1
    omega

theorem scan_ne_nil (d : Dialect) (k o : ℕ) (cs : List Char) : scan d k o cs ≠ [] := by
  induction cs generalizing k o with
  | nil => simp [scan]
  | cons c cs ih => cases k <;> simp [scan, ih]

/-- A text is scanned into its pieces and a token at its end. -/
theorem scan_eq (d : Dialect) (k o : ℕ) (cs : List Char) :
    scan d k o cs = (scan d k o cs).dropLast ++ [⟨.stop, "", ((o + cs.length : ℕ) : ℤ)⟩] := by
  induction cs generalizing k o with
  | nil => rfl
  | cons c cs ih =>
    cases k with
    | zero =>
      rw [scan, List.dropLast_cons_of_ne_nil (scan_ne_nil _ _ _ _), List.cons_append]
      conv_lhs => rw [ih]
      congr 5
      simp only [List.length_cons]
      omega
    | succ k =>
      simp only [scan]
      conv_lhs => rw [ih]
      congr 4
      simp only [List.length_cons]
      omega

@[simp] theorem pieces_nil (d : Dialect) (o : ℕ) : pieces d o [] = [] := rfl

section Separate

theorem Separate.nil_right (a : List Char) : Separate a [] := by simp [Separate]

theorem Separate.of_last {x : Char} (h : ∀ y, joins x y = false) (a b : List Char) :
    Separate (a ++ [x]) b := by
  simp [Separate, h]

theorem Separate.of_head {y : Char} (h : ∀ x, joins x y = false) (a b : List Char) :
    Separate a (y :: b) := by
  simp [Separate, h]

theorem Separate.left {e : List Char} (h : Separate (a ++ b) e) (hb : b ≠ []) : Separate b e := by
  intro x hx y hy
  refine h x ?_ y hy
  rwa [Option.mem_def, List.getLast?_append_of_ne_nil a hb]

/-- A character that is neither a letter nor a digit nor a backslash separates. -/
theorem joins_right {y : Char} (h : y.isAlpha = false ∧ y.isDigit = false ∧ y ≠ '\\') (x : Char) :
    joins x y = false := by
  simp [joins, h]

theorem joins_left {x : Char} (h : x.isAlpha = false ∧ x.isDigit = false ∧ x ≠ '\\') (y : Char) :
    joins x y = false := by
  simp [joins, h]

end Separate

namespace Whole

theorem nil (d : Dialect) : Whole d [] := by
  intro o b _
  simp

theorem pieces_append (ha : Whole d a) (h : Separate a b) (o : ℕ) :
    pieces d o (a ++ b) = pieces d o a ++ pieces d (o + a.length) b := by
  rw [pieces, ha o b h, List.dropLast_append_of_ne_nil (scan_ne_nil _ _ _ _)]
  rfl

theorem append (ha : Whole d a) (hb : Whole d b) (h : Separate a b) : Whole d (a ++ b) := by
  intro o e he
  by_cases hne : b = []
  · subst hne
    simpa using ha o e (by simpa using he)
  have hbe : Separate a (b ++ e) := by
    intro x hx y hy
    exact h x hx y (by simpa [List.head?_append_of_ne_nil b hne] using hy)
  rw [List.append_assoc, ha o _ hbe, hb _ e (he.left hne), ha.pieces_append h]
  simp [Nat.add_assoc]

end Whole

/-- The text is a single token, whatever follows. -/
structure Forms (d : Dialect) (cs : List Char) (kind : TokenKind) (text : String) : Prop where
  whole : Whole d cs
  pieces_eq : ∀ o : ℕ, pieces d o cs = [⟨kind, text, o⟩]

namespace Forms

theorem of_first {c : Char} {cs : List Char} {kind : TokenKind} {text : String}
    (h : ∀ b, Separate (c :: cs) b → Lexeme.first d c (cs ++ b) = ⟨kind, text, cs.length⟩) :
    Forms d (c :: cs) kind text := by
  have hscan : ∀ (o : ℕ) b, Separate (c :: cs) b →
      scan d 0 o (c :: cs ++ b) = ⟨kind, text, o⟩ :: scan d 0 (o + (cs.length + 1)) b := by
    intro o b hb
    rw [List.cons_append, scan, h b hb]
    simp only [scan_skip]
    congr 2
    omega
  have hpieces : ∀ o : ℕ, pieces d o (c :: cs) = [⟨kind, text, o⟩] := by
    intro o
    have := hscan o [] (Separate.nil_right _)
    rw [List.append_nil] at this
    rw [pieces, this]
    rfl
  refine ⟨fun o b hb => ?_, hpieces⟩
  rw [hscan o b hb, hpieces o]
  rfl

theorem takeWhile_run {p : Char → Bool} {cs b : List Char} (hcs : ∀ x ∈ cs, p x = true)
    (hb : ∀ y ∈ b.head?, p y = false) : (cs ++ b).takeWhile p = cs := by
  rw [List.takeWhile_append_of_pos hcs]
  cases b with
  | nil => simp
  | cons y b => simp [hb y (by simp)]

/-- What follows characters of a class that join, if it is separate, starts with none of them. -/
theorem head_not {p : Char → Bool} (hp : ∀ x y, p x = true → p y = true → joins x y = true)
    {cs : List Char} (hcs : ∀ x ∈ cs, p x = true) (hne : cs ≠ []) (h : Separate cs b) :
    ∀ y ∈ b.head?, p y = false := by
  intro y hy
  have hlast := List.getLast?_eq_some_getLast hne
  by_contra hy'
  rw [Bool.not_eq_false] at hy'
  have hjoins := hp _ y (hcs _ (List.getLast_mem hne)) hy'
  simp [h _ hlast y hy] at hjoins

theorem head_not_alpha {cs : List Char} (hcs : ∀ x ∈ cs, x.isAlpha = true)
    (hne : cs ≠ []) (h : Separate cs b) : ∀ y ∈ b.head?, y.isAlpha = false :=
  head_not (by simp +contextual [joins]) hcs hne h

theorem head_not_digit {cs : List Char} (hcs : ∀ x ∈ cs, x.isDigit = true)
    (hne : cs ≠ []) (h : Separate cs b) : ∀ y ∈ b.head?, y.isDigit = false :=
  head_not (by simp +contextual [joins]) hcs hne h

theorem gap (d : Dialect) : Forms d [' '] .space " " :=
  .of_first fun b _ => by cases d <;> rfl

theorem first_mark (d : Dialect) {c : Char} (h : c ∈ Vocabulary.latexMarks) (b : List Char) :
    Lexeme.first d c b = Lexeme.single .symbol c := by
  have hl : c ∈ Vocabulary.legacyMarks := List.mem_cons_of_mem _ h
  obtain ⟨hblank, hdigit, halpha, hquote⟩ := Text.classes_of_mem_legacyMarks hl
  have hback := Text.ne_backslash_of_mem_latexMarks h
  cases d with
  | latex => simp [Lexeme.first, Lexeme.latex, hblank, hdigit, halpha, hback, h]
  | legacy => simp [Lexeme.first, Lexeme.legacy, hblank, hquote, hback, hl]

theorem mark (d : Dialect) {c : Char} (h : c ∈ Vocabulary.latexMarks) :
    Forms d [c] .symbol (String.ofList [c]) :=
  .of_first fun b _ => first_mark d h b

/-- In the legacy dialect a backslash may stand alone. -/
theorem backslash : Forms .legacy ['\\'] .symbol "\\" := by
  refine .of_first fun b hb => ?_
  have hhead : b.head? ≠ some '\\' := by
    intro hb'
    simpa [joins] using hb '\\' rfl '\\' hb'
  simp [Lexeme.first, Lexeme.legacy, Lexeme.single, hhead, Text.isBlank, Vocabulary.legacyMarks]

theorem number (d : Dialect) {cs : List Char} (hne : cs ≠ []) (h : ∀ x ∈ cs, x.isDigit = true) :
    Forms d cs .number (String.ofList cs) := by
  obtain ⟨c, cs, rfl⟩ := List.exists_cons_of_ne_nil hne
  have hc : c.isDigit = true := h c (by simp)
  refine .of_first fun b hb => ?_
  have htail : (cs ++ b).takeWhile Char.isDigit = cs :=
    takeWhile_run (fun x hx => h x (by simp [hx])) (head_not_digit h hne hb)
  have hblank := Text.isBlank_of_isDigit hc
  have hback := Text.ne_of_isDigit (x := '\\') hc rfl
  have hquote := Text.ne_of_isDigit (x := '"') hc rfl
  have hmark := Text.not_mem_legacyMarks_of_isDigit hc
  cases d with
  | latex => simp [Lexeme.first, Lexeme.latex, Lexeme.run, hblank, hback, hc, htail]
  | legacy => simp [Lexeme.first, Lexeme.legacy, Lexeme.run, hblank, hback, hquote, hmark, hc, htail]

theorem takeWhile_word {c : Char} {cs : List Char} (h : ∀ x ∈ c :: cs, x.isAlpha = true)
    (hb : Separate (c :: cs) b) : (cs ++ b).takeWhile Char.isAlpha = cs :=
  takeWhile_run (fun x hx => h x (by simp [hx])) (head_not_alpha h (by simp) hb)

theorem latexWord {cs : List Char} (hne : cs ≠ []) (h : ∀ x ∈ cs, x.isAlpha = true) :
    Forms .latex cs .identifier (String.ofList cs) := by
  obtain ⟨c, cs, rfl⟩ := List.exists_cons_of_ne_nil hne
  have hc : c.isAlpha = true := h c (by simp)
  refine .of_first fun b hb => ?_
  have hback := Text.ne_of_isAlpha (x := '\\') hc rfl
  simp [Lexeme.first, Lexeme.latex, Lexeme.run, Text.isBlank_of_isAlpha hc, hback,
    Text.isDigit_of_isAlpha hc, hc, takeWhile_word h hb]

/-- In the legacy dialect a run of letters is a keyword or a word. -/
theorem first_legacy {c : Char} {cs : List Char} (h : ∀ x ∈ c :: cs, x.isAlpha = true)
    (hb : Separate (c :: cs) b) : Lexeme.first .legacy c (cs ++ b) =
      if Text.upper (String.ofList (c :: cs)) ∈ Vocabulary.legacyKeywords then
        ⟨.keyword, Text.upper (String.ofList (c :: cs)), cs.length⟩
      else ⟨.identifier, String.ofList (c :: cs), cs.length⟩ := by
  have hc : c.isAlpha = true := h c (by simp)
  have hback := Text.ne_of_isAlpha (x := '\\') hc rfl
  have hquote := Text.ne_of_isAlpha (x := '"') hc rfl
  have hmark := Text.not_mem_legacyMarks_of_isAlpha hc
  simp [Lexeme.first, Lexeme.legacy, Lexeme.word, Lexeme.run, Text.isBlank_of_isAlpha hc, hback,
    hquote, hmark, Text.isDigit_of_isAlpha hc, hc, takeWhile_word h hb]

theorem legacyKeyword {cs : List Char} (h : ∀ x ∈ cs, x.isAlpha = true) (hne : cs ≠ [])
    (hk : Text.upper (String.ofList cs) ∈ Vocabulary.legacyKeywords) :
    Forms .legacy cs .keyword (Text.upper (String.ofList cs)) := by
  obtain ⟨c, cs, rfl⟩ := List.exists_cons_of_ne_nil hne
  exact .of_first fun b hb => by rw [first_legacy h hb, if_pos hk]

theorem legacyWord {cs : List Char} (h : ∀ x ∈ cs, x.isAlpha = true) (hne : cs ≠ [])
    (hk : Text.upper (String.ofList cs) ∉ Vocabulary.legacyKeywords) :
    Forms .legacy cs .identifier (String.ofList cs) := by
  obtain ⟨c, cs, rfl⟩ := List.exists_cons_of_ne_nil hne
  exact .of_first fun b hb => by rw [first_legacy h hb, if_neg hk]

/-- A control word is a keyword, in lower case, or an identifier. -/
theorem first_control {cs : List Char} (hne : cs ≠ []) (h : ∀ x ∈ cs, x.isAlpha = true)
    (hb : Separate ('\\' :: cs) b) : Lexeme.first .latex '\\' (cs ++ b) =
      if Text.lower (String.ofList cs) ∈ Vocabulary.latexKeywords then
        ⟨.keyword, Text.lower (String.ofList cs), cs.length⟩
      else ⟨.identifier, String.ofList ('\\' :: cs), cs.length⟩ := by
  obtain ⟨c, cs, rfl⟩ := List.exists_cons_of_ne_nil hne
  have hc : c.isAlpha = true := h c (by simp)
  have hrun : (c :: cs ++ b).takeWhile Char.isAlpha = c :: cs :=
    takeWhile_run h (head_not_alpha h hne (hb.left (a := ['\\']) hne))
  have hne' (x : Char) (hx : x.isAlpha = false) : c ≠ x := Text.ne_of_isAlpha hc hx
  rw [List.cons_append] at hrun
  simp only [Lexeme.first, Lexeme.latex, Lexeme.control, List.cons_append, hrun]
  rw [if_neg (by decide), if_pos trivial, if_neg (by simp [hne']), if_neg (by simp [hne'])]
  simp

theorem latexKeyword {cs : List Char} (hne : cs ≠ []) (h : ∀ x ∈ cs, x.isAlpha = true)
    (hk : Text.lower (String.ofList cs) ∈ Vocabulary.latexKeywords) :
    Forms .latex ('\\' :: cs) .keyword (Text.lower (String.ofList cs)) :=
  .of_first fun b hb => by rw [first_control hne h hb, if_pos hk]

theorem control {cs : List Char} (hne : cs ≠ []) (h : ∀ x ∈ cs, x.isAlpha = true)
    (hk : Text.lower (String.ofList cs) ∉ Vocabulary.latexKeywords) :
    Forms .latex ('\\' :: cs) .identifier (String.ofList ('\\' :: cs)) :=
  .of_first fun b hb => by rw [first_control hne h hb, if_neg hk]

/-- A backslash with a mark that it escapes, or with another one. -/
theorem escape {c : Char} (h : c = '\\' ∨ c = '\x7b' ∨ c = '\x7d' ∨ c = '|') :
    Forms .latex ['\\', c] .symbol (String.ofList ['\\', c]) := by
  refine .of_first fun b _ => ?_
  simp only [Lexeme.first, Lexeme.latex, Lexeme.control, List.cons_append, List.nil_append]
  rw [if_neg (by decide), if_pos trivial, if_pos h]
  rfl

/-- Text between double quotes. -/
theorem verbatim {cs : List Char} (h : '"' ∉ cs) :
    Forms .legacy ('"' :: cs ++ ['"']) .identifier (String.ofList ('"' :: cs ++ ['"'])) := by
  rw [List.cons_append]
  refine .of_first fun b _ => ?_
  have hbody : (cs ++ ['"'] ++ b).takeWhile (· ≠ '"') = cs := by
    rw [List.append_assoc]
    exact takeWhile_run (fun x hx => decide_eq_true (ne_of_mem_of_not_mem hx h)) (by simp)
  simp only [Lexeme.first, Lexeme.legacy, Lexeme.verbatim, hbody]
  rw [if_neg (by decide), if_pos trivial, if_pos (by simp)]
  simp

end Forms

end MathMarkup.Scan
