import MathMarkup.Grammar.Parse
import MathMarkup.Proofs.Rereading.Legible
import MathMarkup.Proofs.Token.Junction

/-! The tokens of a text that a parse looks at, and how they come from the parts that the text is
put together from. A text is solid if it is whole and no blank stands at its ends. -/
namespace MathMarkup.Scan

variable {d : Dialect} {o : ℕ} {a b s m : String} {kind : TokenKind} {text : String}

/-- The significant tokens of a text that starts at `o`, without the one at its end. -/
def tokens (d : Dialect) (o : ℕ) (s : String) : List Token :=
  (pieces d o s.toList).filter Token.isSignificant

section Places

def shifted (n : ℕ) (t : Token) : Token := { t with offset := t.offset + n }

theorem scan_shift (d : Dialect) (k o n : ℕ) (cs : List Char) :
    scan d k (o + n) cs = (scan d k o cs).map (shifted n) := by
  induction cs generalizing k o with
  | nil => simp [scan, shifted]
  | cons c cs ih =>
    cases k with
    | zero => simp [scan, shifted, ← ih, Nat.add_right_comm]
    | succ k => simp [scan, ← ih, Nat.add_right_comm]

theorem tokens_shift (d : Dialect) (o : ℕ) (s : String) :
    tokens d o s = (tokens d 0 s).map (shifted o) := by
  have h := scan_shift d 0 0 o s.toList
  rw [Nat.zero_add] at h
  rw [tokens, pieces, h, ← List.map_dropLast, List.filter_map]
  rfl

theorem le_offset_scan {k : ℕ} {cs : List Char} {t : Token} (h : t ∈ scan d k o cs) :
    (o : ℤ) ≤ t.offset := by
  induction cs generalizing k o with
  | nil =>
    obtain rfl : t = ⟨.stop, "", o⟩ := by simpa [scan] using h
    simp
  | cons c cs ih =>
    cases k with
    | zero =>
      rcases List.mem_cons.1 h with rfl | h
      · simp
      · have := ih h
        omega
    | succ k =>
      have := ih h
      omega

/-- Tokens stand in the order of their places. -/
theorem scan_ordered (d : Dialect) (k o : ℕ) (cs : List Char) :
    (scan d k o cs).Pairwise fun t u => t.offset < u.offset := by
  induction cs generalizing k o with
  | nil => simp [scan]
  | cons c cs ih =>
    cases k with
    | zero =>
      refine List.pairwise_cons.2 ⟨fun t ht => ?_, ih _ _⟩
      have := le_offset_scan ht
      dsimp only
      omega
    | succ k => exact ih _ _

theorem le_offset {t : Token} (h : t ∈ tokens d o s) : (o : ℤ) ≤ t.offset :=
  le_offset_scan (List.mem_of_mem_dropLast (List.mem_of_mem_filter h))

end Places

section Ends

theorem first_kind (d : Dialect) (c : Char) (cs : List Char) :
    (Lexeme.first d c cs).kind ≠ .stop := by
  have hcontrol : (Lexeme.control cs).kind ≠ .stop := by
    simp only [Lexeme.control]
    repeat' split
    all_goals simp [Lexeme.single]
  cases d with
  | latex =>
    simp only [Lexeme.first, Lexeme.latex]
    repeat' split
    all_goals first | exact hcontrol | simp [Lexeme.single, Lexeme.run]
  | legacy =>
    simp only [Lexeme.first, Lexeme.legacy, Lexeme.word]
    repeat' split
    all_goals simp [Lexeme.single, Lexeme.run, Lexeme.verbatim]

theorem kind_of_mem_pieces {cs : List Char} {t : Token} (h : t ∈ pieces d o cs) :
    t.kind ≠ .stop := by
  have hscan : ∀ k, t ∈ (scan d k o cs).dropLast → t.kind ≠ .stop := by
    clear h
    induction cs generalizing o with
    | nil => simp [scan]
    | cons c cs ih =>
      intro k h
      cases k with
      | zero =>
        rw [scan, List.dropLast_cons_of_ne_nil (scan_ne_nil _ _ _ _)] at h
        rcases List.mem_cons.1 h with rfl | h
        · exact first_kind d c cs
        · exact ih _ h
      | succ k => exact ih _ h
  exact hscan 0 h

theorem kind_ne_stop {t : Token} (h : t ∈ tokens d o s) : t.kind ≠ .stop :=
  kind_of_mem_pieces (List.mem_of_mem_filter h)

/-- What a parse looks at: the significant tokens, and the end. -/
theorem significant_eq (d : Dialect) (s : String) :
    (tokenize d s).filter Token.isSignificant = tokens d 0 s ++ [⟨.stop, "", s.toList.length⟩] := by
  rw [tokenize, scan_eq, List.filter_append]
  simp [tokens, pieces, Token.isSignificant]

/-- The first token of a text by itself is the one that it has elsewhere, but for its place. -/
theorem firstToken?_of_tokens {t : Token} {ts : List Token} (h : tokens d o s = t :: ts) :
    ∃ u, Expr.firstToken? d s = some u ∧ shifted o u = t := by
  rw [tokens_shift] at h
  cases hs : tokens d 0 s with
  | nil => simp [hs] at h
  | cons u us =>
    refine ⟨u, ?_, ?_⟩
    · rw [Expr.firstToken?, significant_eq, hs]
      rfl
    · simp only [hs, List.map_cons, List.cons.injEq] at h
      exact h.1

end Ends

section Parts

/-- A mark is a text of one character that runs into nothing. -/
def IsMark (m : String) : Prop := ∃ c ∈ Vocabulary.latexMarks, m = String.ofList [c]

theorem IsMark.forms (h : IsMark m) : Forms d m.toList .symbol m := by
  obtain ⟨c, hc, rfl⟩ := h
  simpa using Forms.mark d hc

theorem joins_of_mem_latexMarks {y : Char} (h : y ∈ Vocabulary.latexMarks) :
    y.isAlpha = false ∧ y.isDigit = false ∧ y ≠ '\\' := by
  have hy := Text.classes_of_mem_legacyMarks (List.mem_cons_of_mem '\\' h)
  exact ⟨hy.2.2.1, hy.2.1, Text.ne_backslash_of_mem_latexMarks h⟩

theorem IsMark.separate_left (h : IsMark m) (cs : List Char) : Separate m.toList cs := by
  obtain ⟨c, hc, rfl⟩ := h
  simpa using Separate.of_last (joins_left (joins_of_mem_latexMarks hc)) [] cs

theorem IsMark.separate_right (h : IsMark m) (cs : List Char) (s : String) :
    Separate cs (m ++ s).toList := by
  obtain ⟨c, hc, rfl⟩ := h
  simpa using Separate.of_head (joins_right (joins_of_mem_latexMarks hc)) cs s.toList

theorem gap_separate_left (cs : List Char) : Separate (" " : String).toList cs :=
  Separate.of_last (x := ' ') (joins_left (by decide)) [] cs

theorem gap_separate_right (cs : List Char) (s : String) : Separate cs (" " ++ s).toList := by
  simpa using Separate.of_head (joins_right (by decide)) cs s.toList

theorem Forms.tokens_eq (h : Forms d s.toList kind text) (hk : kind ≠ .space ∧ kind ≠ .unknown) :
    tokens d o s = [⟨kind, text, o⟩] := by
  simp [tokens, h.pieces_eq, Token.isSignificant, hk]

theorem tokens_append (ha : Whole d a.toList) (h : Separate a.toList b.toList) :
    tokens d o (a ++ b) = tokens d o a ++ tokens d (o + a.length) b := by
  simp [tokens, ha.pieces_append h, String.length_toList]

theorem tokens_gap (o : ℕ) (s : String) : tokens d o (" " ++ s) = tokens d (o + 1) s := by
  rw [tokens_append (Forms.gap d).whole (gap_separate_left _)]
  simp [tokens, (Forms.gap d).pieces_eq, Token.isSignificant]
  rfl

theorem tokens_append_gap (ha : Whole d a.toList) (o : ℕ) (s : String) :
    tokens d o (a ++ (" " ++ s)) = tokens d o a ++ tokens d (o + a.length + 1) s := by
  rw [tokens_append ha (gap_separate_right _ _), tokens_gap]

theorem tokens_mark (hm : IsMark m) (o : ℕ) (s : String) :
    tokens d o (m ++ s) = ⟨.symbol, m, o⟩ :: tokens d (o + 1) s := by
  rw [tokens_append hm.forms.whole (hm.separate_left _), hm.forms.tokens_eq (by simp)]
  obtain ⟨c, -, rfl⟩ := hm
  simp

theorem tokens_append_mark (ha : Whole d a.toList) (hm : IsMark m) (o : ℕ) (s : String) :
    tokens d o (a ++ (m ++ s)) =
      tokens d o a ++ ⟨.symbol, m, (o + a.length : ℕ)⟩ :: tokens d (o + a.length + 1) s := by
  rw [tokens_append ha (hm.separate_right _ _), tokens_mark hm]

theorem tokens_empty (d : Dialect) (o : ℕ) : tokens d o "" = [] := rfl

end Parts

/-- The text is whole, and no blank stands at its end. -/
structure Trailing (d : Dialect) (s : String) : Prop where
  whole : Whole d s.toList
  last : ∀ x ∈ s.toList.getLast?, Text.isBlank x = false

/-- The text is whole, and no blank stands at its ends. -/
structure Solid (d : Dialect) (s : String) : Prop extends Trailing d s where
  head : ∀ x ∈ s.toList.head?, Text.isBlank x = false

namespace Trailing

theorem empty (d : Dialect) : Trailing d "" := ⟨Whole.nil d, by simp⟩

theorem append (ha : Trailing d a) (hb : Trailing d b) (h : Separate a.toList b.toList) :
    Trailing d (a ++ b) := by
  refine ⟨?_, fun x hx => ?_⟩
  · rw [String.toList_append]
    exact ha.whole.append hb.whole h
  · rw [String.toList_append, List.getLast?_append] at hx
    cases hlast : b.toList.getLast? with
    | none => exact ha.last x (by simpa [hlast] using hx)
    | some y => exact hb.last x (by simpa [hlast] using hx)

/-- What stands in front of a text that is not empty may have blanks at its end. -/
theorem prepend (ha : Whole d a.toList) (hb : Trailing d b) (hne : b ≠ "")
    (h : Separate a.toList b.toList) : Trailing d (a ++ b) := by
  refine ⟨?_, fun x hx => hb.last x ?_⟩
  · rw [String.toList_append]
    exact ha.append hb.whole h
  · rwa [String.toList_append,
      List.getLast?_append_of_ne_nil _ (mt String.toList_eq_nil_iff.1 hne)] at hx

theorem gap (hb : Trailing d b) (hne : b ≠ "") : Trailing d (" " ++ b) :=
  hb.prepend (Forms.gap d).whole hne (gap_separate_left _)

end Trailing

namespace Solid

theorem empty (d : Dialect) : Solid d "" := ⟨Trailing.empty d, by simp⟩

/-- A solid text goes on with one whose start does not matter. -/
theorem append_trailing (ha : Solid d a) (hb : Trailing d b) (h : Separate a.toList b.toList)
    (hne : a ≠ "") : Solid d (a ++ b) := by
  refine ⟨ha.toTrailing.append hb h, fun x hx => ha.head x ?_⟩
  obtain ⟨y, ys, hy⟩ := List.exists_cons_of_ne_nil (mt String.toList_eq_nil_iff.1 hne)
  simpa [hy] using hx

theorem append (ha : Solid d a) (hb : Solid d b) (h : Separate a.toList b.toList) :
    Solid d (a ++ b) := by
  by_cases hne : a = ""
  · subst hne
    simpa using hb
  · exact ha.append_trailing hb.toTrailing h hne

theorem of_chars (h : Whole d s.toList) (hs : ∀ c ∈ s.toList, Text.isBlank c = false) :
    Solid d s :=
  ⟨⟨h, fun x hx => hs x (List.mem_of_mem_getLast? hx)⟩, fun x hx => hs x (List.mem_of_mem_head? hx)⟩

theorem of_mark (hm : IsMark m) : Solid d m := by
  refine ⟨⟨hm.forms.whole, ?_⟩, ?_⟩
  all_goals
    obtain ⟨c, hc, rfl⟩ := hm
    simp [(Text.classes_of_mem_legacyMarks (List.mem_cons_of_mem '\\' hc)).1]

/-- A solid text with a blank and another text after it. -/
theorem spaced (ha : Solid d a) (hb : Trailing d b) (hne : a ≠ "") (hne' : b ≠ "") :
    Solid d (a ++ (" " ++ b)) :=
  ha.append_trailing (hb.gap hne') (gap_separate_right _ _) hne

theorem mark_append (hm : IsMark m) (hb : Solid d b) : Solid d (m ++ b) :=
  (of_mark hm).append hb (hm.separate_left _)

theorem append_mark (ha : Solid d a) (hm : IsMark m) (hb : Solid d (m ++ b)) :
    Solid d (a ++ (m ++ b)) :=
  ha.append hb (hm.separate_right _ _)

/-- Braces close in the blanks at the ends of a text. -/
theorem of_braces (hs : Whole d s.toList) : Solid d (Expr.braced s) := by
  have hclose : IsMark "\x7d" := ⟨'\x7d', by decide, rfl⟩
  have hopen : IsMark "\x7b" := ⟨'\x7b', by decide, rfl⟩
  have hseparate : Separate s.toList ("\x7d" : String).toList := by
    simpa using hclose.separate_right s.toList ""
  rw [Expr.braced, String.append_assoc]
  exact (of_mark hopen).append_trailing ((of_mark hclose).toTrailing.prepend hs (by decide) hseparate)
    (hopen.separate_left _) (by decide)

theorem braced (hs : Solid d s) : Solid d (Expr.braced s) := of_braces hs.whole

end Solid

theorem tokens_braced (hs : Whole d s.toList) (o : ℕ) :
    tokens d o (Expr.braced s) =
      ⟨.symbol, "\x7b", o⟩ :: (tokens d (o + 1) s ++
        [⟨.symbol, "\x7d", (o + 1 + s.length : ℕ)⟩]) := by
  have hclose : IsMark "\x7d" := ⟨'\x7d', by decide, rfl⟩
  have hopen : IsMark "\x7b" := ⟨'\x7b', by decide, rfl⟩
  rw [Expr.braced, String.append_assoc, tokens_mark hopen]
  have := tokens_append_mark hs hclose (o + 1) ""
  rw [String.append_empty, tokens_empty] at this
  rw [this]

end MathMarkup.Scan
