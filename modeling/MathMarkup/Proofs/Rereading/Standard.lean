import MathMarkup.Proofs.Rereading.Text

/-! Expressions put together in the standard way: no operand is missing where the grammar wants one,
each large operator has its body, and what stands side by side starts and ends with tokens that are
not read as one phrase. They are legible, and their parts stay apart. -/
namespace MathMarkup.Expr

open Grammar

/-- The first token of the right one of two expressions side by side is no sign, and no bracket that
an identifier at the end of the left one would be applied to. -/
def Beside (d : Dialect) (left right : Expr) : Prop :=
  ∀ t ∈ firstToken? d (besideText d right), t.isSign = false ∧
    (t.isOpening = true ∨ t.word? = some "left" →
      ∀ u ∈ lastToken? d (left.render d), u.kind ≠ .identifier)

inductive Standard (d : Dialect) : Expr → Prop where
  | literal {value} (h : IsName d value ∨ IsNumber value) : Standard d (.literal value)
  | apply {name sized left right content} (hn : IsName d name)
      (h : Standard d (.bracket sized left right content)) :
      Standard d (.binary "apply" (.literal name) (.bracket sized left right content))
  | signed {operator e} (ho : operator = "+" ∨ operator = "-") (h : Standard d e) :
      Standard d (.binary operator .empty e)
  | operation {operator left right} (ho : operator ∈ infixOperators) (hl : Standard d left)
      (hr : Standard d right) : Standard d (.binary operator left right)
  | concat {left right} (hl : Standard d left) (hr : Standard d right) (h : Beside d left right) :
      Standard d (.binary "concat" left right)
  | punctuated {left mark} (hl : Standard d left) (hm : Vocabulary.isPunctuation mark = true) :
      Standard d (.binary "concat" left (.literal mark))
  | fraction {bar : Bool} {numerator denominator}
      (hn : numerator ≠ .empty → Standard d numerator)
      (hm : denominator ≠ .empty → Standard d denominator)
      (h : (bar = true ∧ d = .latex) ∨ (numerator ≠ .empty ∧ denominator ≠ .empty)) :
      Standard d (.fraction bar numerator denominator)
  | root {radicand} (h : radicand ≠ .empty → Standard d radicand) : Standard d (.root radicand)
  | script {side base argument} (hb : Standard d base)
      (ha : argument ≠ .empty → Standard d argument) : Standard d (.script side base argument)
  | large {operator lower upper body}
      (hl : ∀ e, lower = some e → e ≠ .empty → Standard d e)
      (hu : ∀ e, upper = some e → e ≠ .empty → Standard d e)
      (hb : body ≠ .empty → Standard d body) :
      Standard d (.large operator lower upper (some body))
  | decorated {mark child} (hm : ∃ decoration ∈ Decoration.all, decoration.name = mark)
      (h : child ≠ .empty → Standard d child) : Standard d (.decorated mark child)
  | block {name cells} (hn : IsBlockName d name)
      (hr : ∀ row ∈ cells, row ≠ [] ∧ row.getLast? ≠ some .empty)
      (h : ∀ row ∈ cells, ∀ cell ∈ row, cell ≠ .empty → Standard d cell) :
      Standard d (.block name cells)
  | bracket {left right content} (hd : Vocabulary.closing? left = some right)
      (h : content ≠ .empty → Standard d content) : Standard d (.bracket false left right content)
  | sized {left right content} (hl : left ∈ Vocabulary.Side.left.delimiters)
      (hr : right ∈ Vocabulary.Side.right.delimiters)
      (h : content ≠ .empty → Standard d content) : Standard d (.bracket true left right content)

variable {d : Dialect} {rows : Bool} {e left right : Expr} {s : String} {t : Token}

section Legible

theorem Standard.legible (h : Standard d e) : Legible d false rows e := by
  have bare (x : Expr) : IsBare false x := by
    intro h
    contradiction
  induction h generalizing rows with
  | literal h => exact .literal fun _ => h.elim .name .number
  | apply hn h ih => exact .apply hn ih
  | signed ho h ih => exact .signed ho ih
  | operation ho hl hr ihl ihr => exact .operation ho ihl ihr
  | concat hl hr h ihl ihr => exact .concat ihl ihr
  | punctuated hl hm ih => exact .concat ih (.literal fun _ => isOperandValue_of_isPunctuation hm)
  | fraction hn hm h ihn ihm =>
    exact .fraction (fun he _ => ihn he) (fun he _ => ihm he) (bare _) (bare _)
  | root h ih => exact .root (fun he _ => ih he) (bare _)
  | script hb ha ihb iha => exact .script (fun _ => ihb) (fun he _ => iha he) (bare _) (bare _)
  | large hl hu hb ihl ihu ihb =>
    refine .large (fun e he hne _ => ihl e he hne) (fun e he hne _ => ihu e he hne) ?_
      (fun e _ => bare e) (fun e _ => bare e) fun e _ => bare e
    rintro e ⟨⟩ hne
    exact ihb hne
  | decorated hm h ih => exact .decorated hm (fun he _ => ih he) (bare _)
  | block hn hr h ih =>
    exact .block (fun row hrow => (hr row hrow).1) fun row hrow cell hcell hne =>
      ih row hrow cell hcell hne
  | bracket hd h ih => exact .bracket hd (fun he => ih he) fun _ => bare _
  | sized hl hr h ih => exact .sized hl hr fun he => ih he

end Legible

section Starts

/-- A text that starts like a word, a number, a bracket or a sign. -/
inductive Leading (d : Dialect) : List Char → Prop where
  | alpha {c cs} (h : c.isAlpha = true) : Leading d (c :: cs)
  | digit {c cs} (h : c.isDigit = true) : Leading d (c :: cs)
  | mark {c cs} (h : c ∈ ['(', '[', '\x7b', '+', '-']) : Leading d (c :: cs)
  | control {c cs} (hd : d = .latex) (h : c.isAlpha = true) : Leading d ('\\' :: c :: cs)
  | quote {cs} (hd : d = .legacy) : Leading d ('"' :: cs)

theorem Leading.append {cs : List Char} (h : Leading d cs) (cs' : List Char) :
    Leading d (cs ++ cs') := by
  cases h with
  | alpha h => exact .alpha h
  | digit h => exact .digit h
  | mark h => exact .mark h
  | control hd h => exact .control hd h
  | quote hd => exact .quote hd

theorem leading_word (h : IsWord s) : Leading d s.toList := by
  obtain ⟨c, cs, hcs⟩ := List.exists_cons_of_ne_nil fun hnil => h.1 (String.toList_inj.1 hnil)
  rw [hcs]
  exact .alpha (h.2 c (by simp [hcs]))

theorem leading_quoted (s : String) : Leading .legacy ("\"" ++ s ++ "\"").toList := by
  rw [String.append_assoc]
  simpa using Leading.quote rfl

theorem leading_control (h : IsWord s) : Leading .latex ("\\" ++ s).toList := by
  obtain ⟨c, cs, hcs⟩ := List.exists_cons_of_ne_nil fun hnil => h.1 (String.toList_inj.1 hnil)
  simpa [hcs] using Leading.control rfl (h.2 c (by simp [hcs]))

theorem leading_name (h : IsName d s) : Leading d (renderLiteral d s).toList := by
  cases d with
  | latex =>
    obtain h | ⟨word, h, -, rfl⟩ := h
    · exact leading_word h
    · exact leading_control h
  | legacy =>
    obtain h | ⟨hhead, h⟩ := h
    · have hne : s ≠ Vocabulary.lineBreak := by
        rintro rfl
        exact absurd h (by decide)
      have hhead : s.toList.head? ≠ some '\\' := by
        intro hhead
        obtain ⟨cs, hcs⟩ := List.head?_eq_some_iff.1 hhead
        exact absurd (h.2 '\\' (by simp [hcs])) (by decide)
      simp only [renderLiteral, legacyLiteral, if_neg hne, if_neg hhead]
      split
      · exact leading_quoted s
      · exact leading_word h
    · have hword := (symbol_word _ (mem_table_of_fromLegacy h)).1
      simp only [renderLiteral, legacyLiteral, if_neg (fromLegacy_ne h).2, if_pos hhead]
      split
      · exact leading_quoted _
      · exact leading_word hword

theorem leading_number (h : IsNumber s) : Leading d (renderLiteral d s).toList := by
  obtain ⟨c, cs, hcs⟩ := List.exists_cons_of_ne_nil fun hnil => h.1 (String.toList_inj.1 hnil)
  rw [renderLiteral_number h, hcs]
  exact .digit (h.2 c (by simp [hcs]))

theorem Leading.ne_empty (h : Leading d s.toList) : s ≠ "" := by
  rintro rfl
  cases h

theorem Leading.spaced (h : Leading d s.toList) (pieces : List String) :
    Leading d (Expr.spaced (s :: pieces)).toList := by
  have hs : (s :: pieces).filter (· ≠ "") = s :: pieces.filter (· ≠ "") := by
    simp [h.ne_empty]
  rw [Expr.spaced, hs]
  cases pieces.filter (· ≠ "") with
  | nil => simpa using h
  | cons b bs =>
    rw [String.intercalate_cons_cons, String.append_assoc, String.toList_append]
    exact h.append _

theorem Leading.braced (s : String) : Leading d (Expr.braced s).toList := by
  have hs : (Expr.braced s).toList = '\x7b' :: (s ++ "\x7d").toList := by
    simp [Expr.braced]
  rw [hs]
  exact .mark (by simp)

theorem Leading.operand (h : Leading d s.toList) (he : e.isEmpty = false) (level : Level) :
    Leading d (Expr.operand d level e s).toList := by
  simp only [Expr.operand, he, Bool.false_eq_true, if_false]
  split
  · exact h
  · exact .braced s

/-- The piece that such a text starts with is a word, a number, a keyword or one of a few marks. -/
theorem Leading.first {c : Char} {cs : List Char} (h : Leading d (c :: cs)) :
    (Lexeme.first d c cs).kind ∈ [.identifier, .number, .keyword] ∨
    (Lexeme.first d c cs).kind = .symbol ∧
      (Lexeme.first d c cs).text ∈ ["(", "[", "\x7b", "+", "-"] := by
  cases h with
  | alpha h =>
    have hblank := Text.isBlank_of_isAlpha h
    have hback := Text.ne_of_isAlpha (x := '\\') h rfl
    have hquote := Text.ne_of_isAlpha (x := '"') h rfl
    have hdigit := Text.isDigit_of_isAlpha h
    have hmark := Text.not_mem_legacyMarks_of_isAlpha h
    cases d with
    | latex => simp [Lexeme.first, Lexeme.latex, Lexeme.run, hblank, hback, hdigit, h]
    | legacy =>
      have hword : Lexeme.first .legacy c cs = Lexeme.word c cs := by
        simp [Lexeme.first, Lexeme.legacy, hblank, hquote, hback, hdigit, h, hmark]
      rw [hword, Lexeme.word]
      split <;> simp [Lexeme.run]
  | digit h =>
    have hblank := Text.isBlank_of_isDigit h
    have hback := Text.ne_of_isDigit (x := '\\') h rfl
    have hquote := Text.ne_of_isDigit (x := '"') h rfl
    have hmark := Text.not_mem_legacyMarks_of_isDigit h
    cases d with
    | latex => simp [Lexeme.first, Lexeme.latex, Lexeme.run, hblank, hback, h]
    | legacy => simp [Lexeme.first, Lexeme.legacy, Lexeme.run, hblank, hback, hquote, hmark, h]
  | mark h =>
    have hall : ∀ x ∈ ['(', '[', '\x7b', '+', '-'], x ∈ Vocabulary.latexMarks ∧
        String.ofList [x] ∈ ["(", "[", "\x7b", "+", "-"] := by
      decide
    rw [Scan.Forms.first_mark d (hall c h).1]
    exact .inr ⟨rfl, (hall c h).2⟩
  | @control c cs hd h =>
    subst hd
    have hne (x : Char) (hx : x.isAlpha = false) : c ≠ x := Text.ne_of_isAlpha h hx
    simp only [Lexeme.first, Lexeme.latex, Lexeme.control]
    rw [if_neg (by decide), if_pos trivial, if_neg (by simp [hne]), if_neg (by simp [hne])]
    rw [List.takeWhile_cons_of_pos h]
    simp only [List.isEmpty_cons, Bool.false_eq_true, if_false]
    split <;> simp
  | quote hd =>
    subst hd
    simp [Lexeme.first, Lexeme.legacy, Lexeme.verbatim, Text.isBlank]

theorem Leading.firstToken (h : Leading d s.toList) (ht : t ∈ firstToken? d s) :
    t.isScript = false ∧ t.isRelation = false := by
  obtain ⟨c, cs, hcs⟩ := List.exists_cons_of_ne_nil fun hnil => h.ne_empty (String.toList_inj.1 hnil)
  rw [hcs] at h
  have hfirst : t = ⟨(Lexeme.first d c cs).kind, (Lexeme.first d c cs).text, 0⟩ := by
    have hkind : (Lexeme.first d c cs).kind ≠ .space ∧ (Lexeme.first d c cs).kind ≠ .unknown := by
      obtain hk | ⟨hk, -⟩ := h.first
      · refine ⟨?_, ?_⟩ <;>
        · intro hk'
          simp [hk'] at hk
      · simp [hk]
    rw [firstToken?, tokenize, hcs, scan, List.filter_cons_of_pos (by simp [Token.isSignificant, hkind])]
      at ht
    simpa using ht.symm
  subst hfirst
  obtain hk | ⟨hk, htext⟩ := h.first
  · have hsymbol : (Lexeme.first d c cs).kind ≠ .symbol := by
      intro hk'
      simp [hk'] at hk
    simp [Token.isScript, Token.isRelation, Token.isSymbol, hsymbol]
  · have hall : ∀ x ∈ ["(", "[", "\x7b", "+", "-"], x ≠ "^" ∧ x ≠ "_" ∧
        Vocabulary.isRelation x = false := by
      decide
    obtain ⟨hup, hdown, hrelation⟩ := hall _ htext
    simp [Token.isScript, Token.isRelation, Token.isSymbol, hup, hdown, hrelation]

theorem Standard.isEmpty (h : Standard d e) : e.isEmpty = false :=
  (h.legible : Legible d false false e).isEmpty

theorem Leading.toList_append (h : Leading d s.toList) (r : String) :
    Leading d (s ++ r).toList := by
  rw [String.toList_append]
  exact h.append _

theorem leading_script (h : e ≠ .empty → Leading d (e.render d).toList) (he : e.isEmpty = false) :
    Leading d (scriptBase d e (e.render d)).toList := by
  have hne : e ≠ .empty := fun h => by simp [isEmpty_iff.2 h] at he
  simp only [scriptBase, he, Bool.false_eq_true, if_false]
  split
  · exact h hne
  · exact .braced _

theorem leading_decorated {decoration : Decoration} (hd : decoration ∈ Decoration.all)
    (e : Expr) : Leading d ((Expr.decorated decoration.name e).render d).toList := by
  cases d with
  | latex =>
    rw [render_decorated_latex hd]
    have hword := (keywords_latex _ (decorations_latex decoration hd).1).1
    exact (leading_control hword).toList_append _
  | legacy =>
    rw [render_decorated_legacy hd]
    exact (leading_word (decorations_legacy decoration hd).1).toList_append _

theorem leading_large (operator : LargeOperator) (lower upper body : Option Expr) :
    Leading d ((Expr.large operator lower upper body).render d).toList := by
  have hword : IsWord operator.name := by cases operator <;> decide
  simp only [render, renderLarge, String.append_assoc]
  cases d with
  | latex =>
    simp only [if_true]
    rw [← String.append_assoc]
    exact (leading_control hword).toList_append _
  | legacy => simpa using (leading_word hword).append _

theorem leading_block {name : String} (hn : IsBlockName d name) (table : List (List Expr)) :
    Leading d ((Expr.block name table).render d).toList := by
  cases d with
  | latex =>
    have hbegin : "\\begin" ++ braced name = "\\" ++ "begin" ++ braced name := rfl
    simp only [render, renderBlock, hbegin]
    exact ((leading_control (by decide)).toList_append _).spaced _
  | legacy =>
    obtain ⟨block, hblock, rfl⟩ := hn
    have hall : ∀ x ∈ Block.all, IsWord (Text.lower (Block.legacyWord x.name)) := by
      decide
    exact (leading_word (hall block hblock)).toList_append _

theorem leading_sized (left right text : String) :
    Leading d (renderBracket d true left right text).toList := by
  simp only [renderBracket, if_true]
  refine Leading.spaced ?_ _
  cases d with
  | latex => exact (leading_control (s := "left") (by decide)).toList_append _
  | legacy => exact (leading_word (s := "LEFT") (by decide)).toList_append _

/-- The first token of a standard expression is neither a script mark nor a relation. -/
theorem Standard.leading (h : Standard d e) : Leading d (e.render d).toList := by
  induction h with
  | literal h => exact h.elim leading_name leading_number
  | apply hn h ih =>
    simp only [render, renderBinary, if_true, String.append_assoc]
    exact (leading_name hn).toList_append _
  | signed ho h ih =>
    rw [render_signed ho]
    obtain rfl | rfl := ho <;> simpa using Leading.mark (by simp)
  | operation ho hl hr ihl ihr =>
    rw [render_operation ho hl.isEmpty]
    exact (ihl.operand hl.isEmpty _).spaced _
  | concat hl hr h ihl ihr =>
    rw [render_concat hl.isEmpty]
    split
    · exact ihl.toList_append _
    · exact ihl.spaced _
  | punctuated hl hm ih =>
    rw [render_concat hl.isEmpty]
    split
    · exact ih.toList_append _
    · exact ih.spaced _
  | @fraction bar n m hn hm h ihn ihm =>
    by_cases hb : bar = true ∧ d = .latex
    · obtain ⟨rfl, rfl⟩ := hb
      simp only [render, renderFraction, if_true, String.append_assoc]
      exact (leading_control (s := "frac") (by decide)).toList_append _
    · obtain hb' | ⟨hne, -⟩ := h
      · exact absurd hb' hb
      · rw [render_fraction hb]
        exact ((ihn hne).operand (isEmpty_of_ne hne) _).spaced _
  | root h ih =>
    cases d with
    | latex => exact (leading_control (s := "sqrt") (by decide)).toList_append _
    | legacy =>
      rw [render_root_legacy]
      exact (leading_word (by decide)).toList_append _
  | script hb ha ihb iha =>
    simp only [render, String.append_assoc]
    exact (leading_script (fun _ => ihb) hb.isEmpty).toList_append _
  | large => exact leading_large ..
  | decorated hm h ih =>
    obtain ⟨decoration, hd, rfl⟩ := hm
    exact leading_decorated hd _
  | block hn hr h ih => exact leading_block hn _
  | @bracket left right content hd h ih =>
    have hall : ∀ x ∈ ["(", "[", "\x7b"], Leading d x.toList := by
      intro x hx
      have hmem : ∀ x ∈ ["(", "[", "\x7b"], ∃ c ∈ ['(', '[', '\x7b', '+', '-'], x.toList = [c] := by
        decide
      obtain ⟨c, hc, hcs⟩ := hmem x hx
      rw [hcs]
      exact .mark hc
    have hleft : left ∈ ["(", "[", "\x7b"] := by
      unfold Vocabulary.closing? at hd
      split at hd <;> simp_all
    simp only [render, renderBracket, Bool.false_eq_true, if_false, String.append_assoc]
    exact (hall left hleft).toList_append _
  | sized hl hr h ih => exact leading_sized ..

end Starts

section Ends

open Scan

/-- The last token of the text is an identifier. -/
def EndsWord (d : Dialect) (s : String) : Prop :=
  ∀ o, ∃ t ∈ (tokens d o s).getLast?, t.kind = .identifier

theorem EndsWord.splits {gap : ℕ} {a b : String} (h : EndsWord d b) (hs : Splits d gap a b s) :
    EndsWord d s := by
  intro o
  obtain ⟨q, -, htokens, -⟩ := hs o
  obtain ⟨t, ht, hk⟩ := h q
  rw [htokens]
  exact ⟨t, by simp [List.getLast?_append, Option.mem_def.1 ht], hk⟩

theorem EndsWord.lastToken (h : EndsWord d s) : ∃ t ∈ lastToken? d s, t.kind = .identifier := by
  obtain ⟨t, ht, hk⟩ := h 0
  have hfilter : (tokenize d s).filter (fun t => t.isSignificant && t.kind ≠ .stop) =
      tokens d 0 s := by
    have hall : (tokens d 0 s).filter (fun t => decide (t.kind ≠ .stop)) = tokens d 0 s :=
      List.filter_eq_self.2 fun t ht => by simpa using kind_ne_stop ht
    rw [← List.filter_filter, List.filter_comm, significant_eq, List.filter_append, hall]
    simp
  exact ⟨t, by rwa [lastToken?, hfilter], hk⟩

theorem operand_of_le (he : e.isEmpty = false) {level : Level} (h : level ≤ e.level d) (s : String) :
    operand d level e s = s := by
  simp [operand, he, h]

/-- The last of three texts with blanks between them ends the whole. -/
theorem splits_last {l w r : String} (hl : Solid d l) (hw : Solid d w) (hne : l ≠ "" ∧ w ≠ "")
    (hr : r ≠ "") : Splits d 1 (l ++ (" " ++ w)) r (spaced [l, w, r]) := by
  have htext : spaced [l, w, r] = l ++ (" " ++ w) ++ (" " ++ r) := by
    simp only [spaced_three hne.1 hne.2 hr, String.append_assoc]
  rw [htext]
  exact splits_gap (hl.spaced hw.toTrailing hne.1 hne.2).whole r

theorem endsWord_literal {value : String} (h : IsOperandValue d false value)
    (hw : (Expr.literal value).ending d = .word) : EndsWord d (renderLiteral d value) := by
  obtain ⟨kind, text, hs⟩ := h.spelled
  have hk := significant_of_reads (hs.reads 0)
  have htokens (o : ℕ) := hs.forms.tokens_eq (o := o) hk
  obtain ⟨u, hu, hshift⟩ := firstToken?_of_tokens (htokens 0)
  have hkind : u.kind = kind := congrArg Token.kind hshift
  have hword : u.kind = .identifier := by
    by_contra hne
    simp [ending, hu, hne] at hw
  intro o
  rw [htokens]
  exact ⟨_, rfl, hkind ▸ hword⟩

theorem endsWord_concat (hl : Reread d false rows left) (hr : Reread d false rows right)
    (ih : right.ending d = .word → EndsWord d (right.render d))
    (hw : (Expr.binary "concat" left right).ending d = .word) :
    EndsWord d ((Expr.binary "concat" left right).render d) := by
  by_cases hle : right.isSigned = false ∧ .relation ≤ right.level d
  · obtain ⟨gap, -, hsplit, -⟩ := splits_concat hl hr
    have hbeside : besideText d right = right.render d := by
      simp [besideText, hle.1, operand_of_le hr.isEmpty hle.2]
    rw [hbeside] at hsplit
    exact (ih (ending_concat left hle.1 hle.2 ▸ hw)).splits hsplit
  · simp [ending, isSigned_concat, hle] at hw

/-- The argument of a legacy keyword ends what the keyword starts. -/
theorem endsWord_argument {w text : String} (hk : IsKeyword .legacy w text)
    (h : EndsWord .legacy (e.render .legacy)) (he : e.isEmpty = false)
    (hle : .factor ≤ e.level .legacy) :
    EndsWord .legacy (w ++ (" " ++ argument .legacy e (e.render .legacy))) := by
  have htext : argument .legacy e (e.render .legacy) = e.render .legacy := by
    simp [argument, he, operand_of_le he hle]
  rw [htext]
  exact h.splits (splits_gap hk.forms.whole _)

theorem legacy_of_open (h : ¬(d = .latex ∨ e.isEmpty = true ∨ ¬.factor ≤ e.level d)) :
    d = .legacy ∧ e ≠ .empty ∧ .factor ≤ e.level d := by
  rw [not_or, not_or, not_not] at h
  obtain ⟨hd, he, hle⟩ := h
  refine ⟨?_, fun h => he (isEmpty_iff.2 h), hle⟩
  cases d with
  | latex => exact absurd rfl hd
  | legacy => rfl

/-- An expression whose written form ends with a word has an identifier as its last token. -/
theorem Standard.endsWord (h : Standard d e) (ha : AllApart d e) (hw : e.ending d = .word) :
    EndsWord d (e.render d) := by
  have reread {x : Expr} (hx : Standard d x) (ax : AllApart d x) : Reread d false false x :=
    reread_of_legible hx.legible ax
  induction h with
  | literal h => exact endsWord_literal (h.elim .name .number) hw
  | apply hn h ih => simp [ending] at hw
  | @signed operator e ho h ih =>
    by_cases hle : .factor ≤ e.level d
    · have hmark := isMark_sign ho
      rw [render_signed ho, operand_of_le h.isEmpty hle]
      exact (ih ha.binary.2 (ending_signed ho hle ▸ hw)).splits
        (splits_append hmark.forms.whole (hmark.separate_left _))
    · simp [ending, ne_apply_of_sign ho, isSigned_sign ho, hle] at hw
  | @operation operator left right ho hl hr ihl ihr =>
    by_cases hle : (Level.ofOperator operator).next ≤ right.level d
    · obtain ⟨kind, text, hop⟩ := operatorWord_of_mem d ho
      have hleft := (reread hl ha.binary.1).operand (.ofOperator operator)
      have hright := (reread hr ha.binary.2).slot.ne_empty
      rw [render_operation ho hl.isEmpty, operand_of_le hr.isEmpty hle]
      exact (ihr ha.binary.2 (ending_operation ho hl.isEmpty hle ▸ hw)).splits
        (splits_last hleft.solid hop.solid ⟨hleft.ne_empty, hop.ne_empty⟩ hright)
    · simp [ending, infixOperator_ne ho, isSigned_operation hl.isEmpty, hle] at hw
  | concat hl hr h ihl ihr =>
    exact endsWord_concat (reread hl ha.binary.1) (reread hr ha.binary.2) (ihr ha.binary.2) hw
  | punctuated hl hm ih =>
    have hmark : IsOperandValue d false _ := isOperandValue_of_isPunctuation hm
    exact endsWord_concat (reread hl ha.binary.1) (reread_literal hmark) (endsWord_literal hmark) hw
  | @fraction bar n m hn hm h ihn ihm =>
    obtain hb | ⟨hne, hme⟩ := h
    · simp [ending, hb] at hw
    · by_cases hb : (bar = true ∧ d = .latex) ∨ ¬.factor ≤ m.level d
      · simp only [ending, if_pos hb] at hw
        contradiction
      · rw [not_or, not_not] at hb
        obtain ⟨text, hop⟩ := operatorWord_fraction bar hb.1
        have hleft := (reread (hn hne) ha.fraction.1).operand .product
        have hright := (reread (hm hme) ha.fraction.2).slot.ne_empty
        rw [render_fraction hb.1, operand_of_le (hm hme).isEmpty hb.2]
        exact (ihm hme ha.fraction.2 (ending_fraction hb.1 n hb.2 ▸ hw)).splits
          (splits_last hleft.solid hop.solid ⟨hleft.ne_empty, hop.ne_empty⟩ hright)
  | @root e h ih =>
    by_cases hc : d = .latex ∨ e.isEmpty = true ∨ ¬.factor ≤ e.level d
    · simp [ending, hc] at hw
    · obtain ⟨rfl, hne, hle⟩ := legacy_of_open hc
      have he := (h hne).isEmpty
      rw [render_root_legacy]
      exact endsWord_argument (isKeyword_legacy (by decide) (by decide))
        (ih hne ha.root (ending_root he hle ▸ hw)) he hle
  | script hb ha ihb iha => simp [ending] at hw
  | large => simp [ending] at hw
  | @decorated mark e hm h ih =>
    obtain ⟨decoration, hd, rfl⟩ := hm
    by_cases hc : d = .latex ∨ e.isEmpty = true ∨ ¬.factor ≤ e.level d
    · simp [ending, hc] at hw
    · obtain ⟨rfl, hne, hle⟩ := legacy_of_open hc
      have he := (h hne).isEmpty
      obtain ⟨hword, hupper, hmem, -⟩ := decorations_legacy decoration hd
      rw [render_decorated_legacy hd]
      exact endsWord_argument (isKeyword_legacy hword (by simpa [hupper] using hmem))
        (ih hne ha.decorated (ending_decorated _ he hle ▸ hw)) he hle
  | block hn hr h ih => simp [ending] at hw
  | bracket hd h ih => simp [ending] at hw
  | sized hl hr h ih => simp [ending] at hw

end Ends

section Apart

theorem ending_literal_ne (value : String) : (Expr.literal value).ending d ≠ .bodiless := by
  simp only [ending]
  split <;> simp

theorem ending_part_ne (h : e ≠ .empty → e.ending d ≠ .bodiless) : e.ending d ≠ .bodiless := by
  by_cases he : e = .empty
  · rw [he]
    exact ending_literal_ne ""
  · exact h he

theorem Standard.ending_ne (h : Standard d e) : e.ending d ≠ .bodiless := by
  induction h with
  | literal h => exact ending_literal_ne _
  | signed ho h ih | operation ho hl hr ihl ih | concat hl hr h ihl ih =>
    simp only [ending]
    split_ifs <;> first | exact ih | simp
  | punctuated hl hm ih =>
    simp only [ending]
    split_ifs <;> first | exact ending_literal_ne _ | simp
  | fraction hn hm h ihn ih | root h ih | decorated hm h ih =>
    simp only [ending]
    split_ifs <;> first | exact ending_part_ne ih | simp
  | _ => simp [ending]

theorem allApart_empty : AllApart d .empty := by
  refine everywhere_literal.2 fun _ => ?_
  decide

theorem allApart_part (h : e ≠ .empty → AllApart d e) : AllApart d e := by
  by_cases he : e = .empty
  · rw [he]
    exact allApart_empty
  · exact h he

theorem not_isOperandValue_backslash : ¬IsOperandValue .latex rows "\\" := by
  intro h
  cases h with
  | name h =>
    obtain h | ⟨word, hword, -, heq⟩ := h
    · exact absurd h (by decide)
    · have hlength := congrArg String.length heq
      have hone : ("\\" : String).length = 1 := rfl
      rw [String.length_append, hone] at hlength
      exact hword.1 (String.length_eq_zero_iff.1 (by omega))
  | number h => exact absurd (h.2 '\\' (by decide)) (by decide)
  | mark h =>
    have hall : ∀ rows, "\\" ∉ operandMarks .latex rows := by decide
    exact hall rows h

theorem allApart_literal {value : String} (h : IsOperandValue d false value) :
    AllApart d (.literal value) := by
  refine everywhere_literal.2 ?_
  rintro rfl
  have hnot := IsOperandValue.not_mem_loneMarks h .latex
  simp only [loneMarks, List.mem_cons, not_or] at hnot
  exact ⟨hnot.2.2.2.2.1, hnot.2.2.2.2.2.1, fun hb => not_isOperandValue_backslash (hb ▸ h)⟩

/-- Two standard expressions side by side are not read as one. -/
theorem Standard.neighbours (hl : Standard d left) (al : AllApart d left)
    (hright : Leading d (besideText d right).toList) (h : Beside d left right) :
    Neighbours d left right := by
  refine ⟨fun t ht => ?_, fun hw t ht => ?_, hl.ending_ne⟩
  · obtain ⟨hscript, hrelation⟩ := hright.firstToken ht
    exact ⟨(h t ht).1, hscript, hrelation⟩
  · obtain ⟨u, hu, hk⟩ := (hl.endsWord al hw).lastToken
    have hnot : ¬(t.isOpening = true ∨ t.word? = some "left") := fun ho => (h t ht).2 ho u hu hk
    rw [not_or] at hnot
    exact ⟨by simpa using hnot.1, hnot.2⟩

theorem besideText_leading (h : Leading d (right.render d).toList) (he : right.isEmpty = false) :
    Leading d (besideText d right).toList := by
  unfold besideText
  split
  · exact .braced _
  · exact h.operand he _

theorem neighbours_punctuation {mark : String} (h : Vocabulary.isPunctuation mark = true)
    (hl : left.ending d ≠ .bodiless) : Neighbours d left (.literal mark) := by
  have hall : ∀ d, ∀ x ∈ [",", ".", ";", ":", "!", "'"], ∀ t ∈ firstToken? d x,
      (t.isSign = false ∧ t.isScript = false ∧ t.isRelation = false) ∧
      t.isOpening = false ∧ t.word? ≠ some "left" := by
    intro d
    cases d <;> decide
  have hbeside := besideText_punctuation d h
  exact ⟨fun t ht => (hall d mark (mem_punctuation h) t (hbeside ▸ ht)).1,
    fun _ t ht => (hall d mark (mem_punctuation h) t (hbeside ▸ ht)).2, hl⟩

theorem Standard.isRelationLiteral (h : e ≠ .empty → Standard d e) : e.isRelationLiteral = false := by
  by_cases he : e = .empty
  · rw [he]
    decide
  · have hrelation := h he
    cases hrelation with
    | @literal value hv =>
      have hchars : ∀ x ∈ ["=", "<", ">"], ¬IsWord x ∧ x.toList.head? ≠ some '\\' ∧
          ∃ c ∈ x.toList, c.isDigit = false := by
        decide
      refine eq_false_of_ne_true fun hr => not_name_or_number (hchars value ?_) hv
      simpa [Expr.isRelationLiteral, Vocabulary.isRelation] using hr
    | _ => rfl

/-- The parts of a standard expression stay apart in its written form. -/
theorem Standard.allApart (h : Standard d e) : AllApart d e := by
  induction h with
  | literal h => exact allApart_literal (h.elim .name .number)
  | apply hn h ih =>
    exact everywhere_binary.2 ⟨⟨by simp, by simp⟩, allApart_literal (.name hn), ih⟩
  | signed ho h ih =>
    refine everywhere_binary.2 ⟨⟨?_, fun _ _ => ending_literal_ne _⟩, allApart_empty, ih⟩
    obtain rfl | rfl := ho <;> simp
  | operation ho hl hr ihl ihr =>
    refine everywhere_binary.2 ⟨⟨fun hc => ?_, fun _ _ => hl.ending_ne⟩, ihl, ihr⟩
    exact absurd hc (infixOperator_ne ho).2.1
  | concat hl hr h ihl ihr =>
    refine everywhere_binary.2 ⟨⟨fun _ => ?_, fun _ _ => hl.ending_ne⟩, ihl, ihr⟩
    exact hl.neighbours ihl (besideText_leading hr.leading hr.isEmpty) h
  | punctuated hl hm ih =>
    refine everywhere_binary.2 ⟨⟨fun _ => ?_, fun _ _ => hl.ending_ne⟩, ih, ?_⟩
    · exact neighbours_punctuation hm hl.ending_ne
    · exact allApart_literal (isOperandValue_of_isPunctuation hm)
  | fraction hn hm h ihn ihm =>
    exact everywhere_fraction.2 ⟨h, allApart_part ihn, allApart_part ihm⟩
  | root h ih => exact everywhere_root.2 ⟨trivial, allApart_part ih⟩
  | script hb ha ihb iha =>
    exact everywhere_script.2 ⟨fun _ => Standard.isRelationLiteral ha, ihb, allApart_part iha⟩
  | large hl hu hb ihl ihu ihb =>
    refine everywhere_large.2 ⟨fun _ => ⟨fun e he => Standard.isRelationLiteral (hl e he),
      fun e he => Standard.isRelationLiteral (hu e he)⟩, fun e he => allApart_part (ihl e he),
      fun e he => allApart_part (ihu e he), ?_⟩
    rintro e ⟨⟩
    exact allApart_part ihb
  | decorated hm h ih => exact everywhere_decorated.2 ⟨trivial, allApart_part ih⟩
  | block hn hr h ih =>
    refine everywhere_block.2 ⟨⟨hn, fun row hrow => ⟨(hr row hrow).2, ?_⟩⟩,
      fun row hrow cell hcell => allApart_part (ih row hrow cell hcell)⟩
    rintro first second third rfl hsecond
    have hrelation := Standard.isRelationLiteral (h _ hrow second (by simp))
    simp [hsecond, Expr.isRelationLiteral, Vocabulary.isRelation] at hrelation
  | bracket hd h ih => exact everywhere_bracket.2 ⟨trivial, allApart_part ih⟩
  | sized hl hr h ih => exact everywhere_bracket.2 ⟨trivial, allApart_part ih⟩

end Apart

end MathMarkup.Expr
