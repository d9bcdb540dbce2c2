import MathMarkup.Proofs.Rereading.Keyword

/-! How a pair of delimiters that grow with what they hold is read back from its written form. -/
namespace MathMarkup.Grammar

open Scan
open Reading (Alike)
open Vocabulary (Side)

variable {d : Dialect} {parsed rows : Bool} {a b r s w text left right : String} {v : Expr}
  {c : Context} {t : Token} {ts : List Token} {side : Side}

section Delimiters

/-- The written form of a delimiter is one symbol that stands for it, the legacy double bar apart. -/
theorem delimiter_text (d : Dialect) (side : Side) : ∀ x ∈ side.delimiters,
    (d = .legacy ∧ x = "\\|") ∨
    ((∃ c ∈ Vocabulary.latexMarks, Expr.sizedDelimiter d x = String.ofList [c]) ∨
      d = .latex ∧ ∃ c ∈ ['\\', '\x7b', '\x7d', '|'],
        Expr.sizedDelimiter d x = String.ofList ['\\', c]) ∧
    delimiter? d ⟨.symbol, Expr.sizedDelimiter d x, 0⟩ = some x := by
  cases d <;> cases side <;> decide

theorem forms_delimiter (h : left ∈ side.delimiters) (hd : ¬(d = .legacy ∧ left = "\\|")) :
    Forms d (Expr.sizedDelimiter d left).toList .symbol (Expr.sizedDelimiter d left) := by
  obtain hd' | ⟨⟨c, hc, hx⟩ | ⟨rfl, c, hc, hx⟩, -⟩ := delimiter_text d side left h
  · exact absurd hd' hd
  · rw [hx]
    simpa using Forms.mark d hc
  · rw [hx]
    simpa using Forms.escape (by simpa using hc)

theorem isMark_bar : IsMark "|" := ⟨'|', by decide, rfl⟩

theorem tokens_doubleBar (o : ℕ) : tokens .legacy o "||" =
    [⟨.symbol, "|", o⟩, ⟨.symbol, "|", (o + 1 : ℕ)⟩] := by
  have h := tokens_mark (d := .legacy) isMark_bar o "|"
  rw [isMark_bar.forms.tokens_eq (by simp)] at h
  exact h

theorem solid_delimiter (h : left ∈ side.delimiters) : Solid d (Expr.sizedDelimiter d left) := by
  by_cases hd : d = .legacy ∧ left = "\\|"
  · obtain ⟨rfl, rfl⟩ := hd
    exact Solid.mark_append isMark_bar (Solid.of_mark isMark_bar)
  · refine Solid.of_chars (forms_delimiter h hd).whole ?_
    have hall : ∀ x ∈ side.delimiters, ∀ c ∈ (Expr.sizedDelimiter d x).toList,
        Text.isBlank c = false := by
      cases d <;> cases side <;> decide
    exact hall left h

/-- No word runs into a delimiter. -/
theorem separate_delimiter (h : left ∈ side.delimiters) {cs : List Char}
    (hcs : ∀ x ∈ cs.getLast?, x.isAlpha = true) (r : String) :
    Separate cs (Expr.sizedDelimiter d left ++ r).toList := by
  have hall : ∀ x ∈ side.delimiters, ∃ y ∈ (Expr.sizedDelimiter d x).toList.head?,
      y.isAlpha = false := by
    cases d <;> cases side <;> decide
  obtain ⟨y, hy, halpha⟩ := hall left h
  intro x hx z hz
  have hzy : z = y := by
    rw [String.toList_append, List.head?_append, Option.mem_def.1 hy] at hz
    simpa using hz.symm
  subst hzy
  have hx := hcs x hx
  have hback : x ≠ '\\' := Text.ne_of_isAlpha hx rfl
  simp [joins, halpha, Text.isDigit_of_isAlpha hx, hback]

theorem isDoubleBar_of_unbarred {o : ℤ} {n : ℕ} (hn : text = "|" → n = 1)
    (h : ∀ u ∈ ts.head?, u.isSymbol "|" = true → u.offset ≠ o + n) :
    isDoubleBar d (⟨.symbol, text, o⟩ :: ts) = false := by
  cases ts with
  | nil => rfl
  | cons u ts =>
    by_contra hbar
    simp only [isDoubleBar, Token.isSymbol, Bool.and_eq_true, decide_eq_true_eq,
      Bool.not_eq_false] at hbar
    obtain ⟨⟨⟨-, -, ht⟩, hu⟩, hoffset⟩ := hbar
    refine h u rfl (by simpa [Token.isSymbol] using hu) ?_
    simp [hn ht, hoffset]

/-- In the legacy dialect a double bar is one delimiter. -/
theorem sizedDelimiter_doubleBar (hc : Fits c .legacy rows) (o : ℕ) (ts : List Token) :
    sizedDelimiter c side (tokens .legacy o "||" ++ ts) = .done "\\|" ts := by
  rw [tokens_doubleBar]
  simp [sizedDelimiter, isDoubleBar, hc.dialect, Token.isSymbol]

theorem sizedDelimiter_of_delimiter (hd : delimiter? c.dialect t = some left)
    (h : left ∈ side.delimiters) (hbar : isDoubleBar c.dialect (t :: ts) = false) :
    sizedDelimiter c side (t :: ts) = .done left ts := by
  have hfilter : (some left).filter side.delimiters.contains = some left := by
    simp [Option.filter, h]
  simp [sizedDelimiter, hbar, hd, hfilter]

/-- A delimiter is read where it makes no double bar with the token after it. -/
theorem sizedDelimiter_single (h : left ∈ side.delimiters) (hd : ¬(d = .legacy ∧ left = "\\|"))
    (hc : Fits c d rows) {o : ℕ}
    (hbar : isDoubleBar d (⟨.symbol, Expr.sizedDelimiter d left, o⟩ :: ts) = false) :
    sizedDelimiter c side (⟨.symbol, Expr.sizedDelimiter d left, o⟩ :: ts) = .done left ts := by
  obtain hd' | ⟨-, hvalue⟩ := delimiter_text d side left h
  · exact absurd hd' hd
  · obtain rfl := hc.dialect
    exact sizedDelimiter_of_delimiter hvalue h hbar

theorem sizedDelimiter_eq (h : left ∈ side.delimiters) (hc : Fits c d rows) (o : ℕ)
    (ht : ∀ t ∈ ts.head?, Unbarred c (o + (Expr.sizedDelimiter d left).length : ℕ) t) :
    sizedDelimiter c side (tokens d o (Expr.sizedDelimiter d left) ++ ts) = .done left ts := by
  by_cases hd : d = .legacy ∧ left = "\\|"
  · obtain ⟨rfl, rfl⟩ := hd
    exact sizedDelimiter_doubleBar hc o ts
  · rw [(forms_delimiter h hd).tokens_eq (by simp), List.singleton_append]
    refine sizedDelimiter_single h hd hc ?_
    refine isDoubleBar_of_unbarred (n := (Expr.sizedDelimiter d left).length) ?_ ?_
    · intro htext
      rw [htext]
      rfl
    · intro u hu hsymbol
      simpa using ht u hu hsymbol

/-- A delimiter is read back unless a bar follows at once. -/
theorem takes_sizedDelimiter (h : left ∈ side.delimiters) :
    Takes d parsed rows (fun c => sizedDelimiter c side) (Expr.sizedDelimiter d left) left
      Unbarred :=
  fun _ o _ hc ht => .of_eq (sizedDelimiter_eq h hc o ht)

end Delimiters

section Brackets

theorem isKeyword_sizing (d : Dialect) (side : Side) : ∃ text,
    IsKeyword d (Expr.sizingWord d side) text ∧
      Text.lower text = match side with | .left => "left" | .right => "right" := by
  cases d with
  | latex =>
    cases side with
    | left => exact ⟨"left", isKeyword_latex (by decide) (by decide), by decide⟩
    | right => exact ⟨"right", isKeyword_latex (by decide) (by decide), by decide⟩
  | legacy =>
    cases side with
    | left =>
      exact ⟨_, isKeyword_legacy (by decide) (by decide), by decide⟩
    | right =>
      exact ⟨_, isKeyword_legacy (by decide) (by decide), by decide⟩

theorem keywordForm_left (h : Text.lower text = "left") (c : Context) (q : ℤ) :
    keywordForm read c ⟨.keyword, text, q⟩ = sizedBracket read c := by
  funext ts
  simp [keywordForm, Token.word?, h]

theorem sizing_last (d : Dialect) (side : Side) :
    ∀ x ∈ (Expr.sizingWord d side).toList.getLast?, x.isAlpha = true := by
  cases d <;> cases side <;> decide

theorem leads_sizing {text : String} (hk : IsKeyword d (Expr.sizingWord d side) text)
    (h : left ∈ side.delimiters) (r : String) :
    Leads d .keyword text (Expr.sizedDelimiter d left ++ r)
      (Expr.sizingWord d side ++ (Expr.sizedDelimiter d left ++ r)) :=
  leads_append hk.forms (by simp) (separate_delimiter h (sizing_last d side) r)

theorem solid_sizing {text : String} (hk : IsKeyword d (Expr.sizingWord d side) text)
    (h : left ∈ side.delimiters) :
    Solid d (Expr.sizingWord d side ++ Expr.sizedDelimiter d left) := by
  have hs := separate_delimiter (d := d) h (sizing_last d side) ""
  rw [String.append_empty] at hs
  exact hk.solid.append (solid_delimiter h) hs

/-- The end of the bracket: a keyword and its delimiter. -/
theorem takes_sizedClosing (h : right ∈ Side.right.delimiters) :
    Takes d parsed rows sizedClosing (Expr.sizingWord d .right ++ Expr.sizedDelimiter d right) right
      Unbarred := by
  obtain ⟨text, hk, hlower⟩ := isKeyword_sizing d .right
  intro c o ts hc ht
  obtain ⟨q, htokens, hplace⟩ := leads_sizing hk h "" o
  rw [String.append_empty] at htokens hplace
  rw [htokens, List.cons_append]
  have hword : (⟨.keyword, text, o⟩ : Token).word? = some "right" := by
    simp [Token.word?, hlower]
  simp only [sizedClosing, hword, if_true]
  exact takes_sizedDelimiter h c q ts hc (by rwa [hplace])

theorem starts_sizedClosing (o : ℕ) (h : right ∈ Side.right.delimiters) (c : Context) :
    ∃ t us, tokens d o (Expr.sizingWord d .right ++ Expr.sizedDelimiter d right) = t :: us ∧
      c.isBoundary t = true := by
  obtain ⟨text, hk, hlower⟩ := isKeyword_sizing d .right
  obtain ⟨q, htokens, -⟩ := leads_sizing hk h "" o
  rw [String.append_empty] at htokens
  refine ⟨_, _, htokens, ?_⟩
  simp [Context.isBoundary, Token.word?, hlower]

/-- The content, and the end of the bracket. -/
theorem Content.takes_sized (h : Content d parsed rows s v) {gap : ℕ}
    (hr : right ∈ Side.right.delimiters)
    (hsplit : Splits d gap s (Expr.sizingWord d .right ++ Expr.sizedDelimiter d right) r)
    (hleft : left ≠ "") :
    Takes d parsed rows
      (fun c ts => (operand read c .sequence ts).bind fun content ts =>
        (sizedClosing c ts).map fun right =>
          if left = "" ∧ right = "" then content else .bracket true left right content)
      r (.bracket true left right v) Unbarred := by
  have hright : Takes d parsed rows sizedClosing _ right Unbarred := takes_sizedClosing hr
  have hclosing := hright.map fun right => if left = "" ∧ right = "" then v else Expr.bracket true left right v
  simp only [hleft, false_and, if_false] at hclosing
  refine h.takes.bind (f := fun c content ts => (sizedClosing c ts).map fun right =>
    if left = "" ∧ right = "" then content else Expr.bracket true left right content) ?_ hsplit ?_
  · simpa only [hleft, false_and, if_false] using hclosing
  · intro c o q ts hc _ _
    obtain ⟨t, us, hu, hb⟩ := starts_sizedClosing (d := d) q hr c
    rw [hu]
    rintro t ⟨⟩
    exact hb

/-- In its written form a bracket of two delimiters is the left one, a blank, and all the rest. -/
theorem renderBracket_sized (hs : Solid d s) (left : String)
    (hr : right ∈ Side.right.delimiters) : ∃ gap m,
      Splits d gap s (Expr.sizingWord d .right ++ Expr.sizedDelimiter d right) m ∧ Trailing d m ∧
      m ≠ "" ∧ Expr.renderBracket d true left right s =
        Expr.sizingWord d .left ++ (Expr.sizedDelimiter d left ++ (" " ++ m)) := by
  obtain ⟨text, hk, -⟩ := isKeyword_sizing d .right
  have hword (side : Side) : Expr.sizingWord d side ≠ "" := by
    cases d <;> cases side <;> decide
  have hclose : Expr.sizingWord d .right ++ Expr.sizedDelimiter d right ≠ "" := by
    simp [hword]
  have hopen : Expr.sizingWord d .left ++ Expr.sizedDelimiter d left ≠ "" := by
    simp [hword]
  obtain ⟨gap, m, hsplit, hm, hne, htext⟩ :=
    spaced_middle hs.whole (solid_sizing hk hr) hclose hopen
  refine ⟨gap, m, hsplit, hm, hne, ?_⟩
  simpa [Expr.renderBracket, String.append_assoc] using htext

/-- A pair of delimiters with its content. -/
theorem primary_sized (h : Content d parsed rows s v) (hl : left ∈ Side.left.delimiters)
    (hr : right ∈ Side.right.delimiters) :
    Primary d parsed rows (Expr.renderBracket d true left right s) (.bracket true left right v)
        Unbarred ∧
      ∃ text a, Text.lower text = "left" ∧
        Leads d .keyword text a (Expr.renderBracket d true left right s) := by
  obtain ⟨text, hk, hlower⟩ := isKeyword_sizing d .left
  obtain ⟨gap, m, hsplit, hm, hne, htext⟩ := renderBracket_sized h.solid left hr
  have hleft : left ≠ "" := by
    rintro rfl
    revert hl
    decide
  have hfront := solid_sizing hk hl
  have hopen : Expr.sizingWord d .left ++ Expr.sizedDelimiter d left ≠ "" := by
    have hword : Expr.sizingWord d .left ≠ "" := by cases d <;> decide
    simp [hword]
  rw [htext]
  have hleads := leads_sizing hk hl (" " ++ m)
  refine ⟨primary_phrase ?_ ?_ hleads fun q => ?_, text, _, hlower, hleads⟩
  · rw [hlower]
    decide
  · rw [← String.append_assoc]
    exact hfront.spaced hm hopen hne
  · have hside : Takes d parsed rows _ _ left Unbarred := takes_sizedDelimiter hl
    have hdelimiter := hside.bind
      (f := fun c left ts => (operand read c .sequence ts).bind fun content ts =>
        (sizedClosing c ts).map fun right =>
          if left = "" ∧ right = "" then content else Expr.bracket true left right content)
      (h.takes_sized hr hsplit hleft) (splits_gap (solid_delimiter hl).whole m) ?_
    · intro c o ts hc ht
      simp only [keywordForm_left hlower, sizedBracket, read_operand]
      exact hdelimiter c o ts hc ht
    · intro c o q ts hc hq ht t h' hbar
      obtain ⟨p, -, htokens, -⟩ := hsplit q
      obtain ⟨u, us, hu, -⟩ := starts_sizedClosing (d := d) p hr c
      have hne : tokens d q m ≠ [] := by simp [htokens, hu]
      have hmem : t ∈ tokens d q m := by
        rw [List.head?_append_of_ne_nil _ hne] at h'
        exact List.mem_of_mem_head? h'
      have := le_offset hmem
      omega

end Brackets

end MathMarkup.Grammar
