import MathMarkup.Proofs.Rereading.Rewritten
import MathMarkup.Proofs.Token.Genuine

/-! What is parsed without a note is legible. The grammar is followed rule by rule: each takes what
shorter lists of tokens give, and puts it together to what it is read from. -/
namespace MathMarkup.Grammar

open MathMarkup.Expr Scan

variable {α β : Type} {d : Dialect} {rows : Bool} {c : Context} {ts us : List Token} {t : Token}
  {e v left right : Expr} {P : α → Prop} {Q : β → Prop} {r : Reading α}

section Readings

/-- Without a note the reading has a value of that kind, and leaves an end of the tokens. -/
def Yields (ts : List Token) (P : α → Prop) (r : Reading α) : Prop :=
  r.notes = [] → r.rest <:+ ts ∧ P r.value

namespace Yields

theorem done {a : α} (h : P a) (ts : List Token) : Yields ts P (.done a ts) :=
  fun _ => ⟨List.suffix_refl ts, h⟩

theorem missed (expected : Expectation) (a : α) : Yields ts P (miss c expected a us) := by
  intro h
  simp [miss] at h

theorem mono {P' : α → Prop} (h : Yields ts P r) (hp : ∀ a, P a → P' a) : Yields ts P' r :=
  fun hr => ⟨(h hr).1, hp _ (h hr).2⟩

theorem cons (h : Yields ts P r) : Yields (t :: ts) P r :=
  fun hr => ⟨(h hr).1.trans (List.suffix_cons t ts), (h hr).2⟩

theorem suffix (h : Yields us P r) (hs : us <:+ ts) : Yields ts P r :=
  fun hr => ⟨(h hr).1.trans hs, (h hr).2⟩

theorem map {f : α → β} (h : Yields ts P r) (hf : ∀ a, P a → Q (f a)) : Yields ts Q (r.map f) :=
  fun hr => ⟨(h hr).1, hf _ (h hr).2⟩

theorem bind {f : α → List Token → Reading β} (h : Yields ts P r)
    (hf : ∀ a us, us <:+ ts → P a → Yields us Q (f a us)) : Yields ts Q (r.bind f) := by
  intro hr
  rw [Reading.notes_bind, List.append_eq_nil_iff] at hr
  obtain ⟨hs, hp⟩ := h hr.1
  obtain ⟨hs', hq⟩ := hf _ _ hs hp hr.2
  exact ⟨hs'.trans hs, hq⟩

end Yields

end Readings

section Values

/-- What may stand between delimiters, as a cell or as a whole. -/
def IsContent (d : Dialect) (rows : Bool) (v : Expr) : Prop := v ≠ .empty → Legible d true rows v

/-- What an argument without its group is. -/
def IsArgument (d : Dialect) (rows : Bool) (v : Expr) : Prop :=
  (v ≠ .empty → ¬IsLoneArgument d true v → Legible d true rows v) ∧ v.isImplicit = false

def IsScriptArgument (d : Dialect) (rows : Bool) (v : Expr) : Prop :=
  (v ≠ .empty → ¬IsLoneScript d true v → Legible d true rows v) ∧ v.isImplicit = false

/-- A phrase that no group is taken off. -/
def IsPhrase (d : Dialect) (rows : Bool) (v : Expr) : Prop :=
  Legible d true rows v ∧ v.isImplicit = false

/-- What scripts may attach to: an operand, or nothing if a script mark comes next. -/
def IsBase (d : Dialect) (rows : Bool) (ts : List Token) (v : Expr) : Prop :=
  Legible d true rows v ∨ v = .empty ∧ ∃ t ∈ ts.head?, t.isScript = true

/-- A bracket, which something may be applied to. -/
def IsBracket (d : Dialect) (rows : Bool) (v : Expr) : Prop :=
  ∃ sized left right x, v = .bracket sized left right x ∧ Legible d true rows v

def IsTable (d : Dialect) (table : List (List Expr)) : Prop :=
  ∀ row ∈ table, row ≠ [] ∧ ∀ cell ∈ row, IsContent d true cell

/-- What a phrase is read as, if what is read already is as it should be. -/
def Meets (c : Context) (ts : List Token) (phrase : Phrase) (v : Expr) : Prop :=
  match phrase with
  | .operand .sequence => IsContent c.dialect c.inRows v
  | .operand _ => Legible c.dialect true c.inRows v
  | .chain _ left => Legible c.dialect true c.inRows left → Legible c.dialect true c.inRows v
  | .scripts base => IsBase c.dialect c.inRows ts base → Legible c.dialect true c.inRows v
  | .scriptArgument => IsScriptArgument c.dialect c.inRows v
  | .argument => IsArgument c.dialect c.inRows v
  | .rows _ complete cells _ =>
    IsTable c.dialect complete → (∀ cell ∈ cells, IsContent c.dialect true cell) →
      IsPhrase c.dialect c.inRows v
  | .strays left => v = left

def AllGenuine (d : Dialect) (ts : List Token) : Prop := ∀ t ∈ ts, Genuine d t

/-- All lists with fewer than `n` genuine tokens are read as they should be. -/
def Below (n : ℕ) : Prop :=
  ∀ phrase c us, us.length < n → AllGenuine c.dialect us →
    Yields us (Meets c us phrase) (read phrase c us)

theorem AllGenuine.suffix (h : AllGenuine d ts) (hs : us <:+ ts) : AllGenuine d us :=
  fun t ht => h t (hs.subset ht)

theorem AllGenuine.tail (h : AllGenuine d (t :: ts)) : AllGenuine d ts :=
  h.suffix (List.suffix_cons t ts)

/-- An end of a list that is short enough is read as it should be. -/
theorem Below.suffix {n : ℕ} (h : Below n) (hg : AllGenuine c.dialect ts) (hn : ts.length < n)
    (hs : us <:+ ts) (phrase : Phrase) : Yields us (Meets c us phrase) (read phrase c us) :=
  h phrase c us (hs.length_le.trans_lt hn) (hg.suffix hs)

theorem IsContent.empty : IsContent d rows .empty := fun h => absurd rfl h

theorem IsContent.of_legible (h : Legible d true rows v) : IsContent d rows v := fun _ => h

theorem IsPhrase.argument (h : IsPhrase d rows v) : IsArgument d rows v :=
  ⟨fun _ _ => h.1, h.2⟩

theorem IsArgument.scriptArgument (h : IsArgument .latex rows v) : IsScriptArgument .latex rows v :=
  ⟨fun he hl => h.1 he fun hl' => hl ⟨hl'.1, hl'.2.2⟩, h.2⟩

/-- Only a group is implicit, and it has both its braces. -/
theorem implicit_of_legible (h : Legible d true rows v) (hi : v.isImplicit = true) :
    ∃ x, v = .bracket false "\x7b" "\x7d" x ∧ IsContent d rows x ∧ x.isImplicit = false := by
  cases h with
  | @bracket _ left right content hd hc hb =>
    have hleft : left = "\x7b" ∨ left = "" := by simpa [isImplicit] using hi
    obtain rfl | rfl := hleft
    · obtain rfl : "\x7d" = right := by simpa [Vocabulary.closing?] using hd
      exact ⟨content, rfl, hc, hb rfl rfl⟩
    · simp [Vocabulary.closing?] at hd
  | _ => simp [isImplicit] at hi

/-- Without its group a content is one still, and no group is left around it. -/
theorem IsContent.unwrap (h : IsContent d rows v) :
    IsContent d rows v.unwrap ∧ v.unwrap.isImplicit = false := by
  by_cases hi : v.isImplicit = true
  · have hne : v ≠ .empty := by
      rintro rfl
      contradiction
    obtain ⟨x, rfl, hx, hbare⟩ := implicit_of_legible (h hne) hi
    exact ⟨hx, hbare⟩
  · rw [unwrap_of_not_implicit (by simpa using hi)]
    exact ⟨h, by simpa using hi⟩

theorem IsContent.argument (h : IsContent d rows v) : IsArgument d rows v.unwrap :=
  ⟨fun he _ => h.unwrap.1 he, h.unwrap.2⟩

theorem IsContent.scriptArgument (h : IsContent d rows v) : IsScriptArgument d rows v.unwrap :=
  ⟨fun he _ => h.unwrap.1 he, h.unwrap.2⟩

/-- A bracket around a content is legible, a group around a group being that one. -/
theorem IsContent.bracket (h : IsContent d rows v) {left' right' : String}
    (hd : Vocabulary.closing? left' = some right') :
    ∃ x, (Expr.bracket false left' right' v).flatten = .bracket false left' right' x ∧
      Legible d true rows (.bracket false left' right' x) := by
  by_cases hgroup : left' = "\x7b" ∧ v.isImplicit = true
  · obtain ⟨rfl, hi⟩ := hgroup
    obtain rfl : "\x7d" = right' := by simpa [Vocabulary.closing?] using hd
    have hne : v ≠ .empty := by
      rintro rfl
      contradiction
    obtain ⟨x, rfl, -⟩ := implicit_of_legible (h hne) hi
    exact ⟨x, rfl, h hne⟩
  · have hbare (hleft : left' = "\x7b") : v.isImplicit = false := by
      simpa [hleft] using hgroup
    refine ⟨v, flatten_of_bare ?_ hbare, .bracket hd h fun hleft _ => hbare hleft⟩
    rintro rfl
    simp [Vocabulary.closing?] at hd

end Values

section Leaves

theorem expect_yields (text : String) (ts : List Token) :
    Yields ts (fun found => found = true) (expect c text ts) := by
  cases ts with
  | nil => exact .missed _ _
  | cons t rest =>
    simp only [expect]
    split
    · exact (Yields.done rfl rest).cons
    · exact .missed _ _

theorem notes_skipStray (t : Token) (ts : List Token) : (skipStray c t ts).notes ≠ [] := by
  unfold skipStray
  split
  · simp
  · split <;> simp

theorem sizedDelimiter_yields (side : Vocabulary.Side) (ts : List Token) :
    Yields ts (fun delimiter => delimiter ∈ side.delimiters) (sizedDelimiter c side ts) := by
  unfold sizedDelimiter
  split
  · refine (Yields.done ?_ _).suffix (List.drop_suffix 2 ts)
    cases side <;> decide
  · cases ts with
    | nil => exact .missed _ _
    | cons t rest =>
      dsimp only
      split
      · next h =>
        obtain ⟨-, hmem⟩ := Option.filter_eq_some_iff.1 h
        exact (Yields.done (by simpa using hmem) rest).cons
      · exact .missed _ _

theorem sizedClosing_yields (ts : List Token) :
    Yields ts (fun delimiter => delimiter ∈ Vocabulary.Side.right.delimiters) (sizedClosing c ts) := by
  cases ts with
  | nil => exact .missed _ _
  | cons t rest =>
    simp only [sizedClosing]
    split
    · exact (sizedDelimiter_yields _ rest).cons
    · exact .missed _ _

end Leaves

section Literals

/-- A symbol that nothing else is read from is a literal that can be an operand. -/
theorem symbol_facts : ∀ d rows, ∀ x ∈ symbols d, Vocabulary.isClosing x = false →
    ¬(rows = true ∧ (x = "&" ∨ x = Vocabulary.lineBreak ∨ d = .legacy ∧ x = "#")) →
    x ≠ "/" ∧ x ≠ "*" → Vocabulary.isOpening x = false → x ≠ "^" ∧ x ≠ "_" →
    Vocabulary.isSign x = false →
    (d = .latex ∧ x = "\\") ∨
      (if x = Vocabulary.lineBreak ∨ d = .legacy ∧ x = "#" then Vocabulary.lineBreak else x) ∈
        operandMarks d rows := by
  intro d
  cases d <;> decide

theorem row_of_boundary (hb : c.isBoundary t = false) (hk : t.kind = .symbol) :
    Vocabulary.isClosing t.text = false ∧ ¬(c.inRows = true ∧ (t.text = "&" ∨
      t.text = Vocabulary.lineBreak ∨ c.dialect = .legacy ∧ t.text = "#")) := by
  simp only [Context.isBoundary, Token.isClosing, endsRow, Token.isSymbol, hk, Bool.or_eq_false_iff,
    Bool.and_eq_false_iff, decide_true, Bool.true_and] at hb
  refine ⟨hb.1.1.1.2, ?_⟩
  rintro ⟨hr, hx⟩
  have := hb.2
  simp [hr] at this
  tauto

theorem genuine_symbol_iff (hg : Genuine d t) (hk : t.kind = .symbol) : t.text ∈ symbols d := by
  simpa [Genuine, hk] using hg

theorem product_of_symbol (hp : isProductOperator t = false) (hk : t.kind = .symbol) :
    t.text ≠ "/" ∧ t.text ≠ "*" := by
  refine ⟨?_, ?_⟩ <;>
  · intro hx
    simp [isProductOperator, operator?, Token.isSymbol, hk, hx] at hp

theorem script_of_symbol (hs : t.isScript = false) (hk : t.kind = .symbol) :
    t.text ≠ "^" ∧ t.text ≠ "_" := by
  simpa [Token.isScript, Token.isSymbol, hk] using hs

theorem symbolLiteral_eq (hk : t.kind = .symbol) : symbolLiteral d t =
    .literal (if t.text = Vocabulary.lineBreak ∨ d = .legacy ∧ t.text = "#" then
      Vocabulary.lineBreak else t.text) := by
  simp only [symbolLiteral, endsRow, Token.isSymbol, hk, literalOf]
  split <;> simp_all

theorem legible_symbol (hg : Genuine c.dialect t) (hk : t.kind = .symbol)
    (hb : c.isBoundary t = false) (hp : isProductOperator t = false) (ho : t.isOpening = false)
    (hs : t.isScript = false) (hsign : t.isSign = false) :
    Legible c.dialect true c.inRows (symbolLiteral c.dialect t) := by
  obtain ⟨hclose, hrow⟩ := row_of_boundary hb hk
  have hopen : Vocabulary.isOpening t.text = false := by simpa [Token.isOpening, hk] using ho
  have hsign' : Vocabulary.isSign t.text = false := by simpa [Token.isSign, hk] using hsign
  have hfacts := symbol_facts c.dialect c.inRows t.text (genuine_symbol_iff hg hk) hclose hrow
    (product_of_symbol hp hk) hopen (script_of_symbol hs hk) hsign'
  rw [symbolLiteral_eq hk]
  refine .literal fun hlone => ?_
  obtain ⟨hd, hx⟩ | hmark := hfacts
  · refine absurd ⟨rfl, hd, ?_⟩ hlone
    simp [hx, hd, Vocabulary.lineBreak]
  · exact .mark hmark

theorem legible_name (hg : Genuine d t) (hk : t.kind = .identifier) :
    IsName d (identifierValue d t.text) := by
  simpa [Genuine, hk] using hg

theorem legible_identifier (hg : Genuine d t) (hk : t.kind = .identifier) :
    Legible d true rows (.literal (identifierValue d t.text)) :=
  .literal fun _ => .name (legible_name hg hk)

theorem legible_number (hg : Genuine d t) (hk : t.kind = .number) :
    Legible d true rows (literalOf t) := by
  have hn : IsNumber t.text := by simpa [Genuine, hk] using hg
  exact .literal fun _ => .number hn

theorem kind_of_genuine (hg : Genuine d t) : t.kind = .identifier ∨ t.kind = .number ∨
    t.kind = .keyword ∨ t.kind = .symbol := by
  cases hk : t.kind <;> simp [Genuine, hk] at hg ⊢

/-- In LaTeX a symbol may be an argument by itself although no operand starts with it. -/
theorem argument_facts : ∀ rows, ∀ x ∈ symbols .latex, Vocabulary.isClosing x = false →
    ¬(rows = true ∧ (x = "&" ∨ x = Vocabulary.lineBreak)) → x ≠ "/" ∧ x ≠ "*" → x ≠ "\x7b" →
    x ∈ loneMarks .latex ∨ x = "\\" ∨ x ∈ operandMarks .latex rows := by
  decide

theorem scriptArgument_facts : ∀ rows, ∀ x ∈ symbols .legacy, Vocabulary.isClosing x = false →
    ¬(rows = true ∧ (x = "&" ∨ x = Vocabulary.lineBreak ∨ x = "#")) → x ≠ "/" ∧ x ≠ "*" →
    Vocabulary.isOpening x = false → x ≠ "^" ∧ x ≠ "_" → x ∈ loneMarks .legacy ∨
      (if x = Vocabulary.lineBreak ∨ x = "#" then Vocabulary.lineBreak else x) ∈
        operandMarks .legacy rows := by
  decide

/-- The marks of a dialect that may be arguments by themselves are so as they are. -/
theorem isArgument_literal {value : String}
    (h : value ∈ loneMarks .latex ∨ value = "\\" ∨ IsOperandValue .latex rows value) :
    IsArgument .latex rows (.literal value) := by
  refine ⟨fun _ hlone => .literal fun hback => ?_, rfl⟩
  obtain h | h | h := h
  · exact absurd ⟨rfl, rfl, by simpa [isLoneMark] using h⟩ hlone
  · exact absurd ⟨rfl, rfl, h⟩ hback
  · exact h

theorem starts_of_startsOperand (h : startsOperand c t = true) :
    c.isBoundary t = false ∧ isProductOperator t = false := by
  simp only [startsOperand, Bool.not_eq_true', Bool.or_eq_false_iff] at h
  exact h.1

/-- In LaTeX any token but a brace and a keyword is an argument by itself. -/
theorem isArgument_token (hd : c.dialect = .latex) (hg : Genuine c.dialect t)
    (h : startsOperand c t = true) (hk : t.kind ≠ .keyword) (hbrace : t.isSymbol "\x7b" = false) :
    IsArgument c.dialect c.inRows (literalOf t) := by
  obtain ⟨hb, hp⟩ := starts_of_startsOperand h
  rw [hd] at hg ⊢
  refine isArgument_literal ?_
  obtain hkind | hkind | hkind | hkind := kind_of_genuine hg
  · exact .inr (.inr (.name (legible_name hg hkind)))
  · exact .inr (.inr (.number (by simpa [Genuine, hkind] using hg)))
  · exact absurd hkind hk
  · obtain ⟨hclose, hrow⟩ := row_of_boundary hb hkind
    have hopen : t.text ≠ "\x7b" := by simpa [Token.isSymbol, hkind] using hbrace
    have hrow' : ¬(c.inRows = true ∧ (t.text = "&" ∨ t.text = Vocabulary.lineBreak)) := by
      rintro ⟨hr, hx⟩
      exact hrow ⟨hr, hx.imp id .inl⟩
    exact (argument_facts c.inRows t.text (genuine_symbol_iff hg hkind) hclose hrow'
      (product_of_symbol hp hkind) hopen).imp id (.imp id .mark)

/-- In the legacy dialect a symbol that no bracket and no script starts with is a script. -/
theorem isScriptArgument_symbol (hd : c.dialect = .legacy) (hg : Genuine c.dialect t)
    (h : startsOperand c t = true) (hk : t.kind = .symbol) (ho : t.isOpening = false)
    (hs : t.isScript = false) : IsScriptArgument c.dialect c.inRows (symbolLiteral .legacy t) := by
  obtain ⟨hb, hp⟩ := starts_of_startsOperand h
  obtain ⟨hclose, hrow⟩ := row_of_boundary hb hk
  rw [hd] at hg hrow ⊢
  have hopen : Vocabulary.isOpening t.text = false := by simpa [Token.isOpening, hk] using ho
  have hfacts := scriptArgument_facts c.inRows t.text (genuine_symbol_iff hg hk) hclose
    (by simpa using hrow) (product_of_symbol hp hk) hopen (script_of_symbol hs hk)
  rw [symbolLiteral_eq hk]
  refine ⟨fun _ hlone => .literal fun _ => ?_, rfl⟩
  obtain hmark | hmark := hfacts
  · refine absurd ⟨rfl, ?_⟩ hlone
    have hsign : t.text ≠ Vocabulary.lineBreak ∧ t.text ≠ "#" := by
      have hall : ∀ x ∈ loneMarks .legacy, x ≠ Vocabulary.lineBreak ∧ x ≠ "#" := by decide
      exact hall _ hmark
    simpa [isLoneMark, hsign] using hmark
  · exact .mark (by simpa using hmark)

end Literals

theorem mem_of_decoration {decoration : Decoration} (h : decoration? d t = some decoration) :
    decoration ∈ Decoration.all := by
  cases d <;>
  · simp only [decoration?, Decoration.ofLatex?, Decoration.ofLegacy?] at h
    exact List.mem_of_find?_eq_some h

section Keywords

variable {n : ℕ} (h : Below n) (hg : AllGenuine c.dialect ts)
include h hg

theorem bracket_yields {opening closing : String} (hd : Vocabulary.closing? opening = some closing)
    (hn : ts.length < n) :
    Yields ts (fun v => ∃ x, v = .bracket false opening closing x ∧
      Legible c.dialect true c.inRows v) (bracket read c opening ts) := by
  unfold bracket
  refine .bind (h.suffix hg hn (List.suffix_refl ts) _) fun content us _ hcontent => ?_
  refine (expect_yields _ us).map fun found hfound => ?_
  obtain ⟨x, hflat, hx⟩ := hcontent.bracket hd
  simp only [hfound, if_true, hd, Option.getD_some, hflat]
  exact ⟨x, rfl, hx⟩

theorem sizedBracket_yields (hn : ts.length < n) :
    Yields ts (fun v => IsBracket c.dialect c.inRows v ∧ v.isImplicit = false)
      (sizedBracket read c ts) := by
  refine .bind (sizedDelimiter_yields _ ts) fun left us hu hl => ?_
  refine .bind (h.suffix hg hn hu _) fun content vs _ hcontent => ?_
  refine (sizedClosing_yields vs).map fun right hr => ?_
  have hleft : left ≠ "" := by
    rintro rfl
    revert hl
    decide
  simp only [hleft, false_and, if_false]
  exact ⟨⟨_, _, _, _, rfl, .sized hl hr hcontent⟩, rfl⟩

/-- What the bounds of a large operator are. -/
theorem bound_yields (mark : String) (hn : ts.length ≤ n) :
    Yields ts (fun part => ∀ e ∈ part, IsScriptArgument c.dialect c.inRows e)
      (bound read c mark ts) := by
  cases ts with
  | nil => exact .done (by simp) _
  | cons t rest =>
    simp only [bound]
    split
    · refine ((h _ c rest hn hg.tail).map fun v hv => ?_).cons
      rintro e ⟨⟩
      exact hv
    · exact .done (by simp) _

theorem bounds_yields (hn : ts.length ≤ n) :
    Yields ts (fun parts => (∀ e ∈ parts.1, IsScriptArgument c.dialect c.inRows e) ∧
      ∀ e ∈ parts.2, IsScriptArgument c.dialect c.inRows e) (bounds read c ts) := by
  unfold bounds
  split
  · refine .bind (bound_yields h hg _ hn) fun upper us hu hupper => ?_
    exact (bound_yields h (hg.suffix hu) _ (hu.length_le.trans hn)).map fun lower hlower =>
      ⟨hlower, hupper⟩
  · refine .bind (bound_yields h hg _ hn) fun lower us hu hlower => ?_
    split
    · exact (bound_yields h (hg.suffix hu) _ (hu.length_le.trans hn)).map fun upper hupper =>
        ⟨hlower, hupper⟩
    · exact .done (by simp) us

theorem body_yields (hn : ts.length < n) :
    Yields ts (fun part => ∀ e ∈ part, IsContent c.dialect c.inRows e ∧ e.isImplicit = false)
      (body read c ts) := by
  cases ts with
  | nil => exact .done (by simp) _
  | cons t rest =>
    simp only [body]
    split
    · refine (h _ c _ hn hg).map fun v hv => ?_
      simpa using (IsContent.of_legible hv).unwrap
    · exact .done (by simp) _

theorem large_yields (operator : LargeOperator) (hn : ts.length < n) :
    Yields ts (IsPhrase c.dialect c.inRows) (large read c operator ts) := by
  refine .bind (bounds_yields h hg hn.le) fun parts us hu hparts => ?_
  refine (body_yields h (hg.suffix hu) (hu.length_le.trans_lt hn)).map fun part hpart => ?_
  obtain ⟨hlower, hupper⟩ := hparts
  refine ⟨?_, rfl⟩
  exact .large (fun e he => (hlower e he).1) (fun e he => (hupper e he).1)
    (fun e he => (hpart e he).1) (fun e he _ => (hlower e he).2) (fun e he _ => (hupper e he).2)
    fun e he _ => (hpart e he).2

theorem argument_yields (hn : ts.length < n) :
    Yields ts (IsArgument c.dialect c.inRows) (read .argument c ts) :=
  h _ c ts hn hg

theorem stackedFraction_yields (hn : ts.length < n) :
    Yields ts (IsPhrase c.dialect c.inRows) (stackedFraction read c ts) := by
  refine .bind (argument_yields h hg hn) fun numerator us hu hnumerator => ?_
  refine (argument_yields h (hg.suffix hu) (hu.length_le.trans_lt hn)).map fun denominator hden => ?_
  exact ⟨.fraction (fun he hl => hnumerator.1 he fun hl' => hl ⟨rfl, hl'⟩)
    (fun he hl => hden.1 he fun hl' => hl ⟨rfl, hl'⟩) (fun _ => hnumerator.2) (fun _ => hden.2), rfl⟩

theorem rows_yields (name : String) (hn : ts.length < n) :
    Yields ts (IsPhrase c.dialect c.inRows) (read (.rows name [] [] false) c ts) :=
  (h _ c ts hn hg).mono fun _ hv => hv (by simp [IsTable]) (by simp)

theorem latexBlock_yields (t : Token) (hn : ts.length < n) :
    Yields ts (IsPhrase c.dialect c.inRows) (latexBlock read c t ts) := by
  cases ts with
  | nil => exact .missed _ _
  | cons u rest =>
    simp only [latexBlock]
    split
    · have hname : Yields rest (fun _ => True) (blockName c rest) := by
        refine ((expect_yields _ _).suffix (List.dropWhile_suffix _)).map fun _ _ => trivial
      refine (hname.bind fun name us hu _ => ?_).cons
      have hrest := hu.trans (List.suffix_cons u rest)
      exact rows_yields h (hg.suffix hrest) name (hrest.length_le.trans_lt hn)
    · exact .missed _ _

theorem legacyBlock_yields (t : Token) (name : String) (hn : ts.length < n) :
    Yields ts (IsPhrase c.dialect c.inRows) (legacyBlock read c t name ts) := by
  cases ts with
  | nil => exact .missed _ _
  | cons u rest =>
    simp only [legacyBlock]
    split
    · have hrest := List.suffix_cons u rest
      exact (rows_yields h (hg.suffix hrest) name (hrest.length_le.trans_lt hn)).cons
    · exact .missed _ _

theorem dialectKeyword_yields (t : Token) (hn : ts.length < n) :
    Yields ts (IsPhrase c.dialect c.inRows) (dialectKeyword read c t ts) := by
  have hunknown : Yields ts (IsPhrase c.dialect c.inRows) (unknownKeyword c t ts) := by
    intro hnotes
    simp [unknownKeyword] at hnotes
  unfold dialectKeyword
  split
  · split
    all_goals first
      | exact stackedFraction_yields h hg hn
      | exact latexBlock_yields h hg t hn
      | exact hunknown
  · split
    · exact legacyBlock_yields h hg t _ hn
    · exact hunknown

theorem keywordForm_yields (t : Token) (hn : ts.length < n) :
    Yields ts (IsPhrase c.dialect c.inRows) (keywordForm read c t ts) := by
  unfold keywordForm
  split
  · exact (argument_yields h hg hn).map fun v hv => ⟨.root hv.1 fun _ => hv.2, rfl⟩
  · exact large_yields h hg _ hn
  · exact large_yields h hg _ hn
  · exact large_yields h hg _ hn
  · exact (sizedBracket_yields h hg hn).mono fun v ⟨⟨_, _, _, _, _, hv⟩, hi⟩ => ⟨hv, hi⟩
  · split
    · next decoration hd =>
      refine (argument_yields h hg hn).map fun v hv => ⟨?_, rfl⟩
      exact .decorated ⟨decoration, mem_of_decoration hd, rfl⟩ hv.1 fun _ => hv.2
    · exact dialectKeyword_yields h hg t hn

end Keywords

theorem closing_of_isOpening (h : t.isOpening = true) :
    ∃ closing, Vocabulary.closing? t.text = some closing := by
  simp only [Token.isOpening, Bool.and_eq_true] at h
  exact Option.isSome_iff_exists.1 h.2

theorem IsBase.content (h : IsBase d rows ts v) : IsContent d rows v := by
  obtain h | ⟨rfl, -⟩ := h
  · exact .of_legible h
  · exact .empty

theorem scriptMark_of_isScript (h : t.isScript = true) :
    ∃ side, t = ⟨.symbol, Expr.scriptMark side, t.offset⟩ := by
  obtain ⟨kind, text, offset⟩ := t
  simp only [Token.isScript, Token.isSymbol, Bool.or_eq_true, Bool.and_eq_true,
    decide_eq_true_eq] at h
  obtain ⟨rfl, rfl⟩ | ⟨rfl, rfl⟩ := h
  · exact ⟨.superscript, rfl⟩
  · exact ⟨.subscript, rfl⟩

/-- The level of an operator is that of its node, if it is not that of a fraction. -/
theorem operator_level {level : Level} {operator : String} (h : operator? level t = some operator) :
    operator ∈ infixOperators ∧ Level.ofOperator operator = level ∨
      (operator = "over" ∨ operator = "atop") ∧ level = .product := by
  obtain ⟨-, hmem⟩ | ⟨-, hmem⟩ := operator_inv h
  · have hall : ∀ x ∈ operatorMarks level, x ∈ infixOperators ∧ Level.ofOperator x = level := by
      cases level <;> decide
    exact .inl (hall _ hmem)
  · have hall : ∀ x ∈ operatorWords level, x ∈ infixOperators ∧ Level.ofOperator x = level ∨
        (x = "over" ∨ x = "atop") ∧ level = .product := by
      cases level <;> decide
    exact hall _ hmem

/-- Two operands and their operator are legible together. -/
theorem legible_combine {level : Level} {operator : String} (ho : operator? level t = some operator)
    (hl : Legible d true rows left) (hr : Legible d true rows right) :
    Legible d true rows (combine operator left right) := by
  have hleft := (IsContent.of_legible hl).unwrap
  have hright := (IsContent.of_legible hr).unwrap
  have hoperator := operator_level ho
  unfold combine
  split_ifs with hover hatop
  · exact .fraction (fun he _ => hleft.1 he) (fun he _ => hright.1 he) (fun _ => hleft.2)
      fun _ => hright.2
  · exact .fraction (fun he _ => hleft.1 he) (fun he _ => hright.1 he) (fun _ => hleft.2)
      fun _ => hright.2
  · exact .operation (by tauto) hl hr

theorem operand_tighter {level : Level} (hL : level ≠ .sequence) :
    Meets c ts (.operand level) v ↔ Legible c.dialect true c.inRows v := by
  cases level <;> first | contradiction | rfl

section Strays

/-- A token that is left out makes a note. -/
theorem stray_yields (t : Token) (f : Unit → List Token → Reading α) :
    Yields ts P ((skipStray c t us).bind f) := by
  intro hnotes
  rw [Reading.notes_bind, List.append_eq_nil_iff] at hnotes
  exact absurd hnotes.1 (notes_skipStray t us)

theorem IsTable.closeRow {complete : List (List Expr)} {cells : List Expr}
    (hc : IsTable d complete) (hcells : ∀ cell ∈ cells, IsContent d true cell) :
    IsTable d (closeRow complete cells) := by
  unfold Grammar.closeRow
  split
  · exact hc
  · next hne =>
    intro row hrow
    rw [List.mem_append, List.mem_singleton] at hrow
    obtain hrow | rfl := hrow
    · exact hc row hrow
    · exact ⟨fun hnil => hne (by simp [hnil]), hcells⟩

theorem IsTable.phrase {table : List (List Expr)} (hc : IsTable d table) (name : String) :
    IsPhrase d rows (.block name table) :=
  ⟨.block (fun row hrow => (hc row hrow).1) fun row hrow cell hcell => (hc row hrow).2 cell hcell, rfl⟩

theorem strays_yields (left : Expr) (ts : List Token) :
    Yields ts (fun v => v = left) (strays read c left ts) := by
  cases ts with
  | nil => exact .done rfl _
  | cons t rest =>
    rw [strays]
    split
    · exact .done rfl _
    · exact stray_yields t _

end Strays

section Operands

variable {n : ℕ} (h : Below n) (hg : AllGenuine c.dialect ts)
include h

theorem identifier_yields (ht : Genuine c.dialect t) (hk : t.kind = .identifier)
    (hg : AllGenuine c.dialect ts) (hn : ts.length ≤ n) :
    Yields ts (Legible c.dialect true c.inRows) (identifier read c t ts) := by
  have hname := legible_name ht hk
  have happly {v : Expr} (hv : IsBracket c.dialect c.inRows v) : Legible c.dialect true c.inRows
      (.binary "apply" (.literal (identifierValue c.dialect t.text)) v) := by
    obtain ⟨sized, left, right, x, rfl, hx⟩ := hv
    exact .apply hname hx
  cases ts with
  | nil => exact .done (legible_identifier ht hk) _
  | cons u rest =>
    simp only [identifier]
    split
    · next hopen =>
      obtain ⟨closing, hclosing⟩ := closing_of_isOpening hopen
      refine ((bracket_yields h hg.tail hclosing hn).map fun v hv => happly ?_).cons
      obtain ⟨x, rfl, hx⟩ := hv
      exact ⟨_, _, _, x, rfl, hx⟩
    · split
      · exact ((sizedBracket_yields h hg.tail hn).map fun v hv => happly hv.1).cons
      · exact .done (legible_identifier ht hk) _

/-- An operand that does not start with a script mark. -/
theorem primary_yields (hg : AllGenuine c.dialect ts) (hs : ∀ t ∈ ts.head?, t.isScript = false)
    (hn : ts.length ≤ n) : Yields ts (Legible c.dialect true c.inRows) (primary read c ts) := by
  cases ts with
  | nil => exact .missed _ _
  | cons t rest =>
    have hscript : t.isScript = false := hs t rfl
    have ht : Genuine c.dialect t := hg t (by simp)
    simp only [primary]
    split
    · exact .missed _ _
    · next hstart =>
      rw [Bool.or_eq_true, not_or, Bool.not_eq_true, Bool.not_eq_true] at hstart
      split
      · next hk => exact (identifier_yields h ht hk hg.tail (Nat.le_of_succ_le hn)).cons
      · next hk => exact (Yields.done (legible_number ht hk) rest).cons
      · next hk => exact ((keywordForm_yields h hg.tail t hn).mono fun v hv => hv.1).cons
      · next hi hnum hkey =>
        have hk : t.kind = .symbol := by
          obtain hk | hk | hk | hk := kind_of_genuine ht
          · exact absurd hk hi
          · exact absurd hk hnum
          · exact absurd hk hkey
          · exact hk
        split
        · next hopen =>
          obtain ⟨closing, hclosing⟩ := closing_of_isOpening hopen
          refine ((bracket_yields h hg.tail hclosing hn).mono fun v hv => ?_).cons
          obtain ⟨x, -, hx⟩ := hv
          exact hx
        · next hopen =>
          simp only [hscript, Bool.false_eq_true, if_false]
          split
          · next hsign =>
            refine ((h _ c rest hn hg.tail).map fun v hv => ?_).cons
            refine .signed ?_ hv
            simp only [Token.isSign, Bool.and_eq_true] at hsign
            simpa [Vocabulary.isSign] using hsign.2
          · next hsign =>
            refine (Yields.done (legible_symbol ht hk hstart.1 hstart.2 ?_ hscript ?_) rest).cons
            · simpa using hopen
            · simpa using hsign

theorem scripts_yields (hg : AllGenuine c.dialect ts) {base : Expr}
    (hb : IsBase c.dialect c.inRows ts base) (hn : ts.length ≤ n) :
    Yields ts (Legible c.dialect true c.inRows) (scripts read c base ts) := by
  cases ts with
  | nil =>
    obtain hb | ⟨-, t, ht, -⟩ := hb
    · exact .done hb _
    · simp at ht
  | cons t rest =>
    have hbase := hb.content.unwrap
    have hscript (side : Script) : Yields rest (Legible c.dialect true c.inRows)
        ((read .scriptArgument c rest).bind fun e rest =>
          read (.scripts (.script side base.unwrap e)) c rest) := by
      refine .bind (h _ c rest hn hg.tail) fun e us hu he => ?_
      refine (h.suffix hg.tail hn hu _).mono fun v hv => hv (.inl ?_)
      exact .script hbase.1 he.1 (fun _ => hbase.2) fun _ => he.2
    simp only [scripts]
    split
    · exact (hscript _).cons
    · split
      · exact (hscript _).cons
      · next hup hdown =>
        obtain hb | ⟨-, u, hu, hscript⟩ := hb
        · exact .done hb _
        · obtain rfl : t = u := by simpa using hu
          simp [Token.isScript, hup, hdown] at hscript

theorem factor_yields (hg : AllGenuine c.dialect ts) (hn : ts.length ≤ n) :
    Yields ts (Legible c.dialect true c.inRows) (factor read c ts) := by
  by_cases hs : ∀ t ∈ ts.head?, t.isScript = false
  · refine .bind (primary_yields h hg hs hn) fun v us hu hv => ?_
    exact scripts_yields h (hg.suffix hu) (.inl hv) (hu.length_le.trans hn)
  · obtain ⟨t, ht, hscript⟩ : ∃ t ∈ ts.head?, t.isScript = true := by simpa using hs
    obtain ⟨rest, rfl⟩ : ∃ rest, ts = t :: rest := List.head?_eq_some_iff.1 ht
    have hbase : IsBase c.dialect c.inRows (t :: rest) .empty := .inr ⟨rfl, t, rfl, hscript⟩
    obtain ⟨side, hside⟩ := scriptMark_of_isScript hscript
    have hprimary : primary read c (t :: rest) = .done .empty (t :: rest) := by
      rw [hside]
      exact primary_scriptMark side c _ rest
    rw [factor, hprimary, Reading.bind_done]
    exact scripts_yields h hg hbase hn

theorem chain_yields (hg : AllGenuine c.dialect ts) (level : Level)
    (hl : Legible c.dialect true c.inRows left) (hn : ts.length ≤ n) :
    Yields ts (Legible c.dialect true c.inRows) (chain read c level left ts) := by
  cases ts with
  | nil => exact .done hl _
  | cons t rest =>
    simp only [chain]
    split
    · exact .done hl _
    · next operator ho =>
      refine (Yields.bind (h _ c rest hn hg.tail) fun right us hu hr => ?_).cons
      rw [operand_tighter (next_ne_sequence level)] at hr
      exact (h.suffix hg.tail hn hu _).mono fun v hv => hv (legible_combine ho hl hr)

theorem product_yields (hg : AllGenuine c.dialect ts) (hn : ts.length ≤ n) :
    Yields ts (Legible c.dialect true c.inRows) (product read c ts) :=
  .bind (factor_yields h hg hn) fun _ _ hu hv =>
    chain_yields h (hg.suffix hu) _ hv (hu.length_le.trans hn)

theorem sum_yields (hg : AllGenuine c.dialect ts) (hn : ts.length ≤ n) :
    Yields ts (Legible c.dialect true c.inRows) (sum read c ts) :=
  .bind (product_yields h hg hn) fun _ _ hu hv =>
    chain_yields h (hg.suffix hu) _ hv (hu.length_le.trans hn)

theorem relation_yields (hg : AllGenuine c.dialect ts) (hn : ts.length ≤ n) :
    Yields ts (Legible c.dialect true c.inRows) (relation read c ts) :=
  .bind (sum_yields h hg hn) fun _ _ hu hv =>
    chain_yields h (hg.suffix hu) _ hv (hu.length_le.trans hn)

theorem onward_yields (hg : AllGenuine c.dialect ts) {r : Reading Expr}
    (hr : Yields ts (Legible c.dialect true c.inRows) r) (hn : ts.length ≤ n) :
    Yields ts (Legible c.dialect true c.inRows) (onward read c ts r) := by
  unfold onward
  split
  · next hlt =>
    intro hnotes
    rw [Reading.notes_bind, List.append_eq_nil_iff] at hnotes
    obtain ⟨hs, hv⟩ := hr hnotes.1
    obtain ⟨hs', hchain⟩ := h (.chain .sequence r.value) c r.rest (hlt.trans_le hn) (hg.suffix hs)
      hnotes.2
    exact ⟨hs'.trans hs, hchain hv⟩
  · exact hr

theorem sequence_yields (hg : AllGenuine c.dialect ts) (hn : ts.length ≤ n) :
    Yields ts (IsContent c.dialect c.inRows) (sequence read c ts) := by
  unfold sequence
  split
  · exact .done .empty _
  · exact (onward_yields h hg (relation_yields h hg hn) hn).mono fun _ hv => .of_legible hv

theorem juxtaposed_yields (hg : AllGenuine c.dialect ts)
    (hl : Legible c.dialect true c.inRows left) (hn : ts.length ≤ n) :
    Yields ts (Legible c.dialect true c.inRows) (juxtaposed read c left ts) := by
  unfold juxtaposed
  split
  · exact .done hl _
  · exact onward_yields h hg ((relation_yields h hg hn).map fun _ hv => .concat hl hv) hn

theorem operand_yields (hg : AllGenuine c.dialect ts) (level : Level) (hn : ts.length ≤ n) :
    Yields ts (Meets c ts (.operand level)) (operand read c level ts) := by
  cases level with
  | sequence => exact sequence_yields h hg hn
  | relation => exact relation_yields h hg hn
  | sum => exact sum_yields h hg hn
  | product => exact product_yields h hg hn
  | factor => exact factor_yields h hg hn

theorem latexArgument_yields (hd : c.dialect = .latex) (hg : AllGenuine c.dialect ts)
    (hn : ts.length ≤ n) : Yields ts (IsArgument c.dialect c.inRows) (latexArgument read c ts) := by
  cases ts with
  | nil => exact .missed _ _
  | cons t rest =>
    simp only [latexArgument]
    split
    · refine (Yields.bind (h _ c rest hn hg.tail) fun content us _ hcontent => ?_).cons
      exact (expect_yields _ us).map fun _ _ => IsContent.argument hcontent
    · next hbrace =>
      split
      · exact .missed _ _
      · next hstart =>
        split
        · exact ((keywordForm_yields h hg.tail t hn).mono fun _ hv => hv.argument).cons
        · next hk =>
          refine (Yields.done (isArgument_token hd (hg t (by simp)) ?_ hk ?_) rest).cons
          · simpa using hstart
          · simpa using hbrace

theorem legacyScriptArgument_yields (hd : c.dialect = .legacy) (hg : AllGenuine c.dialect ts)
    (hn : ts.length ≤ n) :
    Yields ts (IsScriptArgument c.dialect c.inRows) (legacyScriptArgument read c ts) := by
  have of_legible {v : Expr} (hv : Legible c.dialect true c.inRows v) (hi : v.isImplicit = false) :
      IsScriptArgument c.dialect c.inRows v := ⟨fun _ _ => hv, hi⟩
  cases ts with
  | nil => exact .missed _ _
  | cons t rest =>
    have ht : Genuine c.dialect t := hg t (by simp)
    simp only [legacyScriptArgument]
    split
    · next hbrace =>
      have htext : t.text = "\x7b" := by
        simp only [Token.isSymbol, Bool.and_eq_true, decide_eq_true_eq] at hbrace
        exact hbrace.2
      have hclosing : Vocabulary.closing? t.text = some "\x7d" := by rw [htext]; rfl
      refine ((bracket_yields h hg.tail hclosing hn).map fun v hv => ?_).cons
      obtain ⟨x, -, hx⟩ := hv
      exact (IsContent.of_legible hx).scriptArgument
    · next hbrace =>
      split
      · exact .missed _ _
      · next hstart =>
        have hstart' : startsOperand c t = true := by simpa using hstart
        split
        · next hk =>
          have hl : Legible c.dialect true c.inRows _ := legible_identifier ht hk
          rw [hd] at hl
          exact (Yields.done (of_legible (hd ▸ hl) rfl) rest).cons
        · next hk => exact (Yields.done (of_legible (legible_number ht hk) rfl) rest).cons
        · next hk =>
          exact ((keywordForm_yields h hg.tail t hn).mono fun v hv => of_legible hv.1 hv.2).cons
        · next hi hnum hkey =>
          have hk : t.kind = .symbol := by
            obtain hk | hk | hk | hk := kind_of_genuine ht
            · exact absurd hk hi
            · exact absurd hk hnum
            · exact absurd hk hkey
            · exact hk
          split
          · next hopen =>
            obtain ⟨closing, hclosing⟩ := closing_of_isOpening hopen
            refine ((bracket_yields h hg.tail hclosing hn).mono fun v hv => ?_).cons
            obtain ⟨x, rfl, hx⟩ := hv
            refine of_legible hx ?_
            have htext : t.text ≠ "\x7b" ∧ t.text ≠ "" := by
              refine ⟨by simpa [Token.isSymbol, hk] using hbrace, fun htext => ?_⟩
              simp [htext, Vocabulary.closing?] at hclosing
            simpa [isImplicit] using htext
          · next hopen =>
            split
            · exact .done ⟨fun he => absurd rfl he, rfl⟩ _
            · next hscript =>
              refine (Yields.done (isScriptArgument_symbol hd ht hstart' hk ?_ ?_) rest).cons
              · simpa using hopen
              · simpa using hscript

theorem scriptArgument_yields (hg : AllGenuine c.dialect ts) (hn : ts.length ≤ n) :
    Yields ts (IsScriptArgument c.dialect c.inRows) (scriptArgument read c ts) := by
  unfold scriptArgument
  split
  · next hd =>
    refine (latexArgument_yields h hd hg hn).mono fun v hv => ?_
    rw [hd] at hv ⊢
    exact hv.scriptArgument
  · next hd => exact legacyScriptArgument_yields h hd hg hn

theorem argument_factor_yields (hg : AllGenuine c.dialect ts) (hn : ts.length ≤ n) :
    Yields ts (IsArgument c.dialect c.inRows) (argument read c ts) := by
  unfold argument
  split
  · next hd => exact latexArgument_yields h hd hg hn
  · exact (factor_yields h hg hn).map fun v hv => (IsContent.of_legible hv).argument

theorem table_yields (hg : AllGenuine c.dialect ts) (name : String) {complete : List (List Expr)}
    {cells : List Expr} (filled : Bool) (hc : IsTable c.dialect complete)
    (hcells : ∀ cell ∈ cells, IsContent c.dialect true cell) (hn : ts.length ≤ n) :
    Yields ts (IsPhrase c.dialect c.inRows) (Grammar.rows read c name complete cells filled ts) := by
  have hend (us : List Token) : Yields us (IsPhrase c.dialect c.inRows)
      ((blockEnd c name us).map fun _ => .block name (closeRow complete cells)) :=
    fun _ => ⟨(blockEnd_settled name us).2, (hc.closeRow hcells).phrase name⟩
  cases ts with
  | nil => exact hend []
  | cons t rest =>
    have hcell : Yields (t :: rest) (IsContent c.dialect true)
        (sequence read c.withinRows (t :: rest)) := sequence_yields h (c := c.withinRows) hg hn
    simp only [Grammar.rows]
    split
    · exact hend _
    · split
      · refine ((h _ c rest hn hg.tail).mono fun v hv => ?_).cons
        exact hv (hc.closeRow hcells) (by simp)
      · split
        · refine ((h (.rows name complete _ false) c rest hn hg.tail).mono fun v hv =>
            hv hc fun cell hcell => ?_).cons
          split at hcell
          · exact hcells cell hcell
          · rw [List.mem_append, List.mem_singleton] at hcell
            obtain hcell | rfl := hcell
            · exact hcells cell hcell
            · exact .empty
        · split
          · exact stray_yields t _
          · split
            · next hlt =>
              intro hnotes
              rw [Reading.notes_bind, List.append_eq_nil_iff] at hnotes
              obtain ⟨hs, hv⟩ := hcell hnotes.1
              obtain ⟨hs', hrows⟩ := h (.rows name complete (cells ++ [_]) true) c _
                (hlt.trans_le hn) (hg.suffix hs) hnotes.2
              refine ⟨hs'.trans hs, hrows hc fun cell hmem => ?_⟩
              rw [List.mem_append, List.mem_singleton] at hmem
              obtain hmem | rfl := hmem
              · exact hcells cell hmem
              · exact hv
            · intro hnotes
              rw [Reading.notes_bind, Reading.notes_bind, List.append_eq_nil_iff,
                List.append_eq_nil_iff] at hnotes
              exact absurd hnotes.1.2 (notes_skipStray t rest)

theorem step_yields (hg : AllGenuine c.dialect ts) (phrase : Phrase) (hn : ts.length ≤ n) :
    Yields ts (Meets c ts phrase) (step read phrase c ts) := by
  have hs := read_suffix phrase c ts
  rw [read_eq] at hs
  cases phrase with
  | operand level => exact operand_yields h hg level hn
  | chain level left =>
    refine fun hnotes => ⟨hs, fun hl => ?_⟩
    cases level with
    | sequence => exact (juxtaposed_yields h hg hl hn hnotes).2
    | _ => exact (chain_yields h hg _ hl hn hnotes).2
  | scripts base => exact fun hnotes => ⟨hs, fun hb => (scripts_yields h hg hb hn hnotes).2⟩
  | scriptArgument => exact scriptArgument_yields h hg hn
  | argument => exact argument_factor_yields h hg hn
  | rows name complete cells filled =>
    exact fun hnotes => ⟨hs, fun hc hcells => (table_yields h hg name filled hc hcells hn hnotes).2⟩
  | strays left => exact strays_yields left ts

end Operands

/-- Genuine tokens are read as they should be, however many they are. -/
theorem below (n : ℕ) : Below n :=
  read_below (fun phrase c us a => AllGenuine c.dialect us → Yields us (Meets c us phrase) a)
    (fun _ ih phrase _ _ hn hg => step_yields ih hg phrase hn) n

theorem read_yields (phrase : Phrase) (hg : AllGenuine c.dialect ts) :
    Yields ts (Meets c ts phrase) (read phrase c ts) :=
  below (ts.length + 1) phrase c ts (by omega) hg

/-- What a text is parsed into without a note is legible, or nothing. -/
theorem legible_of_parseText {s : String} (hq : d = .legacy → QuotesWords s)
    (h : (parseText d s).notes = []) : IsContent d false (parseText d s).expr := by
  have hg : AllGenuine (textContext d s).dialect (tokens d 0 s) :=
    fun t ht => genuine_of_mem_tokens hq ht
  rw [parseText_eq] at h ⊢
  have hsequence : Yields (tokens d 0 s) (IsContent d false)
      (operand read (textContext d s) .sequence (tokens d 0 s)) := by
    rw [← read_operand]
    exact read_yields (.operand .sequence) hg
  have hwhole := hsequence.bind (Q := IsContent d false)
    (f := fun e rest => read (.strays e) (textContext d s) rest) fun e us hu he => by
      have hstrays := read_yields (c := textContext d s) (.strays e) (hg.suffix hu)
      refine hstrays.mono fun v hv => ?_
      obtain rfl : v = e := hv
      exact he
  exact (hwhole h).2

end MathMarkup.Grammar
