import MathMarkup.Proofs.Grammar.Resume

/-! A phrase that starts takes a token. In front of a token that is no boundary an operand of a product
takes at least that one, so no sequence and no row ever has to give up. At the end of the text nothing
is taken. -/
namespace MathMarkup.Grammar

variable {c : Context} {t : Token} {ts us : List Token} {e : Expr} {level : Level}

section Starts

/-- What `read` leaves, whatever the phrase, is an end of what it was given. -/
theorem bind_read_suffix {α : Type} {r : Reading α} {next : α → Phrase} (h : r.rest <:+ ts) :
    (r.bind fun a rest => read (next a) c rest).rest <:+ ts :=
  (read_suffix ..).trans h

/-- An operand that starts with the token takes it. -/
theorem primary_starts (hb : c.isBoundary t = false) (hp : isProductOperator t = false)
    (hs : t.isScript = false) : (primary read c (t :: ts)).rest <:+ ts := by
  have hagree : Agree (ts.length + 1) read read := read_settled _
  simp only [primary, hb, hp, hs, Bool.or_self, Bool.false_eq_true, if_false]
  split
  · exact (identifier_settled hagree t (Nat.le_succ _)).2
  · exact List.suffix_refl ts
  · exact (keywordForm_settled hagree t (Nat.lt_succ_self _)).2
  · split
    · exact (bracket_settled hagree _ (Nat.lt_succ_self _)).2
    · split
      · exact read_suffix ..
      · exact List.suffix_refl ts

theorem scripts_suffix (e : Expr) (ts : List Token) : (scripts read c e ts).rest <:+ ts :=
  (scripts_settled (read_settled ts.length) e le_rfl).2

theorem chain_suffix (level : Level) (e : Expr) (ts : List Token) :
    (chain read c level e ts).rest <:+ ts :=
  (chain_settled (read_settled ts.length) level e le_rfl).2

/-- A script mark is taken with what stands after it. -/
theorem scripts_starts (hs : t.isScript = true) (e : Expr) :
    (scripts read c e (t :: ts)).rest <:+ ts := by
  simp only [Token.isScript, Bool.or_eq_true] at hs
  simp only [scripts]
  split
  · exact bind_read_suffix (read_suffix ..)
  · split
    · exact bind_read_suffix (read_suffix ..)
    · next hup hdown => exact absurd hs (by simp [hup, hdown])

/-- An operator is taken with the operand after it. -/
theorem chain_starts {operator : String} (h : operator? level t = some operator) (e : Expr) :
    (chain read c level e (t :: ts)).rest <:+ ts := by
  simp only [chain, h]
  exact bind_read_suffix (read_suffix ..)

theorem isScript_symbol (hs : t.isScript = true) :
    t.kind = .symbol ∧ t.isOpening = false ∧ isProductOperator t = false := by
  obtain ⟨kind, text, offset⟩ := t
  simp only [Token.isScript, Token.isSymbol, Bool.or_eq_true, Bool.and_eq_true,
    decide_eq_true_eq] at hs
  obtain ⟨rfl, rfl⟩ | ⟨rfl, rfl⟩ := hs <;> exact ⟨rfl, rfl, rfl⟩

/-- In front of a script mark stands nothing. -/
theorem primary_of_isScript (hs : t.isScript = true) (hb : c.isBoundary t = false)
    (ts : List Token) : primary read c (t :: ts) = .done .empty (t :: ts) := by
  obtain ⟨hk, hopen, hp⟩ := isScript_symbol hs
  simp [primary, hb, hp, hk, hopen, hs]

/-- In front of an operator of a product a factor is missing. -/
theorem factor_of_isProductOperator (hp : isProductOperator t = true) (ts : List Token) :
    factor read c (t :: ts) = miss c .operand .empty (t :: ts) := by
  have hs : t.isScript = false := by
    by_contra hs
    simp [(isScript_symbol (by simpa using hs)).2.2] at hp
  simp only [Token.isScript, Bool.or_eq_false_iff] at hs
  simp [factor, primary, hp, Reading.bind, miss, scripts, hs, Reading.done]

theorem factor_starts (hb : c.isBoundary t = false) (hp : isProductOperator t = false) :
    (factor read c (t :: ts)).rest <:+ ts := by
  by_cases hs : t.isScript = true
  · rw [factor, primary_of_isScript hs hb, Reading.bind_done]
    exact scripts_starts hs .empty
  · exact (scripts_suffix _ _).trans (primary_starts hb hp (by simpa using hs))

theorem product_starts (hb : c.isBoundary t = false) :
    (product read c (t :: ts)).rest <:+ ts := by
  by_cases hp : isProductOperator t = true
  · obtain ⟨operator, ho⟩ := Option.isSome_iff_exists.1 hp
    rw [product, factor_of_isProductOperator hp]
    exact chain_starts ho .empty
  · exact (chain_suffix _ _ _).trans (factor_starts hb (by simpa using hp))

/-- A relation in front of a token that is no boundary takes the token. -/
theorem relation_starts (hb : c.isBoundary t = false) :
    (relation read c (t :: ts)).rest <:+ ts :=
  ((chain_suffix _ _ _).trans (chain_suffix _ _ _)).trans (product_starts hb)

theorem relation_progress (hb : c.isBoundary t = false) (ts : List Token) :
    (relation read c (t :: ts)).rest.length < (t :: ts).length :=
  Nat.lt_succ_of_le (relation_starts hb).length_le

end Starts

section Sequences

/-- A sequence that does not stop at once starts with a relation, and goes on. -/
theorem sequence_starts (hb : c.isBoundary t = false) (ts : List Token) :
    sequence read c (t :: ts) =
      (relation read c (t :: ts)).bind fun e rest => read (.chain .sequence e) c rest := by
  simp only [sequence, atBoundary, hb, Bool.false_eq_true, if_false, onward,
    if_pos (relation_progress hb ts)]

theorem juxtaposed_starts (hb : c.isBoundary t = false) (left : Expr) (ts : List Token) :
    juxtaposed read c left (t :: ts) =
      ((relation read c (t :: ts)).map (.binary "concat" left)).bind fun e rest =>
        read (.chain .sequence e) c rest := by
  have hprogress := relation_progress hb ts
  rw [← Reading.rest_map (Expr.binary "concat" left)] at hprogress
  simp only [juxtaposed, atBoundary, hb, Bool.false_eq_true, if_false, onward, if_pos hprogress]

/-- A sequence in front of a token that is no boundary takes the token. -/
theorem sequence_takes (hb : c.isBoundary t = false) (ts : List Token) :
    (sequence read c (t :: ts)).rest <:+ ts := by
  rw [sequence_starts hb]
  exact bind_read_suffix (relation_starts hb)

theorem sequence_progress (hb : c.isBoundary t = false) (ts : List Token) :
    (sequence read c (t :: ts)).rest.length < (t :: ts).length :=
  Nat.lt_succ_of_le (sequence_takes hb ts).length_le

/-- What stands side by side is read up to a boundary. -/
theorem juxtaposed_ends (left : Expr) (c : Context) (ts : List Token) :
    atBoundary c (juxtaposed read c left ts).rest = true := by
  induction hn : ts.length using Nat.strong_induction_on generalizing left ts with
  | _ n ih =>
    subst hn
    cases ts with
    | nil => rfl
    | cons t ts =>
      cases hb : c.isBoundary t with
      | true => simp [juxtaposed, atBoundary, hb, Reading.done]
      | false =>
        rw [juxtaposed_starts hb, Reading.rest_bind, read_sequence_chain]
        exact ih _ (relation_progress hb ts) _ _ rfl

theorem sequence_ends (c : Context) (ts : List Token) :
    atBoundary c (sequence read c ts).rest = true := by
  cases ts with
  | nil => rfl
  | cons t ts =>
    cases hb : c.isBoundary t with
    | true => simp [sequence, atBoundary, hb, Reading.done]
    | false =>
      rw [sequence_starts hb, Reading.rest_bind, read_sequence_chain]
      exact juxtaposed_ends _ c _

end Sequences

section Rows

/-- Where no row and no cell ends, what is a boundary within rows is one outside of them. -/
theorem isBoundary_withinRows_iff (hrow : endsRow c.dialect t = false)
    (hcell : t.isSymbol "&" = false) : c.withinRows.isBoundary t = c.isBoundary t := by
  simp [Context.isBoundary, Context.withinRows, hrow, hcell]

/-- A cell takes a token, so rows go on after it. -/
theorem rows_of_cell {name : String} {complete : List (List Expr)} {cells : List Expr}
    {filled : Bool} (hend : ¬(t.kind = .stop ∨ endsRows c.dialect name (t :: ts) = true))
    (hrow : endsRow c.dialect t = false) (hcell : t.isSymbol "&" = false)
    (hb : c.isBoundary t = false) :
    rows read c name complete cells filled (t :: ts) =
      (sequence read c.withinRows (t :: ts)).bind fun e rest =>
        read (.rows name complete (cells ++ [e]) true) c rest := by
  have hprogress := sequence_progress ((isBoundary_withinRows_iff hrow hcell).trans hb) ts
  simp only [rows, if_neg hend, hrow, hcell, hb, Bool.false_eq_true, if_false, if_pos hprogress]

end Rows

section Ends

/-- Scripts are read up to a token that is no script mark. -/
theorem scripts_ends (e : Expr) (ts : List Token) :
    ∀ t ∈ (scripts read c e ts).rest.head?, t.isScript = false := by
  induction hn : ts.length using Nat.strong_induction_on generalizing e ts with
  | _ n ih =>
    subst hn
    cases ts with
    | nil => exact fun t ht => nomatch ht
    | cons t ts =>
      have hscript (side : Script) : ∀ u ∈ ((read .scriptArgument c ts).bind fun a rest =>
          read (.scripts (.script side e.unwrap a)) c rest).rest.head?, u.isScript = false := by
        rw [Reading.rest_bind, read_scripts]
        exact ih _ (Nat.lt_succ_of_le (read_suffix ..).length_le) _ _ rfl
      simp only [scripts]
      split
      · exact hscript .superscript
      · split
        · exact hscript .subscript
        · next hup hdown =>
          rintro u ⟨⟩
          simp [Token.isScript, hup, hdown]

theorem EndsOperand.of_next (h : EndsOperand level.next t) (ho : operator? level t = none) :
    EndsOperand level t := by
  refine ⟨h.1, fun M hM => ?_⟩
  by_cases hlevel : level = M
  · exact hlevel ▸ ho
  · refine h.2 M ?_
    cases level <;> cases M <;> first | contradiction | exact absurd hM (by decide) | decide

/-- A chain is read up to a token that none of its operands goes on with. -/
theorem chain_ends (hnext : ∀ us, ∀ t ∈ (operand read c level.next us).rest.head?, EndsOperand level.next t)
    (hL : level ≠ .sequence) (e : Expr) (ts : List Token)
    (hts : ∀ t ∈ ts.head?, EndsOperand level.next t) :
    ∀ t ∈ (chain read c level e ts).rest.head?, EndsOperand level t := by
  induction hn : ts.length using Nat.strong_induction_on generalizing e ts with
  | _ n ih =>
    subst hn
    cases ts with
    | nil => exact fun t ht => nomatch ht
    | cons t ts =>
      simp only [chain]
      split
      · next ho =>
        rintro u ⟨⟩
        exact (hts t rfl).of_next ho
      · simp only [Reading.rest_bind, read_operand, read_chain hL]
        refine ih _ ?_ _ _ (hnext ts) rfl
        exact Nat.lt_succ_of_le (operand_settled (read_settled ts.length) _ le_rfl).2.length_le

/-- An operand is read up to a token that it does not go on with. -/
theorem operand_ends (hL : level ≠ .sequence) (ts : List Token) :
    ∀ t ∈ (operand read c level ts).rest.head?, EndsOperand level t := by
  have hle : level ≤ .factor := by cases level <;> decide
  refine level_descent (fun N => N ≠ .sequence → ∀ ts, ∀ t ∈ (operand read c N ts).rest.head?,
    EndsOperand N t) hle (fun _ us t ht => ?_) (fun N hN h hN' us => ?_) hL ts
  · refine ⟨scripts_ends _ _ t ht, fun M hM => ?_⟩
    cases M <;> first | exact absurd hM (by decide) | rfl
  · have hnext := h (next_ne_sequence N)
    rw [operand_succ hN hN', Reading.rest_bind, read_chain hN']
    exact chain_ends hnext hN' _ _ (hnext us)

end Ends

section Over

variable {d : Dialect} {name : String}

/-- No token is left in front of the end of the text. -/
def IsOver (ts : List Token) : Prop := ∀ t ∈ ts.head?, t.kind = .stop

theorem IsOver.nil : IsOver [] := by simp [IsOver]

theorem IsOver.head (h : IsOver (t :: ts)) : t.kind = .stop := h t rfl

/-- At the end of the text no symbol and no keyword comes next. -/
theorem isSymbol_of_stop (h : t.kind = .stop) (text : String) : t.isSymbol text = false := by
  simp [Token.isSymbol, h]

theorem word?_of_stop (h : t.kind = .stop) : t.word? = none := by
  simp [Token.word?, h]

theorem isBoundary_of_stop (h : t.kind = .stop) : c.isBoundary t = true := by
  simp [Context.isBoundary, h]

theorem startsOperand_of_stop (h : t.kind = .stop) : startsOperand c t = false := by
  simp [startsOperand, isBoundary_of_stop h]

theorem inBlockName_of_stop (h : t.kind = .stop) : inBlockName t = false := by
  simp [inBlockName, h]

variable (h : IsOver ts)
include h

theorem atBoundary_of_over : atBoundary c ts = true := by
  cases ts with
  | nil => rfl
  | cons t ts => exact isBoundary_of_stop h.head

theorem isDoubleBar_of_over : isDoubleBar d ts = false := by
  match ts with
  | [] | [t] => rfl
  | t :: u :: ts => simp [isDoubleBar, isSymbol_of_stop h.head]

/-- In front of the end of the text stands no double bar. -/
theorem isDoubleBar_before_over : isDoubleBar d (t :: ts) = false := by
  cases ts with
  | nil => rfl
  | cons u ts => simp [isDoubleBar, isSymbol_of_stop h.head]

theorem expect_of_over (text : String) : expect c text ts = miss c (.symbol text) false ts := by
  cases ts with
  | nil => rfl
  | cons t ts => simp [expect, isSymbol_of_stop h.head]

theorem dropWhile_of_over :
    ts.dropWhile inBlockName = ts ∧ ts.takeWhile inBlockName = [] := by
  cases ts with
  | nil => exact ⟨rfl, rfl⟩
  | cons t ts => simp [inBlockName_of_stop h.head]

theorem endName_of_over : endName c ts = .done () ts := by
  cases ts with
  | nil => rfl
  | cons t ts => simp [endName, isSymbol_of_stop h.head]

theorem startsEnd_of_over : startsEnd name ts = false := by
  match ts with
  | [] | [t] => rfl
  | t :: u :: ts => simp [startsEnd, word?_of_stop h.head]

theorem sizedDelimiter_of_over (side : Vocabulary.Side) :
    sizedDelimiter c side ts = miss c .delimiter "" ts := by
  cases ts with
  | nil => simp [sizedDelimiter, isDoubleBar]
  | cons t ts => simp [sizedDelimiter, isDoubleBar_of_over h, delimiter?, h.head]

theorem sizedClosing_of_over : sizedClosing c ts = miss c .rightDelimiter "" ts := by
  cases ts with
  | nil => rfl
  | cons t ts => simp [sizedClosing, word?_of_stop h.head]

variable (read : Reader)

theorem bound_of_over (mark : String) : bound read c mark ts = .done none ts := by
  cases ts with
  | nil => rfl
  | cons t ts => simp [bound, isSymbol_of_stop h.head]

theorem body_of_over : body read c ts = .done none ts := by
  cases ts with
  | nil => rfl
  | cons t ts => simp [body, startsOperand_of_stop h.head]

theorem latexBlock_of_over : latexBlock read c t ts =
    miss c (.groupAfter "\\begin") (.literal ("\\" ++ t.text)) ts := by
  cases ts with
  | nil => rfl
  | cons u ts => simp [latexBlock, isSymbol_of_stop h.head]

theorem legacyBlock_of_over (name : String) :
    legacyBlock read c t name ts = miss c (.groupAfter t.text) (literalOf t) ts := by
  cases ts with
  | nil => rfl
  | cons u ts => simp [legacyBlock, isSymbol_of_stop h.head]

theorem identifier_of_over :
    identifier read c t ts = .done (.literal (identifierValue c.dialect t.text)) ts := by
  cases ts with
  | nil => rfl
  | cons u ts => simp [identifier, Token.isOpening, h.head, word?_of_stop h.head]

theorem primary_of_over : primary read c ts = miss c .operand .empty ts := by
  cases ts with
  | nil => rfl
  | cons t ts => simp [primary, isBoundary_of_stop h.head]

theorem scripts_of_over (e : Expr) : scripts read c e ts = .done e ts := by
  cases ts with
  | nil => rfl
  | cons t ts => simp [scripts, isSymbol_of_stop h.head]

theorem chain_of_over (level : Level) (e : Expr) : chain read c level e ts = .done e ts := by
  cases ts with
  | nil => rfl
  | cons t ts => simp [chain, (EndsOperand.of_stop h.head level).2 level (Nat.le_refl _)]

theorem sequence_of_over : sequence read c ts = .done .empty ts := by
  simp [sequence, atBoundary_of_over h]

theorem juxtaposed_of_over (e : Expr) : juxtaposed read c e ts = .done e ts := by
  simp [juxtaposed, atBoundary_of_over h]

theorem latexArgument_of_over : latexArgument read c ts = miss c .argument .empty ts := by
  cases ts with
  | nil => rfl
  | cons t ts => simp [latexArgument, isSymbol_of_stop h.head, startsOperand_of_stop h.head]

theorem legacyScriptArgument_of_over :
    legacyScriptArgument read c ts = miss c .argument .empty ts := by
  cases ts with
  | nil => rfl
  | cons t ts => simp [legacyScriptArgument, isSymbol_of_stop h.head, startsOperand_of_stop h.head]

theorem rows_of_over (complete : List (List Expr)) (cells : List Expr) (filled : Bool) :
    rows read c name complete cells filled ts =
      (blockEnd c name ts).map fun _ => .block name (closeRow complete cells) := by
  cases ts with
  | nil => rfl
  | cons t ts => simp [rows, h.head]

theorem strays_of_over (left : Expr) : strays read c left ts = .done left ts := by
  cases ts with
  | nil => rfl
  | cons t ts => simp [strays, h.head]

end Over

end MathMarkup.Grammar
