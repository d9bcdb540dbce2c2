import MathMarkup.Proofs.Rereading.Block
import MathMarkup.Proofs.Rereading.Sized
import MathMarkup.Proofs.Rereading.Written

/-! Expressions that are read back from their written forms: for each kind of node, if its parts
are. -/
namespace MathMarkup.Grammar

open Scan
open Reading (Alike)

variable {d : Dialect} {parsed rows : Bool} {e left right : Expr} {operator value : String}
  {L : Level} {c : Context} {p : ℤ} {t : Token}

/-- What may come after the written form of an expression without becoming part of it. -/
structure Follows (d : Dialect) (e : Expr) (c : Context) (p : ℤ) (t : Token) : Prop where
  alone : e.standsAlone d = false → t.isScript = false
  clear : ∀ M, ¬M ≤ e.level d → operator? M t = none
  word : e.ending d = .word → t.isOpening = false ∧ t.word? ≠ some "left"
  bodiless : e.ending d = .bodiless → startsOperand c t = false
  unbarred : Unbarred c p t

/-- Only groups in braces have a brace on their left. -/
def IsClosed (v : Expr) : Prop := ∀ left right content,
  v = .bracket false left right content → left = "\x7b" ∨ left = "" → left = "\x7b" ∧ right = "\x7d"

/-- What the grammar has special rules for: a literal, and what stands between delimiters. -/
def Enclosed (d : Dialect) (parsed rows : Bool) (e : Expr) : Prop :=
  match e with
  | .literal value => Expr.IsOperandValue d rows value
  | .bracket sized left _ _ =>
    Primary d parsed rows (e.render d) (e.regrouped d) Unbarred ∧
      ∀ o, ∃ t ts, tokens d o (e.render d) = t :: ts ∧
        (sized = false ∧ t.isOpening = true ∧ t.text = left ∨ t.word? = some "left")
  | .block .. =>
    Primary d parsed rows (e.render d) (e.regrouped d) Unbarred ∧
      ∀ o, ∃ t ts, tokens d o (e.render d) = t :: ts ∧ t.kind = .keyword
  | _ => True

/-- The expression is read back from its written form, with its groups. -/
structure Reread (d : Dialect) (parsed rows : Bool) (e : Expr) : Prop where
  slot : Slot d parsed rows (e.level d) (e.render d) (e.regrouped d) (Follows d e)
  closed : IsClosed (e.regrouped d)
  enclosed : Enclosed d parsed rows e
  isEmpty : e.isEmpty = false

section Slots

theorem Follows.of_isBoundary (h : c.isBoundary t = true) (e : Expr) (p : ℤ) :
    Follows d e c p t := by
  have hends := EndsOperand.of_isBoundary h .sequence
  have hstarts : startsOperand c t = false := by simp [startsOperand, h]
  refine ⟨fun _ => hends.1, fun M _ => hends.2 M (by cases M <;> decide), fun _ => ⟨?_, ?_⟩,
    fun _ => hstarts, (facts_of_startsOperand hstarts p).1⟩
  · by_contra hopen
    simp [starts_of_isOpening (c := c) (by simpa using hopen)] at h
  · intro hleft
    simp [facts_of_left (c := c) hleft] at h

theorem Reread.content (h : Reread d parsed rows e) :
    Content d parsed rows (e.render d) (e.regrouped d) :=
  h.slot.content fun _ _ _ hb => .of_isBoundary hb e _

theorem level_le_factor (L : Level) : L ≤ .factor := by
  cases L <;> decide

/-- Where an operand of a level is wanted, the expression stands as it is or in a group. -/
theorem Reread.operand (h : Reread d parsed rows e) (L : Level) :
    Slot d parsed rows L (Expr.operand d L e (e.render d))
      (Expr.regroupedOperand d L e (e.regrouped d)) fun c p t =>
        L ≤ e.level d → Follows d e c p t := by
  rw [Expr.operand, if_neg (by simp [h.isEmpty]), Expr.regroupedOperand]
  split
  · next hL => exact (h.slot.lower hL).mono fun _ _ _ hn => hn hL
  · exact (h.content.primary_braced.slot.lower (level_le_factor L)).mono fun _ _ _ _ => trivial

theorem unwrap_grouped {v : Expr} (h : IsClosed v) : v.grouped.unwrap = v.unwrap := by
  by_cases hv : ∃ content, v = .bracket false "\x7b" "\x7d" content
  · obtain ⟨content, rfl⟩ := hv
    rfl
  · have hflat : v.grouped = .bracket false "\x7b" "\x7d" v := by
      cases v with
      | bracket sized left right content =>
        simp only [Expr.grouped, Expr.flatten]
        rw [if_neg]
        rintro ⟨-, heq⟩
        simp only [Prod.mk.injEq] at heq
        obtain ⟨rfl, rfl, rfl⟩ := heq
        exact hv ⟨content, rfl⟩
      | _ => rfl
    have hself : v.unwrap = v := by
      cases v with
      | bracket sized left right content =>
        have himplicit : (Expr.bracket sized left right content).isImplicit = false := by
          by_contra himp
          simp only [Expr.isImplicit, Bool.not_eq_false, Bool.and_eq_true, Bool.not_eq_true',
            Bool.or_eq_true, decide_eq_true_eq] at himp
          obtain ⟨rfl, hleft⟩ := himp
          obtain ⟨rfl, rfl⟩ := h left right content rfl hleft
          exact hv ⟨content, rfl⟩
        simp [Expr.unwrap, himplicit]
      | _ => rfl
    rw [hflat, hself]
    rfl

theorem unwrap_regroupedOperand (h : Reread d parsed rows e) (L : Level) :
    (Expr.regroupedOperand d L e (e.regrouped d)).unwrap = (e.regrouped d).unwrap := by
  rw [Expr.regroupedOperand]
  split
  · rfl
  · exact unwrap_grouped h.closed

/-- What may follow an expression may follow its right part. -/
theorem Follows.part (h : Follows d e c p t) (hscript : t.isScript = false)
    (hclear : ∀ M, ¬M ≤ right.level d → operator? M t = none)
    (hend : e.ending d = right.ending d) : Follows d right c p t :=
  ⟨fun _ => hscript, hclear, fun hw => h.word (hend.trans hw), fun hb => h.bodiless (hend.trans hb),
    h.unbarred⟩

/-- What may follow an expression may follow the factor at its end. -/
theorem Follows.factor (h : Follows d e c p t) (hscript : t.isScript = false)
    (hle : .factor ≤ right.level d) (hend : e.ending d = right.ending d) : Follows d right c p t :=
  h.part hscript (fun M hM => absurd (le_trans (α := ℕ) (level_le_factor M) hle) hM) hend

end Slots

section Literals

theorem not_name_or_number (h : ¬Expr.IsWord value ∧ value.toList.head? ≠ some '\\' ∧
    ∃ c ∈ value.toList, c.isDigit = false) : ¬(Expr.IsName d value ∨ Expr.IsNumber value) := by
  obtain ⟨hword, hhead, c, hc, hdigit⟩ := h
  rintro ((h | h) | h)
  · exact hword h
  · cases d with
    | latex =>
      obtain ⟨word, -, -, rfl⟩ := h
      exact hhead (by simp)
    | legacy => exact hhead h.1
  · simp [h.2 c hc] at hdigit

theorem loneMark_chars (hx : value ∈ Expr.loneMarks .latex) : ¬Expr.IsWord value ∧
    value.toList.head? ≠ some '\\' ∧ ∃ c ∈ value.toList, c.isDigit = false := by
  have hall : ∀ x ∈ Expr.loneMarks .latex, ¬Expr.IsWord x ∧ x.toList.head? ≠ some '\\' ∧
      ∃ c ∈ x.toList, c.isDigit = false := by
    decide
  exact hall value hx

theorem mem_loneMarks_latex (hx : value ∈ Expr.loneMarks d) : value ∈ Expr.loneMarks .latex := by
  have hall : ∀ d, ∀ x ∈ Expr.loneMarks d, x ∈ Expr.loneMarks .latex := by
    intro d
    cases d <;> decide
  exact hall d value hx

/-- No operand is a mark that would only stand as an argument by itself, in either dialect. -/
theorem IsOperandValue.not_mem_loneMarks (h : Expr.IsOperandValue d rows value) (d' : Dialect) :
    value ∉ Expr.loneMarks d' := by
  intro hx
  have hlatex := mem_loneMarks_latex hx
  have hnot := not_name_or_number (d := d) (loneMark_chars hlatex)
  cases h with
  | name h => exact hnot (.inl h)
  | number h => exact hnot (.inr h)
  | mark h =>
    have hall : ∀ d rows, ∀ x ∈ Expr.loneMarks .latex, x ∉ Expr.operandMarks d rows := by
      intro d
      cases d <;> decide
    exact hall d rows value hlatex h

theorem rereadLiteral_of_operand (h : Expr.IsOperandValue d rows value) (d' : Dialect) :
    Expr.rereadLiteral d' value = .literal value := by
  have hnot := IsOperandValue.not_mem_loneMarks h .latex
  simp only [Expr.loneMarks, List.mem_cons, not_or] at hnot
  simp [Expr.rereadLiteral, hnot]

theorem IsOperandValue.ne_empty (h : Expr.IsOperandValue d rows value) : value ≠ "" := by
  rintro rfl
  cases h with
  | name h =>
    obtain h | h := h
    · exact h.1 rfl
    · cases d with
      | latex =>
        obtain ⟨word, -, -, hword⟩ := h
        simp at hword
      | legacy => simp at h
  | number h => exact h.1 rfl
  | mark h =>
    revert h
    cases d <;> cases rows <;> decide

theorem mem_punctuation (h : Vocabulary.isPunctuation value = true) :
    value ∈ [",", ".", ";", ":", "!", "'"] := by
  simpa [Vocabulary.isPunctuation] using h

theorem isOperandValue_of_isPunctuation (h : Vocabulary.isPunctuation value = true) :
    Expr.IsOperandValue d rows value := by
  have hall : ∀ d rows, ∀ x ∈ [",", ".", ";", ":", "!", "'"], x ∈ Expr.operandMarks d rows := by
    intro d
    cases d <;> decide
  exact .mark (hall d rows value (mem_punctuation h))

theorem reread_literal (h : Expr.IsOperandValue d rows value) :
    Reread d parsed rows (.literal value) := by
  have hv : (Expr.literal value).regrouped d = .literal value := rereadLiteral_of_operand h d
  have hprimary : Primary d parsed rows _ _ _ := primary_literal h
  refine ⟨?_, ?_, h, by simp [Expr.isEmpty, IsOperandValue.ne_empty h]⟩
  · rw [hv]
    exact hprimary.slot.mono fun c p t hn => hn.word
  · rw [hv]
    intro left right content hb
    simp at hb

end Literals

section Operators

theorem isClosed_of_ne {v : Expr} (h : ∀ sized left right content,
    v ≠ .bracket sized left right content) : IsClosed v :=
  fun left right content hv => absurd hv (h false left right content)

/-- A name and the bracket that it is applied to are written together or with a blank. -/
theorem leads_apply {name text w : String} {b : Expr} (hname : Expr.Spelled d rows name .identifier text)
    (hb : Solid d (b.render d)) (hne : b.render d ≠ "")
    (hsep : b.isPlainBracket = true → ∀ cs, Separate cs (b.render d).toList)
    (hw : w = Expr.renderBinary d "apply" (.literal name) b (Expr.renderLiteral d name) (b.render d)) :
    Solid d w ∧ Leads d .identifier text (b.render d) w := by
  have hsolid := solid_literal hname
  have hname' : Expr.renderLiteral d name ≠ "" := by
    intro h
    have := hname.forms.pieces_eq 0
    simp [h] at this
  subst hw
  by_cases hp : b.isPlainBracket = true
  · have hs := hsep hp (Expr.renderLiteral d name).toList
    simp only [Expr.renderBinary, hp, if_true, String.append_empty]
    exact ⟨hsolid.append hb hs, leads_append hname.forms (by simp) hs⟩
  · simp only [Expr.renderBinary, hp, if_true, String.append_assoc]
    exact ⟨hsolid.spaced hb.toTrailing hname' hne, leads_gap hname.forms (by simp) _⟩

theorem reread_apply {name : String} {sized : Bool} {content : Expr} {l r : String}
    (hn : Expr.IsName d name) (hl : sized = false → IsMark l)
    (h : Reread d parsed rows (.bracket sized l r content)) :
    Reread d parsed rows (.binary "apply" (.literal name) (.bracket sized l r content)) := by
  obtain ⟨hprimary, hfirst⟩ := h.enclosed
  obtain ⟨text, hname⟩ : ∃ text, Expr.Spelled d rows name .identifier text :=
    Expr.spelled_of_isName hn
  have hsep (hp : (Expr.bracket sized l r content).isPlainBracket = true) (cs : List Char) :
      Separate cs ((Expr.bracket sized l r content).render d).toList := by
    have hs : sized = false := by simpa [Expr.isPlainBracket] using hp
    subst hs
    simp only [Expr.render, Expr.renderBracket, Bool.false_eq_true, if_false, String.append_assoc]
    exact (hl rfl).separate_right cs _
  have hv : (Expr.literal name).regrouped d = .literal name :=
    rereadLiteral_of_operand (.name hn : Expr.IsOperandValue d rows name) d
  generalize Expr.bracket sized l r content = b at *
  obtain ⟨hsolid, hleads⟩ := leads_apply hname h.slot.solid h.slot.ne_empty hsep rfl
  have happly := primary_apply hname hprimary (fun o => ?_) hsolid hleads
  · have hvalue : (Expr.binary "apply" (.literal name) b).regrouped d =
        .binary "apply" (.literal name) (b.regrouped d) := by
      simp [Expr.regrouped, Expr.regroupedBinary] at hv ⊢
      exact hv
    refine ⟨?_, ?_, trivial, rfl⟩
    · rw [hvalue]
      exact happly.slot.mono fun c p t hn => hn.unbarred
    · rw [hvalue]
      exact isClosed_of_ne (by simp)
  · obtain ⟨t, ts, htokens, ht⟩ := hfirst o
    exact ⟨t, ts, htokens, ht.imp (fun h => h.2.1) id⟩

theorem reread_signed (ho : operator = "+" ∨ operator = "-") (h : Reread d parsed rows e) :
    Reread d parsed rows (.binary operator .empty e) := by
  have hvalue := Expr.regrouped_signed (d := d) ho e
  have hprimary := primary_signed ho (h.operand .factor)
  refine ⟨?_, ?_, trivial, rfl⟩
  · rw [Expr.level_signed ho, Expr.render_signed ho, hvalue]
    refine hprimary.slot.mono fun c p t hn => ?_
    have hscript := hn.alone (by simp [Expr.standsAlone, Expr.ne_apply_of_sign ho])
    exact ⟨fun hl => hn.factor hscript hl (Expr.ending_signed ho hl), hscript⟩
  · rw [hvalue]
    exact isClosed_of_ne (by simp)

/-- How an operator is written, and what comes of it in the reading. -/
structure IsOperatorWord (d : Dialect) (L : Level) (operator w : String) (kind : TokenKind)
    (text : String) : Prop where
  solid : Solid d w
  ne_empty : w ≠ ""
  forms : Forms d w.toList kind text
  significant : kind ≠ .space ∧ kind ≠ .unknown
  level : L ≠ .factor ∧ L ≠ .sequence
  reads : ∀ q, operator? L ⟨kind, text, q⟩ = some operator
  ends : ∀ q, EndsOperand L.next ⟨kind, text, q⟩
  open_left : ∀ q, (⟨kind, text, q⟩ : Token).isOpening = false ∧
    (⟨kind, text, q⟩ : Token).word? ≠ some "left" ∧ (⟨kind, text, q⟩ : Token).isSymbol "|" = false
  body : operator ≠ "+" → operator ≠ "-" → ∀ c q, startsOperand c ⟨kind, text, q⟩ = false

theorem operatorWord_mark (h : operator ∈ ["+", "-", "*", "/", "=", "<", ">"]) :
    IsOperatorWord d (.ofOperator operator) operator (Expr.operatorWord d operator) .symbol
      operator := by
  have hm : IsMark operator := by
    have hall : ∀ x ∈ ["+", "-", "*", "/", "=", "<", ">"], ∃ c ∈ Vocabulary.latexMarks,
        x = String.ofList [c] := by
      decide
    exact hall operator h
  have hw : Expr.operatorWord d operator = operator := by
    have hne : operator ≠ "times" := by
      rintro rfl
      revert h
      decide
    simp [Expr.operatorWord, hne]
  rw [hw]
  refine ⟨Solid.of_mark hm, ?_, hm.forms, by simp, ?_, fun q => ?_, fun q => ⟨?_, fun M hM => ?_⟩,
    fun q => ?_, fun hplus hminus c q => ?_⟩
  · rintro rfl
    revert h
    decide
  all_goals
    simp only [List.mem_cons, List.not_mem_nil, or_false] at h
    rcases h with rfl | rfl | rfl | rfl | rfl | rfl | rfl
  all_goals first
    | rfl
    | decide
    | exact ⟨rfl, by simp [Token.word?], rfl⟩
    | contradiction
    | (cases M <;> first | rfl | exact absurd hM (by decide))
    | simp [startsOperand, isProductOperator, operator?, Token.isSymbol, Token.isRelation,
        Vocabulary.isRelation]

/-- The keywords that stand between the operands of a product. -/
theorem operatorWord_keyword {w text : String} (hk : IsKeyword d w text) (hne : w ≠ "")
    (h : Text.lower text = operator) (ho : operator = "times" ∨ operator = "over" ∨ operator = "atop") :
    IsOperatorWord d .product operator w .keyword text := by
  have hword (q : ℤ) : (⟨.keyword, text, q⟩ : Token).word? = some operator := by
    simp [Token.word?, h]
  have hproduct (q : ℤ) : operator? .product ⟨.keyword, text, q⟩ = some operator := by
    simp [operator?, Token.isSymbol, hword, ho]
  refine ⟨hk.solid, hne, hk.forms, by simp, by decide, hproduct, fun q => ⟨?_, fun M hM => ?_⟩,
    fun q => ⟨?_, ?_, ?_⟩, fun _ _ c q => ?_⟩
  · simp [Token.isScript, Token.isSymbol]
  · cases M <;> first | rfl | exact absurd hM (by decide)
  · simp [Token.isOpening]
  · rcases ho with rfl | rfl | rfl <;> simp [hword]
  · simp [Token.isSymbol]
  · simp [startsOperand, isProductOperator, hproduct]

theorem isKeyword_times (d : Dialect) : ∃ text,
    IsKeyword d (Expr.operatorWord d "times") text ∧ Text.lower text = "times" := by
  cases d with
  | latex => exact ⟨"times", isKeyword_latex (by decide) (by decide), by decide⟩
  | legacy => exact ⟨_, isKeyword_legacy (by decide) (by decide), by decide⟩

theorem operatorWord_of_mem (d : Dialect) (h : operator ∈ Expr.infixOperators) :
    ∃ kind text, IsOperatorWord d (.ofOperator operator) operator (Expr.operatorWord d operator)
      kind text := by
  by_cases ht : operator = "times"
  · subst ht
    obtain ⟨text, hk, hlower⟩ := isKeyword_times d
    exact ⟨_, _, operatorWord_keyword hk (by cases d <;> decide) hlower (.inl rfl)⟩
  · refine ⟨_, _, operatorWord_mark ?_⟩
    simp only [Expr.infixOperators, List.mem_cons, List.not_mem_nil, or_false] at h ⊢
    tauto

/-- The left operand of an operator ends in front of it. -/
theorem Follows.of_operator {w text : String} {kind : TokenKind} {q : ℤ}
    (h : IsOperatorWord d L operator w kind text) (hl : L ≤ left.level d)
    (hsum : operator = "+" ∨ operator = "-" → left.ending d ≠ .bodiless) (c : Context) (p : ℤ) :
    Follows d left c p ⟨kind, text, q⟩ := by
  have hends := h.ends q
  obtain ⟨hopen, hleft, hbar⟩ := h.open_left q
  refine ⟨fun _ => hends.1, fun M hM => hends.2 M ?_, fun _ => ⟨hopen, hleft⟩, fun hb => ?_,
    fun hb => ?_⟩
  · have hnext : ∀ K L M : Level, K ≤ L → ¬M ≤ L → K.next ≤ M := by
      intro K L M
      cases K <;> cases L <;> cases M <;> decide
    exact hnext _ _ M hl hM
  · have hsign : ¬(operator = "+" ∨ operator = "-") := fun ho => hsum ho hb
    exact h.body (by tauto) (by tauto) c q
  · rw [hbar] at hb
    contradiction

/-- Nothing but its own level goes on with what may follow an expression that a script would
split. -/
theorem Follows.ends (h : Follows d e c p t) (ha : e.standsAlone d = false)
    (hL : e.level d = L) (hne : L ≠ .factor) : EndsOperand L.next t := by
  refine ⟨h.alone ha, fun M hM => h.clear M ?_⟩
  subst hL
  have hnext : ∀ L M : Level, L ≠ .factor → L.next ≤ M → ¬M ≤ L := by
    intro L M
    cases L <;> cases M <;> decide
  exact hnext _ M hne hM

theorem Follows.clear_right (h : EndsOperand L t) (hL : L ≤ right.level d) (M : Level)
    (hM : ¬M ≤ right.level d) : operator? M t = none := by
  refine h.2 M ?_
  have hle : ∀ K L M : Level, K ≤ L → ¬M ≤ L → K ≤ M := by
    intro K L M
    cases K <;> cases L <;> cases M <;> decide
  exact hle _ _ M hL hM

theorem reread_operation (ho : operator ∈ Expr.infixOperators) (hl : Reread d parsed rows left)
    (hr : Reread d parsed rows right)
    (hsum : operator = "+" ∨ operator = "-" → .sum ≤ left.level d → left.ending d ≠ .bodiless) :
    Reread d parsed rows (.binary operator left right) := by
  obtain ⟨kind, text, hop⟩ := operatorWord_of_mem d ho
  have hne := Expr.infixOperator_ne ho
  have hlevel := Expr.level_operation (d := d) hl.isEmpty operator right
  have hvalue := Expr.regrouped_operation (d := d) ho hl.isEmpty right
  have hslot := slot_operation hop.level.1 hop.level.2 (hl.operand (.ofOperator operator))
    (hr.operand (Level.ofOperator operator).next) hop.solid hop.ne_empty hop.forms hop.significant
    hop.reads hop.ends fun c p q _ hle => Follows.of_operator hop hle (fun hs => ?_) c p
  · have hcombine (l r : Expr) : combine operator l r = .binary operator l r := by
      simp [combine, hne]
    rw [hcombine] at hslot
    refine ⟨?_, ?_, trivial, rfl⟩
    · rw [hlevel, Expr.render_operation ho hl.isEmpty, hvalue]
      refine hslot.mono fun c p t hn => ?_
      have hends := hn.ends (by simp [Expr.standsAlone, hne]) hlevel hop.level.1
      exact ⟨fun hle => hn.part hends.1 (Follows.clear_right hends hle)
        (Expr.ending_operation ho hl.isEmpty hle), hends⟩
    · rw [hvalue]
      exact isClosed_of_ne (by simp)
  · have hlevel : Level.ofOperator operator = .sum := by
      obtain rfl | rfl := hs <;> rfl
    exact hsum hs (hlevel ▸ hle)

/-- An expression beside another one stands in a group if it has a sign. -/
theorem Reread.beside (h : Reread d parsed rows right) :
    Slot d parsed rows .relation (Expr.besideText d right)
      (if right.isSigned then (right.regrouped d).grouped
        else Expr.regroupedOperand d .relation right (right.regrouped d)) fun c p t =>
      right.isSigned = false → .relation ≤ right.level d → Follows d right c p t := by
  by_cases hs : right.isSigned = true
  · simp only [Expr.besideText, hs, if_true]
    exact (h.content.primary_braced.slot.lower (level_le_factor _)).mono fun _ _ _ _ => trivial
  · simp only [Expr.besideText, hs]
    exact (h.operand .relation).mono fun _ _ _ hn => hn trivial

theorem isMark_punctuation (h : Vocabulary.isPunctuation value = true) :
    IsMark value ∧ value ≠ "|" := by
  have hall : ∀ x ∈ [",", ".", ";", ":", "!", "'"],
      (∃ c ∈ Vocabulary.latexMarks, x = String.ofList [c]) ∧ x ≠ "|" := by
    decide
  exact hall value (mem_punctuation h)

theorem besideText_punctuation (d : Dialect) (h : Vocabulary.isPunctuation value = true) :
    Expr.besideText d (.literal value) = value := by
  have hmark := (isMark_punctuation h).1
  have hempty : value ≠ "" := by
    obtain ⟨c, -, rfl⟩ := hmark
    simp
  have hle : .relation ≤ (Expr.literal value).level d := level_le_factor .relation
  simp [Expr.besideText, Expr.isSigned, Expr.operand, Expr.isEmpty, hempty, hle, Expr.render,
    renderLiteral_of_isMark hmark]

/-- What stands beside an expression is not read as a part of it. -/
theorem Follows.of_neighbours (h : Expr.Neighbours d left right) {q gap : ℕ} {us : List Token}
    (hq : p + gap = q) (htokens : tokens d q (Expr.besideText d right) = t :: us)
    (hp : isProductOperator t = false) (hbar : gap = 0 → t.isSymbol "|" = false) (c : Context) :
    EndsOperand .relation t ∧ Follows d left c p t := by
  obtain ⟨u, hu, rfl⟩ := firstToken?_of_tokens htokens
  obtain ⟨hsign, hscript, hrelation⟩ := h.head u hu
  have hends : EndsOperand .relation (shifted q u) := by
    refine ⟨hscript, fun M hM => ?_⟩
    have hrelation' : (shifted q u).isRelation = false := hrelation
    have hsign' : (shifted q u).isSign = false := hsign
    cases M with
    | relation => simp [operator?, hrelation']
    | sum => simp [operator?, hsign']
    | product => simpa [isProductOperator] using hp
    | _ => rfl
  refine ⟨hends, fun _ => hscript, fun M hM => hends.2 M ?_, fun hw => h.word hw u hu,
    fun hb => absurd hb h.bodiless, fun hsymbol hoffset => ?_⟩
  · have hle : ∀ K M : Level, ¬M ≤ K → .relation ≤ M := by
      intro K M
      cases K <;> cases M <;> decide
    exact hle _ _ hM
  · have hle : (q : ℤ) ≤ (shifted q u).offset := le_offset (by rw [htokens]; simp)
    have hgap : gap = 0 := by omega
    rw [hbar hgap] at hsymbol
    contradiction

theorem beside_punctuation (d : Dialect) (h : right.isPunctuation = true) :
    IsMark (Expr.besideText d right) ∧ Expr.besideText d right ≠ "|" := by
  obtain ⟨value, rfl, hpunctuation⟩ : ∃ value, right = .literal value ∧
      Vocabulary.isPunctuation value = true := by
    cases right with
    | literal value => exact ⟨value, rfl, h⟩
    | _ => simp [Expr.isPunctuation] at h
  rw [besideText_punctuation d hpunctuation]
  exact isMark_punctuation hpunctuation

/-- Where a punctuation mark is written right behind the left part, and with a blank elsewhere, the
parts have the tokens that they have by themselves. -/
theorem splits_concat (hl : Reread d parsed rows left) (hr : Reread d parsed rows right) :
    ∃ gap, Solid d ((Expr.binary "concat" left right).render d) ∧
      Splits d gap (left.render d) (Expr.besideText d right)
        ((Expr.binary "concat" left right).render d) ∧
      ∀ q t us, tokens d q (Expr.besideText d right) = t :: us → gap = 0 →
        t.isSymbol "|" = false := by
  have hright := hr.beside
  rw [Expr.render_concat hl.isEmpty]
  by_cases hp : right.isPunctuation = true
  · obtain ⟨hmark, hbar⟩ := beside_punctuation d hp
    have hsep : Separate (left.render d).toList (Expr.besideText d right).toList := by
      have hs := hmark.separate_right (left.render d).toList ""
      rwa [String.append_empty] at hs
    rw [if_pos hp]
    refine ⟨0, hl.slot.solid.append (Solid.of_mark hmark) hsep,
      splits_append hl.slot.solid.whole hsep, fun q t us ht _ => ?_⟩
    rw [hmark.forms.tokens_eq (by simp), List.cons.injEq] at ht
    rw [← ht.1]
    simp [Token.isSymbol, hbar]
  · rw [if_neg hp, spaced_two hl.slot.ne_empty hright.ne_empty]
    exact ⟨1, hl.slot.solid.spaced hright.solid.toTrailing hl.slot.ne_empty hright.ne_empty,
      splits_gap hl.slot.solid.whole _, fun _ _ _ _ h => absurd h (by decide)⟩

theorem reread_concat (hl : Reread d parsed rows left) (hr : Reread d parsed rows right)
    (h : Expr.Neighbours d left right) : Reread d parsed rows (.binary "concat" left right) := by
  have hlevel := Expr.level_concat (d := d) left right
  have hvalue := Expr.regrouped_concat (d := d) left right
  obtain ⟨gap, hsolid, hsplit, hbar⟩ := splits_concat hl hr
  have hslot := slot_beside (hl.slot.lower (Expr.sequence_le _)) hr.beside hsolid hsplit
    fun c o q t us _ hq htokens _ hp =>
      Follows.of_neighbours h (by exact_mod_cast hq) htokens hp (hbar q t us htokens) c
  refine ⟨?_, ?_, trivial, rfl⟩
  · rw [hlevel, hvalue]
    refine hslot.mono fun c p t hn => ?_
    have hends := hn.ends (by simp [Expr.standsAlone]) hlevel (by decide)
    exact ⟨fun hs hle => hn.part hends.1 (Follows.clear_right hends hle)
      (Expr.ending_concat left hs hle), hends⟩
  · rw [hvalue]
    exact isClosed_of_ne (by simp)

end Operators

end MathMarkup.Grammar
