import MathMarkup.Expr.Equality
import MathMarkup.Proofs.Rereading.Parsed

/-! From one dialect to the other. What is parsed from a text, and has only literals that stand by
themselves in the other dialect too, is the same expression, but for implicit groups, when its written
form there is parsed again, provided that its parts stay apart there. -/
namespace MathMarkup

open MathMarkup.Expr Grammar

namespace Expr

/-- The literals that LaTeX escapes, which the legacy dialect has words for. -/
def escapedMarks : List String := ["\\\x7b", "\\\x7d", "\\|"]

/-- A literal that stands by itself in the dialect, or is not there. An escaped mark is no LaTeX name. -/
def StandsIn (d : Dialect) : Expr → Prop
  | .literal value => value = "" ∨ IsOperandValue d false value
  | .binary operator (.literal name) _ => operator = "apply" → d = .latex → name ∉ escapedMarks
  | _ => True

/-- A literal with a legacy spelling that is read back. -/
def IsPortableValue (value : String) : Prop :=
  value = "" ∨ IsName .legacy value ∨ IsNumber value ∨ Vocabulary.isPunctuation value = true

def IsPortableNode : Expr → Prop
  | .literal value => IsPortableValue value
  | .block name _ => IsBlockName .legacy name
  | _ => True

/-- All literals have legacy spellings, and all blocks legacy names. -/
def Portable (e : Expr) : Prop := e.Everywhere IsPortableNode

variable {d d' : Dialect} {rows parsed : Bool} {e : Expr} {value : String}

section Literals

theorem lineBreak_not_name (d : Dialect) : ¬IsName d Vocabulary.lineBreak := by
  rintro (h | h)
  · exact absurd (h.2 '\\' (by decide)) (by decide)
  · cases d with
    | latex =>
      obtain ⟨word, hword, -, heq⟩ := h
      have hlist : word.toList = ['\\'] := by
        simpa [Vocabulary.lineBreak] using (congrArg String.toList heq).symm
      exact absurd (hword.2 '\\' (by simp [hlist])) (by decide)
    | legacy => exact (fromLegacy_ne h.2).2 rfl

theorem backslash_not_name (d : Dialect) : ¬IsName d "\\" := by
  rintro (h | h)
  · exact absurd (h.2 '\\' (by decide)) (by decide)
  · cases d with
    | latex =>
      obtain ⟨word, hword, -, heq⟩ := h
      have hlist : word.toList = [] := by simpa using congrArg String.toList heq
      exact hword.1 (by simpa using hlist)
    | legacy => exact (fromLegacy_ne h.2).1 rfl

/-- What ends a cell or a row is no operand in it. -/
theorem IsOperandValue.not_row_mark (h : IsOperandValue d true value) :
    value ≠ "&" ∧ value ≠ Vocabulary.lineBreak := by
  have hamp : ¬(IsName d "&" ∨ IsNumber "&") :=
    not_name_or_number ⟨by decide, by decide, '&', by decide, by decide⟩
  have hbreak : ¬IsNumber Vocabulary.lineBreak := fun h => absurd (h.2 '\\' (by decide)) (by decide)
  constructor <;> rintro rfl
  · cases h with
    | name h => exact hamp (.inl h)
    | number h => exact hamp (.inr h)
    | mark h => revert h; cases d <;> decide
  · cases h with
    | name h => exact lineBreak_not_name d h
    | number h => exact hbreak h
    | mark h => revert h; cases d <;> decide

theorem IsOperandValue.within_rows (h : IsOperandValue d false value)
    (hrow : value ≠ "&" ∧ value ≠ Vocabulary.lineBreak) (rows : Bool) :
    IsOperandValue d rows value := by
  have hall : ∀ d rows, ∀ x ∈ operandMarks d false, x ≠ "&" ∧ x ≠ Vocabulary.lineBreak →
      x ∈ operandMarks d rows := by
    intro d
    cases d <;> decide
  cases h with
  | name h => exact .name h
  | number h => exact .number h
  | mark h => exact .mark (hall d rows value h hrow)

/-- A literal that stands in one dialect stands in the other at the same place. -/
theorem IsOperandValue.carried (h : ¬IsLoneBackslash d true value → IsOperandValue d rows value)
    (hs : StandsIn d' (.literal value)) : IsOperandValue d' rows value := by
  obtain rfl | hs := hs
  · exact absurd rfl (IsOperandValue.ne_empty (h fun hlone => absurd hlone.2.2 (by decide)))
  · cases rows with
    | false => exact hs
    | true =>
      refine hs.within_rows ?_ true
      by_cases hlone : IsLoneBackslash d true value
      · obtain ⟨-, -, rfl⟩ := hlone
        decide
      · exact (h hlone).not_row_mark

/-- A name that stands in the other dialect is a name there. -/
theorem IsName.carried (h : IsName d value) (hs : StandsIn d' (.literal value))
    (hm : d' = .latex → value ∉ escapedMarks) : IsName d' value := by
  have hoperand : IsOperandValue d' false value :=
    IsOperandValue.carried (d := d) (fun _ => .name h) hs
  obtain hword | hnamed := id h
  · exact .inl hword
  have hhead : value.toList.head? = some '\\' := by
    cases d with
    | latex =>
      obtain ⟨word, -, -, rfl⟩ := hnamed
      simp
    | legacy => exact hnamed.1
  cases hoperand with
  | name h' => exact h'
  | number hn =>
    have hdigit := hn.2 '\\' (List.mem_of_mem_head? hhead)
    exact absurd hdigit (by decide)
  | mark hmark =>
    have hall : ∀ d', ∀ x ∈ operandMarks d' false, x.toList.head? = some '\\' →
        x = "\\" ∨ x = Vocabulary.lineBreak ∨ d' = .latex ∧ x ∈ escapedMarks := by
      intro d'
      cases d' <;> decide
    obtain rfl | rfl | ⟨hd, hx⟩ := hall d' value hmark hhead
    · exact absurd h (backslash_not_name d)
    · exact absurd h (lineBreak_not_name d)
    · exact absurd hx (hm hd)

theorem IsPortableValue.standsIn (h : IsPortableValue value) : StandsIn .legacy (.literal value) := by
  obtain h | h | h | h := h
  · exact .inl h
  · exact .inr (.name h)
  · exact .inr (.number h)
  · exact .inr (isOperandValue_of_isPunctuation h)

end Literals

section Expressions

theorem not_loneMark_of_standsIn (hs : StandsIn d' e) (d : Dialect) : isLoneMark d e = false := by
  cases e with
  | literal value =>
    obtain rfl | hs := hs
    · cases d <;> decide
    · simpa [isLoneMark] using IsOperandValue.not_mem_loneMarks hs d
  | _ => rfl

theorem not_loneScript_of_standsIn (hs : e.Everywhere (StandsIn d')) :
    ¬IsLoneScript d parsed e := by
  intro hlone
  simp [IsLoneScript, not_loneMark_of_standsIn hs.self] at hlone

theorem not_loneArgument_of_standsIn (hs : e.Everywhere (StandsIn d')) :
    ¬IsLoneArgument d parsed e :=
  fun hlone => not_loneScript_of_standsIn hs hlone.loneScript

/-- Where all literals stand in the other dialect, its grammar has the same phrases. -/
theorem Legible.carried (h : Legible d true rows e) (hs : e.Everywhere (StandsIn d')) :
    Legible d' parsed rows e := by
  have bare {x : Expr} (h : IsBare true x) : IsBare parsed x := fun _ => h rfl
  induction h with
  | literal h => exact .literal fun _ => IsOperandValue.carried h hs.self
  | apply hn h ih =>
    obtain ⟨hself, hname, hbracket⟩ := everywhere_binary.1 hs
    exact .apply (hn.carried hname.self (hself rfl)) (ih hbracket)
  | signed ho h ih => exact .signed ho (ih (everywhere_binary.1 hs).2.2)
  | concat hl hr ihl ihr =>
    obtain ⟨-, sl, sr⟩ := everywhere_binary.1 hs
    exact .concat (ihl sl) (ihr sr)
  | operation ho hl hr ihl ihr =>
    obtain ⟨-, sl, sr⟩ := everywhere_binary.1 hs
    exact .operation ho (ihl sl) (ihr sr)
  | fraction hn hm bn bm ihn ihm =>
    obtain ⟨-, sn, sm⟩ := everywhere_fraction.1 hs
    exact .fraction (fun he _ => ihn he (fun h => not_loneArgument_of_standsIn sn h.2) sn)
      (fun he _ => ihm he (fun h => not_loneArgument_of_standsIn sm h.2) sm) (bare bn) (bare bm)
  | root h b ih =>
    have sradicand := (everywhere_root.1 hs).2
    exact .root (fun he _ => ih he (not_loneArgument_of_standsIn sradicand) sradicand) (bare b)
  | script hb ha bb ba ihb iha =>
    obtain ⟨-, sbase, sargument⟩ := everywhere_script.1 hs
    exact .script (fun he => ihb he sbase)
      (fun he _ => iha he (not_loneScript_of_standsIn sargument) sargument) (bare bb) (bare ba)
  | large hl hu hb bl bu bb ihl ihu ihb =>
    obtain ⟨-, sl, su, sb⟩ := everywhere_large.1 hs
    exact .large (fun e he hne _ => ihl e he hne (not_loneScript_of_standsIn (sl e he)) (sl e he))
      (fun e he hne _ => ihu e he hne (not_loneScript_of_standsIn (su e he)) (su e he))
      (fun e he hne => ihb e he hne (sb e he)) (fun e he => bare (bl e he))
      (fun e he => bare (bu e he)) fun e he => bare (bb e he)
  | decorated hm h b ih =>
    have schild := (everywhere_decorated.1 hs).2
    exact .decorated hm (fun he _ => ih he (not_loneArgument_of_standsIn schild) schild) (bare b)
  | block hr h ih =>
    have scell := (everywhere_block.1 hs).2
    exact .block hr fun row hrow cell hcell hne => ih row hrow cell hcell hne (scell row hrow cell hcell)
  | bracket hd h b ih =>
    exact .bracket hd (fun he => ih he (everywhere_bracket.1 hs).2) fun hleft => bare (b hleft)
  | sized hl hr h ih => exact .sized hl hr fun he => ih he (everywhere_bracket.1 hs).2

theorem Portable.standsIn (hp : Portable e) : e.Everywhere (StandsIn .legacy) := by
  intro x hx
  cases x with
  | literal value => exact IsPortableValue.standsIn (hp _ hx)
  | binary operator left right =>
    cases left with
    | literal name => exact fun _ hd => nomatch hd
    | _ => trivial
  | _ => trivial

end Expressions

end Expr

/-- What is parsed from a LaTeX text is preserved by its legacy form, but for implicit groups. -/
theorem latex_to_legacy {s : String} (h : (parseText .latex s).notes = [])
    (hp : (parseText .latex s).expr.Portable)
    (ha : (parseText .latex s).expr.Everywhere (Apart .legacy)) :
    (parseText .legacy ((parseText .latex s).expr.render .legacy)).expr.ungrouped =
      (parseText .latex s).expr.ungrouped := by
  have hlegible := legible_of_parseText (by simp) h
  have htidy : Tidy .legacy false := by simp [Tidy]
  exact (parseText_render_ungrouped htidy (fun he => (hlegible he).carried hp.standsIn) ha).2

theorem latex_to_legacy_fraction :
    (parseText .legacy ((parseText .latex "\\frac\\alpha2").expr.render .legacy)).expr.ungrouped =
      (parseText .latex "\\frac\\alpha2").expr.ungrouped := by
  have hexpr : (parseText .latex "\\frac\\alpha2").expr =
      .fraction true (.literal "\\alpha") (.literal "2") := by
    decide +kernel
  refine latex_to_legacy (by decide +kernel) ?_ ?_
  · rw [hexpr]
    refine everywhere_fraction.2 ⟨trivial, everywhere_literal.2 ?_, everywhere_literal.2 ?_⟩
    · exact .inr (.inl (.inr (by decide +kernel)))
    · exact .inr (.inr (.inl ⟨by decide, by decide +kernel⟩))
  · rw [hexpr]
    simp [Everywhere, nodes, Apart, Expr.empty]

theorem portable_root_word : (parseText .latex "\\sqrt\x7bf\x7d(x)").expr.Portable := by
  have hexpr : (parseText .latex "\\sqrt\x7bf\x7d(x)").expr =
      .binary "concat" (.root (.literal "f")) (.bracket false "(" ")" (.literal "x")) := by
    decide +kernel
  rw [hexpr]
  refine everywhere_binary.2 ⟨trivial, everywhere_root.2 ⟨trivial, everywhere_literal.2 ?_⟩,
    everywhere_bracket.2 ⟨trivial, everywhere_literal.2 ?_⟩⟩
  all_goals exact .inr (.inl (.inl (by decide +kernel)))

/-- In the legacy form a word under a root is applied to the bracket after the root. -/
theorem latex_to_legacy_root_word :
    (parseText .latex "\\sqrt\x7bf\x7d(x)").notes = [] ∧
      (parseText .latex "\\sqrt\x7bf\x7d(x)").expr.Portable ∧
      (parseText .legacy ((parseText .latex "\\sqrt\x7bf\x7d(x)").expr.render .legacy)).expr.ungrouped ≠
        (parseText .latex "\\sqrt\x7bf\x7d(x)").expr.ungrouped :=
  ⟨by decide +kernel, portable_root_word, by decide +kernel⟩

end MathMarkup
