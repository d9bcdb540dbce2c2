import MathMarkup.Proofs.Fluency.Block
import MathMarkup.Proofs.Fluency.Keyword

/-! The written form of a readable expression is made of tokens that are wanted where they stand: for
each kind of node, if those of its parts are. -/
namespace MathMarkup.Grammar

open MathMarkup.Expr Scan

variable {source d : Dialect} {rows : Bool} {e base argument left right : Expr}
  {operator value mark : String} {table : List (List Expr)}

/-- What the grammar has special rules for: a literal, and what starts with a delimiter. -/
def Delimited (d : Dialect) (rows : Bool) (e : Expr) : Prop :=
  match e with
  | .literal value => IsLiteralText d rows value
  | .bracket .. => IsEnclosedText d rows (e.render d)
  | .block .. => d = .legacy → IsEnclosedText d rows (e.render d)
  | _ => True

/-- The written form of the expression is an operand. -/
structure Voiced (d : Dialect) (rows : Bool) (e : Expr) : Prop where
  spoken : Spoken d rows (e.render d)
  delimited : Delimited d rows e

section Parts

theorem Spoken.isEmpty (h : Spoken d rows (e.render d)) : e.isEmpty = false := by
  refine isEmpty_of_ne ?_
  rintro rfl
  exact h.ne_empty (render_empty d)

theorem enclosable_of_voiced (h : e ≠ .empty → Voiced d rows e) : Enclosable d rows (e.render d) := by
  by_cases he : e = .empty
  · rw [he, render_empty]
    exact .empty
  · exact (h he).spoken.enclosable

/-- Where an operand of a level is wanted, the expression stands as it is or in a group. -/
theorem Spoken.operand (h : Spoken d rows (e.render d)) (L : Level) :
    Spoken d rows (Expr.operand d L e (e.render d)) := by
  rw [Expr.operand, if_neg (by simp [h.isEmpty])]
  split
  · exact h
  · exact h.enclosable.braced

theorem Spoken.beside (h : Spoken d rows (e.render d)) : Spoken d rows (besideText d e) := by
  rw [besideText]
  split
  · exact h.enclosable.braced
  · exact h.operand .relation

/-- A mark that stands by itself as an argument is a sign, and the dialect is the legacy one. -/
theorem sign_of_isLoneMark (hr : Readable d e) (h : isLoneMark source e = true) :
    d = .legacy ∧ ∃ value, e = .literal value ∧ (value = "+" ∨ value = "-") := by
  obtain ⟨value, rfl, hvalue⟩ := loneMark_cases_of h
  obtain ⟨hmarks, hsigns⟩ := hr
  have hall := mem_loneMarks_latex hvalue
  simp only [loneMarks, List.mem_cons, List.not_mem_nil, or_false, not_or] at hmarks hsigns hall
  cases d with
  | latex => exact absurd hall (by simp [hmarks, hsigns rfl])
  | legacy => exact ⟨rfl, value, rfl, by tauto⟩

theorem not_isLoneArgument (hr : Readable d e) (h : d = .legacy → isLoneMark .legacy e = false) :
    ¬IsLoneArgument source true e := by
  intro hlone
  obtain ⟨hd, value, rfl, hsign⟩ := sign_of_isLoneMark hr hlone.2.2
  have hnot := h hd
  obtain rfl | rfl := hsign <;> simp [isLoneMark, loneMarks] at hnot

/-- In the legacy dialect the argument of a keyword stands in a group if it is empty or loose. -/
theorem spoken_legacyArgument (h : e ≠ .empty → Voiced .legacy rows e) :
    Spoken .legacy rows (Expr.argument .legacy e (e.render .legacy)) := by
  by_cases he : e = .empty
  · subst he
    exact Enclosable.empty.braced
  · have hspoken := (h he).spoken
    simp only [Expr.argument, hspoken.isEmpty, Bool.false_eq_true, if_false]
    exact hspoken.operand .factor

end Parts

section Scripts

theorem isScriptText_sign (hs : value = "+" ∨ value = "-") : IsScriptText .legacy rows value := by
  refine ⟨Solid.of_mark (isMark_sign hs), fun c o us ts hc hts => ?_⟩
  rw [(isMark_sign hs).forms.tokens_eq (by simp), List.singleton_append]
  exact .scriptSign hc.dialect (sign_facts hs _ c).2.2.2 hts

theorem Voiced.script (h : Voiced .legacy rows e) (ha : e.isAtom = true)
    (hr : e.isRelationLiteral = false) : IsScriptText .legacy rows (e.render .legacy) := by
  have hdelimited := h.delimited
  cases e with
  | literal value => exact IsAtoms.script hdelimited hr
  | bracket => exact hdelimited.script
  | block => exact (hdelimited rfl).script
  | _ => simp [isAtom] at ha

/-- A script stands in a group, unless it is one token or delimited in the legacy dialect. -/
theorem isScriptText_of_voiced (hr : Readable d e) (hrel : d = .legacy → e.isRelationLiteral = false)
    (h : e ≠ .empty → ¬IsLoneScript source true e → Voiced d rows e) :
    IsScriptText d rows (Expr.scriptArgument d e (e.render d)) := by
  by_cases hlone : IsLoneScript source true e
  · obtain ⟨rfl, value, rfl, hsign⟩ := sign_of_isLoneMark hr hlone.2
    rw [scriptArgument_sign hsign]
    exact isScriptText_sign hsign
  · by_cases hatom : d = .legacy ∧ e.isAtom = true
    · obtain ⟨rfl, ha⟩ := hatom
      have he : e ≠ .empty := by
        rintro rfl
        simp [isAtom, Expr.empty] at ha
      rw [Expr.scriptArgument, if_pos ⟨rfl, ha⟩]
      exact (h he hlone).script ha (hrel rfl)
    · rw [Expr.scriptArgument, if_neg hatom]
      exact (enclosable_of_voiced fun he => h he hlone).script

theorem voiced_script {side : Script} (hb : base ≠ .empty → Voiced d rows base)
    (ha : IsScriptText d rows (Expr.scriptArgument d argument (argument.render d))) :
    Voiced d rows (.script side base argument) := by
  refine ⟨?_, trivial⟩
  rw [render, String.append_assoc]
  refine spoken_script side (fun hne => ?_) ha
  rw [scriptBase] at hne ⊢
  split at hne
  · contradiction
  · next he =>
    have hspoken := (hb fun heq => he (isEmpty_iff.2 heq)).spoken
    rw [if_neg he]
    split
    · exact hspoken
    · exact hspoken.enclosable.braced

theorem continues_bound (side : Script) {part : Option Expr}
    (h : ∀ e ∈ part, IsScriptText d rows (Expr.scriptArgument d e (e.render d))) :
    Continues d rows (renderBound d (scriptMark side) part (renderPart d part)) := by
  cases part with
  | none => exact .empty
  | some e => exact continues_script side (h e rfl)

theorem voiced_large {operator : LargeOperator} {lower upper body : Option Expr}
    (hl : ∀ e ∈ lower, IsScriptText d rows (Expr.scriptArgument d e (e.render d)))
    (hu : ∀ e ∈ upper, IsScriptText d rows (Expr.scriptArgument d e (e.render d)))
    (hb : ∀ e ∈ body, e ≠ .empty → Voiced d rows e) :
    Voiced d rows (.large operator lower upper body) := by
  have hbody : Continues d rows
      (((renderPart d body).map fun text => " " ++ braced text).getD "") := by
    cases body with
    | none => exact .empty
    | some e => exact (enclosable_of_voiced (hb e rfl)).grouped.gap
  have hspoken := spoken_large operator
    (((continues_bound .subscript hl).append (continues_bound .superscript hu)).append hbody)
  refine ⟨?_, trivial⟩
  simpa [render, renderLarge, scriptMark, String.append_assoc] using hspoken

end Scripts

section Nodes

theorem voiced_literal (h : ¬IsLoneBackslash source true value → IsOperandValue source rows value)
    (hr : Readable d (.literal value)) (hrow : d = .legacy → rows = true → value ≠ "#") :
    Voiced d rows (.literal value) := by
  have hliteral := isLiteralText h hr hrow
  exact ⟨hliteral.spoken, hliteral⟩

/-- A name and the bracket that it is applied to are written together or with a blank. -/
theorem voiced_apply {name : String} {sized : Bool} {l r : String} {content : Expr}
    (hl : sized = false → IsMark l) (hn : Voiced d rows (.literal name))
    (h : Voiced d rows (.bracket sized l r content)) :
    Voiced d rows (.binary "apply" (.literal name) (.bracket sized l r content)) := by
  refine ⟨?_, trivial⟩
  have henclosed : IsEnclosedText d rows _ := h.delimited
  rw [render, renderBinary, if_pos rfl, String.append_assoc]
  refine hn.spoken.append ?_
  cases sized with
  | true => exact henclosed.gap
  | false =>
    refine h.spoken.continues henclosed.plain fun cs => ?_
    simp only [render, renderBracket, Bool.false_eq_true, if_false, String.append_assoc]
    exact (hl rfl).separate_right cs _

theorem voiced_signed (ho : operator = "+" ∨ operator = "-") (h : Voiced d rows e) :
    Voiced d rows (.binary operator .empty e) := by
  refine ⟨?_, trivial⟩
  rw [render_signed ho]
  exact spoken_signed ho (h.spoken.operand .factor)

/-- Expressions side by side, where the right one starts with no relation. -/
theorem voiced_concat (hl : Voiced d rows left) (hr : Voiced d rows right)
    (hp : StartsPlain d (besideText d right)) : Voiced d rows (.binary "concat" left right) := by
  refine ⟨?_, trivial⟩
  have hbeside := hr.spoken.beside
  rw [render_concat hl.spoken.isEmpty]
  split
  · next hpunctuation =>
    obtain ⟨hmark, -⟩ := beside_punctuation d hpunctuation
    refine hl.spoken.append (hbeside.continues hp fun cs => ?_)
    simpa using hmark.separate_right cs ""
  · rw [spaced_two hl.spoken.ne_empty hbeside.ne_empty]
    exact hl.spoken.append (hbeside.gap hp)

theorem voiced_operation (ho : operator ∈ infixOperators) (hl : Voiced d rows left)
    (hr : Voiced d rows right) : Voiced d rows (.binary operator left right) := by
  obtain ⟨kind, text, hop⟩ := operatorWord_of_mem d ho
  refine ⟨?_, trivial⟩
  rw [render_operation ho hl.spoken.isEmpty]
  exact spoken_operation (hl.spoken.operand _) (hr.spoken.operand _) hop.solid hop.ne_empty hop.forms
    hop.significant hop.reads

theorem voiced_fraction_between {bar : Bool} (hb : ¬(bar = true ∧ d = .latex))
    (hl : Voiced d rows left) (hr : Voiced d rows right) :
    Voiced d rows (.fraction bar left right) := by
  obtain ⟨text, hop⟩ := operatorWord_fraction bar hb
  refine ⟨?_, trivial⟩
  rw [render_fraction hb]
  exact spoken_operation (hl.spoken.operand _) (hr.spoken.operand _) hop.solid hop.ne_empty hop.forms
    hop.significant hop.reads

theorem voiced_fraction_group (hl : left ≠ .empty → Voiced .latex rows left)
    (hr : right ≠ .empty → Voiced .latex rows right) :
    Voiced .latex rows (.fraction true left right) := by
  refine ⟨?_, trivial⟩
  have hspoken := spoken_fraction (enclosable_of_voiced hl) (enclosable_of_voiced hr)
  simpa [render, renderFraction, String.append_assoc] using hspoken

theorem voiced_root (h : e ≠ .empty → Voiced d rows e) : Voiced d rows (.root e) := by
  refine ⟨?_, trivial⟩
  cases d with
  | latex => exact spoken_root_latex (enclosable_of_voiced h)
  | legacy =>
    rw [render_root_legacy]
    exact spoken_root_legacy (spoken_legacyArgument h)

theorem voiced_decorated (hm : ∃ decoration ∈ Decoration.all, decoration.name = mark)
    (h : e ≠ .empty → Voiced d rows e) : Voiced d rows (.decorated mark e) := by
  obtain ⟨decoration, hd, rfl⟩ := hm
  refine ⟨?_, trivial⟩
  cases d with
  | latex =>
    rw [render_decorated_latex hd]
    exact spoken_decorated_latex hd (enclosable_of_voiced h)
  | legacy =>
    rw [render_decorated_legacy hd]
    exact spoken_decorated_legacy hd (spoken_legacyArgument h)

theorem voiced_block {name : String} (hr : Readable d (.block name table))
    (hne : ∀ row ∈ table, row ≠ [])
    (h : ∀ row ∈ table, ∀ cell ∈ row, cell ≠ .empty → Voiced d true cell) :
    Voiced d rows (.block name table) := by
  obtain ⟨hname, hrows, -⟩ := hr
  have hcells (row) (hrow : row ∈ table) (cell) (hcell : cell ∈ row) (hc : cell ≠ .empty) :=
    (h row hrow cell hcell hc).spoken
  cases d with
  | latex =>
    refine ⟨?_, by simp [Delimited]⟩
    exact spoken_block_latex (hname rfl) (isRowText_table isRowBreak_latex hne hcells hrows)
  | legacy =>
    have henclosed : IsEnclosedText .legacy rows ((Expr.block name table).render .legacy) :=
      enclosed_block_legacy (fun _ => isRowText_table isRowBreak_legacy hne hcells hrows) name
    exact ⟨henclosed.spoken, fun _ => henclosed⟩

theorem voiced_bracket {l r : String} (hd : Vocabulary.closing? l = some r)
    (h : e ≠ .empty → Voiced d rows e) : Voiced d rows (.bracket false l r e) := by
  have henclosed := (enclosable_of_voiced h).enclosed hd
  have hrender : (Expr.bracket false l r e).render d = l ++ (e.render d ++ r) := by
    simp [render, renderBracket, String.append_assoc]
  rw [← hrender] at henclosed
  exact ⟨henclosed.spoken, henclosed⟩

theorem voiced_sized {l r : String} (hl : l ∈ Vocabulary.Side.left.delimiters)
    (hr : r ∈ Vocabulary.Side.right.delimiters) (h : e ≠ .empty → Voiced d rows e) :
    Voiced d rows (.bracket true l r e) :=
  have henclosed := enclosed_sized (enclosable_of_voiced h) hl hr
  ⟨henclosed.spoken, henclosed⟩

end Nodes

section Expressions

/-- Every expression in this one is readable, and within legacy rows none is the mark that ends
them. -/
def ReadableIn (d : Dialect) (rows : Bool) (e : Expr) : Prop :=
  e.Everywhere fun x => Readable d x ∧ (d = .legacy → rows = true → x.isRowMark = false)

theorem readableIn_of_everywhere (h : e.Everywhere (Readable d)) : ReadableIn d false e :=
  fun x hx => ⟨h x hx, fun _ hrows => absurd hrows (by decide)⟩

theorem ReadableIn.self (h : ReadableIn d rows e) : Readable d e := (Everywhere.self h).1

theorem ReadableIn.cell {name : String} (h : ReadableIn d rows (.block name table)) {row : List Expr}
    (hrow : row ∈ table) {cell : Expr} (hcell : cell ∈ row) : ReadableIn d true cell := by
  have hmarks := h.self.2.2
  intro x hx
  exact ⟨((everywhere_block.1 h).2 row hrow cell hcell x hx).1,
    fun hd _ => hmarks hd row hrow cell hcell x hx⟩

/-- What parsing gives is written in tokens that are wanted where they stand, if it is readable. -/
theorem voiced_of_legible (h : Legible source true rows e) (hr : ReadableIn d rows e) :
    Voiced d rows e := by
  induction h with
  | literal h =>
    refine voiced_literal h hr.self fun hd hrows => ?_
    simpa [isRowMark] using (Everywhere.self hr).2 hd hrows
  | apply hn h ih =>
    obtain ⟨-, hname, hbracket⟩ := everywhere_binary.1 hr
    refine voiced_apply (fun hs => ?_) (voiced_literal (fun _ => .name hn) (ReadableIn.self hname) ?_)
      (ih hbracket)
    · subst hs
      cases h with
      | bracket hd => exact (isMark_of_closing hd).1
    · intro hd hrows
      simpa [isRowMark] using (Everywhere.self hname).2 hd hrows
  | signed ho h ih => exact voiced_signed ho (ih (everywhere_binary.1 hr).2.2)
  | concat hl hm ihl ihr =>
    obtain ⟨-, hleft, hright⟩ := everywhere_binary.1 hr
    exact voiced_concat (ihl hleft) (ihr hright) (hr.self rfl)
  | operation ho hl hm ihl ihr =>
    obtain ⟨-, hleft, hright⟩ := everywhere_binary.1 hr
    exact voiced_operation ho (ihl hleft) (ihr hright)
  | @fraction rows bar n m hn hm bn bm ihn ihm =>
    obtain ⟨-, an, am⟩ := everywhere_fraction.1 hr
    by_cases hb : bar = true ∧ d = .latex
    · obtain ⟨rfl, rfl⟩ := hb
      exact voiced_fraction_group
        (fun he => ihn he (fun h => not_isLoneArgument (ReadableIn.self an) (by simp) h.2) an)
        fun he => ihm he (fun h => not_isLoneArgument (ReadableIn.self am) (by simp) h.2) am
    · obtain hb' | hparts := hr.self
      · exact absurd hb' hb
      · have hpart {x : Expr} (hx : x ∈ [n, m]) (ax : ReadableIn d rows x) :
            x ≠ .empty ∧ ¬IsLoneArgument source true x := by
          obtain ⟨hempty, hlone⟩ := hparts x hx
          refine ⟨?_, not_isLoneArgument ax.self fun _ => hlone⟩
          rintro rfl
          simp [Expr.isEmpty, Expr.empty] at hempty
        obtain ⟨hne, hnl⟩ := hpart (by simp) an
        obtain ⟨hme, hml⟩ := hpart (by simp) am
        exact voiced_fraction_between hb (ihn hne (fun h => hnl h.2) an) (ihm hme (fun h => hml h.2) am)
  | root h b ih =>
    have ha := (everywhere_root.1 hr).2
    exact voiced_root fun he => ih he (not_isLoneArgument (ReadableIn.self ha) hr.self) ha
  | script hb hs bb bs ihb ihs =>
    obtain ⟨-, abase, aargument⟩ := everywhere_script.1 hr
    exact voiced_script (fun he => ihb he abase) (isScriptText_of_voiced (ReadableIn.self aargument)
      hr.self fun he hl => ihs he hl aargument)
  | large hl hu hb bl bu bb ihl ihu ihb =>
    obtain ⟨-, al, au, ab⟩ := everywhere_large.1 hr
    refine voiced_large (fun e he => ?_) (fun e he => ?_) fun e he hne => ihb e he hne (ab e he)
    · exact isScriptText_of_voiced (ReadableIn.self (al e he)) (fun hd => (hr.self hd).1 e he)
        fun hne hlone => ihl e he hne hlone (al e he)
    · exact isScriptText_of_voiced (ReadableIn.self (au e he)) (fun hd => (hr.self hd).2 e he)
        fun hne hlone => ihu e he hne hlone (au e he)
  | decorated hm h b ih =>
    have ha := (everywhere_decorated.1 hr).2
    exact voiced_decorated hm fun he => ih he (not_isLoneArgument (ReadableIn.self ha) hr.self) ha
  | block hne h ih =>
    exact voiced_block hr.self hne fun row hrow cell hcell hc =>
      ih row hrow cell hcell hc (hr.cell hrow hcell)
  | bracket hd h b ih =>
    exact voiced_bracket hd fun he => ih he (everywhere_bracket.1 hr).2
  | sized hl hm h ih =>
    exact voiced_sized hl hm fun he => ih he (everywhere_bracket.1 hr).2

end Expressions

end MathMarkup.Grammar
