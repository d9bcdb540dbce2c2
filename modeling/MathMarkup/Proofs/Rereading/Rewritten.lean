import MathMarkup.Proofs.Rereading.Text

/-! Written again, what a parsed expression is read back as is the same text: the groups that it has
more are those that were written anyway. -/
namespace MathMarkup.Expr

variable {d : Dialect} {rows : Bool} {e v left right l r : Expr} {L : Level}

section Outlines

/-- A node without its parts, but for whether the first operand is missing. -/
def outline : Expr → Expr
  | .literal value => .literal value
  | .binary operator left _ => .binary operator (if left.isEmpty then empty else .root empty) empty
  | .fraction bar _ _ => .fraction bar empty empty
  | .root _ => .root empty
  | .script side _ _ => .script side empty empty
  | .large operator _ _ _ => .large operator none none none
  | .decorated mark _ => .decorated mark empty
  | .block name _ => .block name []
  | .bracket sized left right _ => .bracket sized left right empty

theorem isEmpty_outline (e : Expr) : e.outline.isEmpty = e.isEmpty := by
  cases e <;> rfl

theorem isSigned_outline (e : Expr) : e.outline.isSigned = e.isSigned := by
  cases e with
  | binary operator left right =>
    cases h : left.isEmpty <;> simp only [outline, isSigned, h] <;> rfl
  | _ => rfl

theorem level_outline (e : Expr) : e.outline.level d = e.level d := by
  cases e with
  | binary operator left right =>
    have hs := isSigned_outline (.binary operator left right)
    simp only [outline] at hs ⊢
    simp only [level, hs]
  | _ => rfl

theorem isPlainBracket_outline (e : Expr) : e.outline.isPlainBracket = e.isPlainBracket := by
  cases e <;> rfl

theorem isPunctuation_outline (e : Expr) : e.outline.isPunctuation = e.isPunctuation := by
  cases e <;> rfl

theorem isAtom_outline (e : Expr) : e.outline.isAtom = e.isAtom := by
  cases e <;> rfl

theorem standsAlone_outline (e : Expr) : e.outline.standsAlone d = e.standsAlone d := by
  cases e <;> rfl

theorem isImplicit_outline (e : Expr) : e.outline.isImplicit = e.isImplicit := by
  cases e <;> rfl

theorem outline_eq_literal {value : String} : e.outline = .literal value ↔ e = .literal value := by
  cases e <;> simp [outline]

/-- Two expressions with the same outline and the same written form. -/
structure Matches (d : Dialect) (v e : Expr) : Prop where
  outline : v.outline = e.outline
  render : v.render d = e.render d

variable (h : Matches d v e)
include h

theorem Matches.level {d' : Dialect} : v.level d' = e.level d' := by
  rw [← level_outline, h.outline, level_outline]

theorem Matches.isEmpty : v.isEmpty = e.isEmpty := by
  rw [← isEmpty_outline, h.outline, isEmpty_outline]

theorem Matches.isSigned : v.isSigned = e.isSigned := by
  rw [← isSigned_outline, h.outline, isSigned_outline]

theorem Matches.isPlainBracket : v.isPlainBracket = e.isPlainBracket := by
  rw [← isPlainBracket_outline, h.outline, isPlainBracket_outline]

theorem Matches.isPunctuation : v.isPunctuation = e.isPunctuation := by
  rw [← isPunctuation_outline, h.outline, isPunctuation_outline]

theorem Matches.isAtom : v.isAtom = e.isAtom := by
  rw [← isAtom_outline, h.outline, isAtom_outline]

theorem Matches.standsAlone : v.standsAlone d = e.standsAlone d := by
  rw [← standsAlone_outline, h.outline, standsAlone_outline]

theorem Matches.isImplicit : v.isImplicit = e.isImplicit := by
  rw [← isImplicit_outline, h.outline, isImplicit_outline]

theorem Matches.literal_iff {value : String} : v = .literal value ↔ e = .literal value := by
  rw [← outline_eq_literal, h.outline, outline_eq_literal]

end Outlines

section Parts

theorem Matches.refl (e : Expr) : Matches d e e := ⟨rfl, rfl⟩

theorem unwrap_of_not_implicit (h : v.isImplicit = false) : v.unwrap = v := by
  cases v with
  | bracket => simp [unwrap, h]
  | _ => rfl

theorem Matches.unwrap (h : Matches d v e) (hb : e.isImplicit = false) : v.unwrap = v :=
  unwrap_of_not_implicit (h.isImplicit.trans hb)

/-- A group is not taken together with a content that is none. -/
theorem flatten_of_bare {a b : String} (ha : a ≠ "") (h : a = "\x7b" → v.isImplicit = false) :
    (Expr.bracket false a b v).flatten = .bracket false a b v := by
  cases v with
  | bracket sized left right content =>
    refine if_neg ?_
    rintro ⟨himplicit, heq⟩
    simp only [Prod.mk.injEq] at heq
    obtain ⟨rfl, rfl, rfl⟩ := heq
    have hleft : left = "\x7b" := by simpa [isImplicit, ha] using himplicit
    simp [isImplicit, hleft] at h
  | _ => rfl

theorem grouped_eq (h : v.isImplicit = false) : v.grouped = .bracket false "\x7b" "\x7d" v :=
  flatten_of_bare (by decide) fun _ => h

theorem isImplicit_of_level (h : ¬L ≤ e.level d) : e.isImplicit = false := by
  cases e with
  | bracket sized left right content => exact absurd (Grammar.level_le_factor L) h
  | _ => rfl

theorem operand_group (L : Level) (v : Expr) :
    operand d L (.bracket false "\x7b" "\x7d" v) ((Expr.bracket false "\x7b" "\x7d" v).render d) =
      braced (v.render d) := by
  have hle : L ≤ (Expr.bracket false "\x7b" "\x7d" v).level d := Grammar.level_le_factor L
  rw [operand, if_neg (by simp [Expr.isEmpty]), if_pos hle]
  rfl

theorem Matches.congr_operand (h : Matches d v e) (L : Level) :
    operand d L v (v.render d) = operand d L e (e.render d) := by
  rw [Expr.operand, Expr.operand, h.isEmpty, h.level, h.render]

/-- Where it stands, an operand with the group that it is written in is written the same. -/
theorem Matches.operand (h : Matches d v e) (he : e.isEmpty = false) (L : Level) :
    operand d L (regroupedOperand d L e v) ((regroupedOperand d L e v).render d) =
      operand d L e (e.render d) := by
  unfold regroupedOperand
  split
  · exact h.congr_operand L
  · next hle =>
    rw [grouped_eq (h.isImplicit.trans (isImplicit_of_level hle)), operand_group, h.render,
      Expr.operand, he]
    simp [hle]

theorem Matches.isEmpty_operand (h : Matches d v e) (he : e.isEmpty = false) (L : Level) :
    (regroupedOperand d L e v).isEmpty = false := by
  unfold regroupedOperand
  split
  · exact h.isEmpty.trans he
  · next hle =>
    rw [grouped_eq (h.isImplicit.trans (isImplicit_of_level hle))]
    rfl

theorem binary_of_isSigned (h : e.isSigned = true) : ∃ operator l r, e = .binary operator l r := by
  cases e with
  | binary operator l r => exact ⟨operator, l, r, rfl⟩
  | _ => simp [isSigned] at h

theorem besideText_group (v : Expr) :
    besideText d (.bracket false "\x7b" "\x7d" v) = braced (v.render d) :=
  operand_group .relation v

/-- What stands beside, with the group that it is written in. -/
theorem Matches.beside (h : Matches d v e) (he : e.isEmpty = false) :
    let v' := if e.isSigned then v.grouped else regroupedOperand d .relation e v
    besideText d v' = besideText d e ∧ v'.isPunctuation = e.isPunctuation := by
  by_cases hs : e.isSigned = true
  · obtain ⟨operator, l, r, rfl⟩ := binary_of_isSigned hs
    simp only [hs, if_true, grouped_eq (h.isImplicit.trans rfl)]
    refine ⟨?_, rfl⟩
    rw [besideText_group, h.render, besideText, if_pos hs]
  · have hbeside : besideText d e = Expr.operand d .relation e (e.render d) := if_neg hs
    rw [if_neg hs, hbeside, ← h.operand he .relation]
    unfold regroupedOperand
    split
    · exact ⟨if_neg (by rwa [h.isSigned]), h.isPunctuation⟩
    · next hle =>
      have hpunctuation : e.isPunctuation = false := by
        cases e with
        | literal value => exact absurd (Grammar.level_le_factor .relation) hle
        | _ => rfl
      rw [grouped_eq (h.isImplicit.trans (isImplicit_of_level hle)), operand_group]
      exact ⟨besideText_group v, hpunctuation.symm⟩

/-- A part that may be missing. -/
theorem Matches.of_content (h : e ≠ .empty → Matches d (e.regrouped d) e) :
    Matches d (e.regrouped d) e := by
  by_cases he : e = .empty
  · rw [he, Grammar.regrouped_empty]
    exact .refl _
  · exact h he

theorem matches_filled (h : e ≠ .empty → Matches d (e.regrouped d) e) (hb : IsBare true e) :
    Matches d (e.regrouped d).unwrap e := by
  have hm := Matches.of_content h
  rwa [hm.unwrap (hb rfl)]

/-- A part that may be missing, or in LaTeX a mark of its own. -/
theorem matches_part (h : e ≠ .empty → ¬IsLoneScript d true e → Matches d (e.regrouped d) e)
    (hb : IsBare true e) : (e.regrouped d).unwrap.render d = e.render d ∧
      (d = .legacy → Matches d (e.regrouped d).unwrap e) := by
  by_cases hlone : IsLoneScript d true e
  · obtain ⟨value, rfl, hvalue⟩ := Grammar.loneMark_cases_of hlone.2
    cases d with
    | latex =>
      have hall : ∀ x ∈ loneMarks .latex,
          ((Expr.literal x).regrouped .latex).unwrap.render .latex = x := by
        decide
      exact ⟨hall value hvalue, fun hd => by contradiction⟩
    | legacy =>
      have hv : (Expr.literal value).regrouped .legacy = .literal value := by
        simp [regrouped, rereadLiteral]
      rw [hv]
      exact ⟨rfl, fun _ => .refl _⟩
  · have hm := matches_filled (fun he => h he hlone) hb
    exact ⟨hm.render, fun _ => hm⟩

theorem argument_congr (hr : v.render d = e.render d) (hm : d = .legacy → Matches d v e) :
    argument d v (v.render d) = argument d e (e.render d) := by
  cases d with
  | latex => simp only [argument, hr]
  | legacy => simp only [argument, (hm rfl).isEmpty, (hm rfl).congr_operand]

theorem scriptArgument_congr (hr : v.render d = e.render d) (hm : d = .legacy → Matches d v e) :
    scriptArgument d v (v.render d) = scriptArgument d e (e.render d) := by
  rw [hr]
  by_cases hd : d = .legacy
  · simp only [scriptArgument, (hm hd).isAtom]
  · simp only [scriptArgument, hd, false_and, if_false]

theorem Matches.scriptBase (h : Matches d v e) :
    scriptBase d v (v.render d) = scriptBase d e (e.render d) := by
  rw [Expr.scriptBase, Expr.scriptBase, h.isEmpty, h.standsAlone, h.render]

theorem renderBound_congr (mark : String) {part : Option Expr}
    (h : ∀ e, part = some e → (e.regrouped d).unwrap.render d = e.render d ∧
      (d = .legacy → Matches d (e.regrouped d).unwrap e)) :
    renderBound d mark (regroupedPart d part) (renderPart d (regroupedPart d part)) =
      renderBound d mark part (renderPart d part) := by
  cases part with
  | none => rfl
  | some e =>
    obtain ⟨hr, hm⟩ := h e rfl
    simp only [regroupedPart, renderPart, renderBound]
    rw [scriptArgument_congr hr hm]

theorem renderPart_congr {part : Option Expr}
    (h : ∀ e, part = some e → (e.regrouped d).unwrap.render d = e.render d) :
    renderPart d (regroupedPart d part) = renderPart d part := by
  cases part with
  | none => rfl
  | some e => simp only [regroupedPart, renderPart, h e rfl]

/-- Whether a row is written as one cell is seen from the cells themselves. -/
theorem renderRow_map {f : Expr → Expr} {row : List Expr}
    (hr : ∀ x ∈ row, (f x).render d = x.render d)
    (h : ∀ first second third, row = [first, second, third] →
      (f second = .literal "=" ↔ second = .literal "=")) :
    renderRow (row.map f) ((row.map f).map (render d)) = renderRow row (row.map (render d)) := by
  have hcells : (row.map f).map (render d) = row.map (render d) := by
    rw [List.map_map]
    exact List.map_congr_left hr
  by_cases hu : ∃ first third, row = [first, .literal "=", third]
  · obtain ⟨first, third, rfl⟩ := hu
    have heq : f (.literal "=") = .literal "=" := (h _ _ _ rfl).2 rfl
    rw [hcells]
    simp only [List.map_cons, List.map_nil, heq]
    rfl
  · have hrow (first second third : Expr) (hrow : row = [first, second, third]) :
        second ≠ .literal "=" := by
      rintro rfl
      exact hu ⟨first, third, hrow⟩
    have hmap (first second third : Expr) (hmap : row.map f = [first, second, third]) :
        second ≠ .literal "=" := by
      simp only [List.map_eq_cons_iff, List.map_eq_nil_iff] at hmap
      obtain ⟨a, as, rfl, rfl, b, bs, rfl, rfl, x, xs, rfl, rfl, rfl⟩ := hmap
      exact fun heq => hrow a b x rfl ((h a b x rfl).1 heq)
    rw [renderRow, renderRow, Grammar.unifyRow_of_apart hrow, Grammar.unifyRow_of_apart hmap, hcells]

/-- Lines come from rows one by one. -/
theorem renderBlock_map {f : Expr → Expr} {rows : List (List Expr)} (h : ∀ row ∈ rows,
    renderRow (row.map f) ((row.map f).map (render d)) = renderRow row (row.map (render d)))
    (name : String) :
    renderBlock d name (rows.map fun row => row.map f)
        (renderRows d (rows.map fun row => row.map f)) =
      renderBlock d name rows (renderRows d rows) := by
  have hlines : List.zipWith renderRow (rows.map fun row => row.map f)
      (renderRows d (rows.map fun row => row.map f)) =
        List.zipWith renderRow rows (renderRows d rows) := by
    simp only [renderRows_eq, List.zipWith_map_right, List.zipWith_self]
    rw [List.map_map]
    exact List.map_congr_left h
  simp only [renderBlock, hlines]

end Parts

section Nodes

/-- What a parsed expression is read back as has its written form. -/
theorem matches_of_legible (h : Legible d true rows e) : Matches d (e.regrouped d) e := by
  induction h with
  | @literal rows value h =>
    have hv : rereadLiteral d value = .literal value := by
      by_cases hlone : IsLoneBackslash d true value
      · obtain ⟨-, rfl, rfl⟩ := hlone
        simp [rereadLiteral]
      · exact Grammar.rereadLiteral_of_operand (h hlone) d
    rw [regrouped, hv]
    exact .refl _
  | @apply rows name sized left right content hn h ih =>
    have hname : (Expr.literal name).regrouped d = .literal name :=
      Grammar.rereadLiteral_of_operand (.name hn : IsOperandValue d rows name) d
    generalize Expr.bracket sized left right content = b at ih ⊢
    have hvalue : (Expr.binary "apply" (.literal name) b).regrouped d =
        .binary "apply" (.literal name) (b.regrouped d) := by
      rw [regrouped, regroupedBinary, if_pos rfl, hname]
    rw [hvalue]
    exact ⟨rfl, by simp only [render, renderBinary, if_true, ih.isPlainBracket, ih.render]⟩
  | signed ho h ih =>
    refine ⟨by rw [regrouped_signed ho]; rfl, ?_⟩
    rw [regrouped_signed ho, render_signed ho, render_signed ho, ih.operand h.isEmpty]
  | concat hl hr ihl ihr =>
    obtain ⟨hbeside, hpunctuation⟩ := ihr.beside hr.isEmpty
    rw [regrouped_concat]
    refine ⟨by simp [outline, ihl.isEmpty], ?_⟩
    rw [render_concat (ihl.isEmpty.trans hl.isEmpty), render_concat hl.isEmpty, ihl.render, hbeside,
      hpunctuation]
  | @operation rows operator left right ho hl hr ihl ihr =>
    rw [regrouped_operation ho hl.isEmpty]
    have he := ihl.isEmpty_operand hl.isEmpty (.ofOperator operator)
    refine ⟨by simp [outline, he, hl.isEmpty], ?_⟩
    rw [render_operation ho he, render_operation ho hl.isEmpty, ihl.operand hl.isEmpty,
      ihr.operand hr.isEmpty]
  | @fraction rows bar n m hn hm bn bm ihn ihm =>
    refine ⟨rfl, ?_⟩
    by_cases hb : bar = true ∧ d = .latex
    · have hnumerator := matches_part (fun he hl => ihn he fun h => hl h.2.loneScript) bn
      have hdenominator := matches_part (fun he hl => ihm he fun h => hl h.2.loneScript) bm
      simp only [regrouped, render, hnumerator.1, hdenominator.1, renderFraction, if_pos hb]
    · have hnumerator := matches_filled (fun he => ihn he fun h => hb ⟨h.1, h.2.2.1⟩) bn
      have hdenominator := matches_filled (fun he => ihm he fun h => hb ⟨h.1, h.2.2.1⟩) bm
      rw [regrouped, render_fraction hb, render_fraction hb, hnumerator.congr_operand,
        hdenominator.congr_operand]
  | root h b ih =>
    obtain ⟨hr, hm⟩ := matches_part (fun he hl => ih he fun h => hl h.loneScript) b
    refine ⟨rfl, ?_⟩
    cases d with
    | latex => simp only [regrouped, render, hr, renderRoot, argument]
    | legacy => rw [regrouped, render_root_legacy, render_root_legacy, argument_congr hr hm]
  | script hb hs bb bs ihb ihs =>
    obtain ⟨hr, hm⟩ := matches_part ihs bs
    have hbase := (matches_filled ihb bb).scriptBase
    refine ⟨rfl, ?_⟩
    simp only [regrouped, render, hbase, scriptArgument_congr hr hm]
  | large hl hu hb bl bu bb ihl ihu ihb =>
    refine ⟨rfl, ?_⟩
    have hlower := renderBound_congr "_" fun e he => matches_part (ihl e he) (bl e he)
    have hupper := renderBound_congr "^" fun e he => matches_part (ihu e he) (bu e he)
    have hbody := renderPart_congr fun e he => (matches_filled (ihb e he) (bb e he)).render
    simp only [regrouped, render, renderLarge, hlower, hupper, hbody]
  | decorated hm h b ih =>
    obtain ⟨decoration, hd, rfl⟩ := hm
    obtain ⟨hr, hm⟩ := matches_part (fun he hl => ih he fun h => hl h.loneScript) b
    refine ⟨rfl, ?_⟩
    cases d with
    | latex => rw [regrouped, render_decorated_latex hd, render_decorated_latex hd, hr]
    | legacy =>
      rw [regrouped, render_decorated_legacy hd, render_decorated_legacy hd, argument_congr hr hm]
  | @block rows name table hr h ih =>
    refine ⟨rfl, ?_⟩
    have hcell (row) (hrow : row ∈ table) (cell) (hcell : cell ∈ row) :
        Matches d (cell.regrouped d) cell :=
      Matches.of_content (ih row hrow cell hcell)
    simp only [regrouped, render, regroupedRows_eq]
    refine renderBlock_map (fun row hrow => ?_) name
    refine renderRow_map (fun x hx => (hcell row hrow x hx).render) ?_
    rintro first second third rfl
    exact (hcell _ hrow second (by simp)).literal_iff
  | @bracket rows left right content hd h b ih =>
    have hcontent := Matches.of_content ih
    have hflat : (Expr.bracket false left right (content.regrouped d)).flatten =
        .bracket false left right (content.regrouped d) := by
      refine flatten_of_bare ?_ fun hleft => hcontent.isImplicit.trans (b hleft rfl)
      rintro rfl
      simp [Vocabulary.closing?] at hd
    rw [regrouped, hflat]
    exact ⟨rfl, by simp only [render, hcontent.render]⟩
  | @sized rows left right content hl hr h ih =>
    rw [regrouped, Grammar.flatten_sized]
    exact ⟨rfl, by simp only [render, (Matches.of_content ih).render]⟩

end Nodes

end MathMarkup.Expr
