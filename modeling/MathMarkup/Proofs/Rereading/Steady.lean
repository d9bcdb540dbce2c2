import MathMarkup.Proofs.Rereading.Rewritten

/-! What an expression is read back as, read back again: it has its groups already, in the dialect that
it was written in and, with its fractions in groups, in the other one too. -/
namespace MathMarkup.Expr

variable {d d' : Dialect} {rows : Bool} {e v r : Expr} {L : Level}

section Legible

theorem bare_false (e : Expr) : IsBare false e := fun h => nomatch h

theorem Legible.flatten {left right : String} (hd : Vocabulary.closing? left = some right)
    (h : v ≠ .empty → Legible d false rows v) :
    Legible d false rows (Expr.bracket false left right v).flatten := by
  have hnested : Legible d false rows (.bracket false left right v) :=
    .bracket hd h fun _ => bare_false v
  cases v with
  | bracket sized left' right' content =>
    simp only [Expr.flatten]
    split
    · exact h (by simp [Expr.empty])
    · exact hnested
  | _ => exact hnested

theorem Legible.grouped (h : Legible d false rows v) : Legible d false rows v.grouped :=
  .flatten rfl fun _ => h

theorem Legible.regroupedOperand (h : Legible d false rows r) (L : Level) (e : Expr) :
    Legible d false rows (regroupedOperand d' L e r) := by
  unfold Expr.regroupedOperand
  split
  · exact h
  · exact h.grouped

/-- The content of a group, or what stands without one. -/
theorem Legible.unwrap (h : Legible d false rows v) (hne : v.unwrap ≠ .empty) :
    Legible d false rows v.unwrap := by
  by_cases hi : v.isImplicit = true
  · cases h with
    | @bracket _ left right content hd hc b =>
      have hunwrap : (Expr.bracket false left right content).unwrap = content := if_pos hi
      rw [hunwrap] at hne ⊢
      exact hc hne
    | _ => simp [isImplicit] at hi
  · rwa [unwrap_of_not_implicit (by simpa using hi)]

/-- A part that may be missing. -/
theorem legible_part (ih : e ≠ .empty → Legible d false rows (e.regrouped d'))
    (hne : (e.regrouped d').unwrap ≠ .empty) : Legible d false rows (e.regrouped d').unwrap := by
  refine (ih fun he => hne ?_).unwrap hne
  rw [he, Grammar.regrouped_empty]
  rfl

theorem not_lone (d : Dialect) (e : Expr) : ¬IsLoneScript d false e ∧ ¬IsLoneArgument d false e := by
  simp [IsLoneScript, IsLoneArgument]

/-- Groups leave an expression legible, whichever dialect they are of. -/
theorem Legible.regrouped (h : Legible d false rows e) (d' : Dialect) :
    Legible d false rows (e.regrouped d') := by
  induction h with
  | @literal rows value h =>
    have hvalue := h fun hlone => by simp [IsLoneBackslash] at hlone
    rw [Expr.regrouped, Grammar.rereadLiteral_of_operand hvalue]
    exact .literal fun _ => hvalue
  | @apply rows name sized left right content hn h ih =>
    have hname : (Expr.literal name).regrouped d' = .literal name :=
      Grammar.rereadLiteral_of_operand (.name hn : IsOperandValue d rows name) d'
    obtain ⟨x, hx⟩ := Grammar.flatten_eq sized left right (content.regrouped d')
    have hbracket : (Expr.bracket sized left right content).regrouped d' =
        .bracket sized left right x := hx
    rw [hbracket] at ih
    have hvalue : (Expr.binary "apply" (.literal name) (.bracket sized left right content)).regrouped d' =
        .binary "apply" (.literal name) (.bracket sized left right x) := by
      rw [Expr.regrouped, regroupedBinary, if_pos rfl, hname, hbracket]
    rw [hvalue]
    exact .apply hn ih
  | signed ho h ih =>
    rw [regrouped_signed ho]
    exact .signed ho (ih.regroupedOperand ..)
  | concat hl hr ihl ihr =>
    rw [regrouped_concat]
    refine .concat ihl ?_
    split
    · exact ihr.grouped
    · exact ihr.regroupedOperand ..
  | operation ho hl hr ihl ihr =>
    rw [regrouped_operation ho hl.isEmpty]
    exact .operation ho (ihl.regroupedOperand ..) (ihr.regroupedOperand ..)
  | fraction hn hm bn bm ihn ihm =>
    exact .fraction
      (fun hne _ => legible_part (fun he => ihn he fun h => (not_lone d _).2 h.2) hne)
      (fun hne _ => legible_part (fun he => ihm he fun h => (not_lone d _).2 h.2) hne)
      (bare_false _) (bare_false _)
  | root h b ih =>
    exact .root (fun hne _ => legible_part (fun he => ih he (not_lone d _).2) hne) (bare_false _)
  | script hb ha bb ba ihb iha =>
    exact .script (fun hne => legible_part ihb hne)
      (fun hne _ => legible_part (fun he => iha he (not_lone d _).1) hne) (bare_false _) (bare_false _)
  | @large rows operator lower upper body hl hu hb bl bu bb ihl ihu ihb =>
    have hpart {part : Option Expr}
        (h : ∀ e, part = some e → e ≠ .empty → Legible d false rows (e.regrouped d')) (v : Expr)
        (hv : regroupedPart d' part = some v) (hne : v ≠ .empty) : Legible d false rows v := by
      cases part with
      | none => simp [regroupedPart] at hv
      | some e =>
        obtain rfl : (e.regrouped d').unwrap = v := by simpa [regroupedPart] using hv
        exact legible_part (h e rfl) hne
    exact .large (fun v hv hne _ => hpart (fun e he hne => ihl e he hne (not_lone d e).1) v hv hne)
      (fun v hv hne _ => hpart (fun e he hne => ihu e he hne (not_lone d e).1) v hv hne)
      (hpart ihb) (fun v _ => bare_false v) (fun v _ => bare_false v) fun v _ => bare_false v
  | decorated hm h b ih =>
    exact .decorated hm (fun hne _ => legible_part (fun he => ih he (not_lone d _).2) hne)
      (bare_false _)
  | block hr h ih =>
    rw [Expr.regrouped, regroupedRows_eq]
    refine .block ?_ ?_
    · simpa using hr
    · intro row hrow cell hcell hne
      obtain ⟨cells, hcells, rfl⟩ := List.mem_map.1 hrow
      obtain ⟨x, hx, rfl⟩ := List.mem_map.1 hcell
      refine ih cells hcells x hx fun he => hne ?_
      rw [he, Grammar.regrouped_empty]
  | bracket hd h b ih =>
    refine .flatten hd fun hne => ih fun he => hne ?_
    rw [he, Grammar.regrouped_empty]
  | sized hl hr h ih =>
    rw [Expr.regrouped, Grammar.flatten_sized]
    refine .sized hl hr fun hne => ih fun he => hne ?_
    rw [he, Grammar.regrouped_empty]

end Legible

section Steady

/-- A fraction with a bar, which is one factor in LaTeX only. -/
def isBarred : Expr → Bool
  | .fraction bar _ _ => bar
  | _ => false

/-- Neither a sign nor an operator of a product has a fraction with a bar on its right. -/
def NoFractionFactor : Expr → Prop
  | .binary operator left right =>
    right.isBarred = true → left.isEmpty = false ∧ operator ∉ ["times", "/", "*"]
  | _ => True

/-- No mark of its own, and no operand that is a factor in LaTeX only. -/
def IsSteady (d : Dialect) (e : Expr) : Prop :=
  isLoneMark d e = false ∧ (d = .latex → NoFractionFactor e)

/-- Where an operand of a level can stand in one dialect it can in both, but for fractions. -/
theorem level_other (h : L ≤ e.level d)
    (hf : d = .latex → e.isBarred = true → L ≠ .factor) (d' : Dialect) : L ≤ e.level d' := by
  cases e with
  | fraction bar n m =>
    simp only [level, isBarred] at h hf ⊢
    revert h hf
    cases d <;> cases d' <;> cases bar <;> cases L <;> decide
  | _ => exact h

/-- A group stays as it is. -/
theorem grouped_again (hi : r.isImplicit = false) (hr : r.regrouped d' = r) (L : Level) :
    regroupedOperand d' L r.grouped (r.grouped.regrouped d') = r.grouped := by
  rw [grouped_eq hi]
  have hle : L ≤ (Expr.bracket false "\x7b" "\x7d" r).level d' := Grammar.level_le_factor L
  rw [regroupedOperand, if_pos hle, regrouped, hr]
  exact grouped_eq hi

/-- An operand with the group that it needs needs no other. -/
theorem Matches.operand_again (hm : Matches d r e) (hr : r.regrouped d' = r)
    (hf : d = .latex → e.isBarred = true → L ≠ .factor) :
    regroupedOperand d' L (regroupedOperand d L e r) ((regroupedOperand d L e r).regrouped d') =
      regroupedOperand d L e r := by
  by_cases hle : L ≤ e.level d
  · have hle' : L ≤ r.level d' := by
      rw [hm.level]
      exact level_other hle hf d'
    have hsame : regroupedOperand d L e r = r := if_pos hle
    rw [hsame, hr, regroupedOperand, if_pos hle']
  · have hgroup : regroupedOperand d L e r = r.grouped := if_neg hle
    rw [hgroup]
    exact grouped_again (hm.isImplicit.trans (isImplicit_of_level hle)) hr L

/-- What stands beside with the group that it needs needs no other. -/
theorem Matches.beside_again (hm : Matches d r e) (hr : r.regrouped d' = r) :
    let v := if e.isSigned then r.grouped else regroupedOperand d .relation e r
    (if v.isSigned then (v.regrouped d').grouped
      else regroupedOperand d' .relation v (v.regrouped d')) = v := by
  by_cases hs : e.isSigned = true
  · obtain ⟨operator, left, right, rfl⟩ := binary_of_isSigned hs
    have hi : r.isImplicit = false := hm.isImplicit.trans rfl
    have hgroup : r.grouped.isSigned = false := by
      rw [grouped_eq hi]
      rfl
    simp only [hs, if_true, hgroup, Bool.false_eq_true, if_false]
    exact grouped_again hi hr .relation
  · have hsigned : (regroupedOperand d .relation e r).isSigned = false := by
      unfold regroupedOperand
      split
      · rw [hm.isSigned]
        simpa using hs
      · next hle =>
        rw [grouped_eq (hm.isImplicit.trans (isImplicit_of_level hle))]
        rfl
    simp only [hs, hsigned, Bool.false_eq_true, if_false]
    exact hm.operand_again hr fun _ _ => by decide

theorem content_again (h : e ≠ .empty → (e.regrouped d).regrouped d' = e.regrouped d) :
    (e.regrouped d).regrouped d' = e.regrouped d := by
  by_cases he : e = .empty
  · rw [he, Grammar.regrouped_empty, Grammar.regrouped_empty]
  · exact h he

/-- A part that may be missing, but is no mark of its own. -/
theorem part_again (d' : Dialect) (hs : e.Everywhere (IsSteady d)) (hb : IsBare true e)
    (hm : e ≠ .empty → ¬IsLoneScript d true e →
      Matches d (e.regrouped d) e ∧ (e.regrouped d).regrouped d' = e.regrouped d) :
    ((e.regrouped d).unwrap.regrouped d').unwrap = (e.regrouped d).unwrap := by
  have hlone : ¬IsLoneScript d true e := by simp [IsLoneScript, hs.self.1]
  have hself := (Matches.of_content fun he => (hm he hlone).1).unwrap (hb rfl)
  rw [hself, content_again fun he => (hm he hlone).2, hself]

theorem operators_level : ∀ x ∈ infixOperators, Level.ofOperator x ≠ .factor ∧
    (x ∉ ["times", "/", "*"] → (Level.ofOperator x).next ≠ .factor) := by
  decide

/-- What a steady expression is read back as in one dialect is read back as it is in both. -/
theorem regrouped_again (h : Legible d true rows e) (hs : e.Everywhere (IsSteady d))
    (d' : Dialect) : (e.regrouped d).regrouped d' = e.regrouped d := by
  induction h with
  | @literal rows value h =>
    have hv (d' : Dialect) : rereadLiteral d' value = .literal value := by
      by_cases hlone : IsLoneBackslash d true value
      · obtain ⟨-, -, rfl⟩ := hlone
        simp [rereadLiteral]
      · exact Grammar.rereadLiteral_of_operand (h hlone) d'
    rw [regrouped, hv, regrouped, hv]
  | @apply rows name sized left right content hn h ih =>
    have hname (d' : Dialect) : (Expr.literal name).regrouped d' = .literal name :=
      Grammar.rereadLiteral_of_operand (.name hn : IsOperandValue d rows name) d'
    have hbracket := ih (everywhere_binary.1 hs).2.2
    generalize Expr.bracket sized left right content = b at hbracket ⊢
    have hvalue (d' : Dialect) (b : Expr) : (Expr.binary "apply" (.literal name) b).regrouped d' =
        .binary "apply" (.literal name) (b.regrouped d') := by
      rw [regrouped, regroupedBinary, if_pos rfl, hname]
    rw [hvalue, hvalue, hbracket]
  | signed ho h ih =>
    obtain ⟨hself, -, sright⟩ := everywhere_binary.1 hs
    rw [regrouped_signed ho, regrouped_signed ho, (matches_of_legible h).operand_again (ih sright)]
    exact fun hd hbar => absurd (hself.2 hd hbar).1 (by decide)
  | concat hl hr ihl ihr =>
    obtain ⟨-, sleft, sright⟩ := everywhere_binary.1 hs
    rw [regrouped_concat, regrouped_concat, ihl sleft,
      (matches_of_legible hr).beside_again (ihr sright)]
  | @operation rows operator left right ho hl hr ihl ihr =>
    obtain ⟨hself, sleft, sright⟩ := everywhere_binary.1 hs
    obtain ⟨hlevel, hnext⟩ := operators_level operator ho
    have hm := matches_of_legible hl
    rw [regrouped_operation ho hl.isEmpty, regrouped_operation ho (hm.isEmpty_operand hl.isEmpty _),
      hm.operand_again (ihl sleft) fun _ _ => hlevel,
      (matches_of_legible hr).operand_again (ihr sright)]
    exact fun hd hbar => hnext (hself.2 hd hbar).2
  | fraction hn hm bn bm ihn ihm =>
    obtain ⟨-, sn, sm⟩ := everywhere_fraction.1 hs
    have hnumerator := part_again d' sn bn fun he hl =>
      ⟨matches_of_legible (hn he fun h => hl h.2.loneScript), ihn he (fun h => hl h.2.loneScript) sn⟩
    have hdenominator := part_again d' sm bm fun he hl =>
      ⟨matches_of_legible (hm he fun h => hl h.2.loneScript), ihm he (fun h => hl h.2.loneScript) sm⟩
    simp only [regrouped, hnumerator, hdenominator]
  | root h b ih =>
    have sradicand := (everywhere_root.1 hs).2
    have hradicand := part_again d' sradicand b fun he hl =>
      ⟨matches_of_legible (h he fun h => hl h.loneScript), ih he (fun h => hl h.loneScript) sradicand⟩
    simp only [regrouped, hradicand]
  | script hb ha bb ba ihb iha =>
    obtain ⟨-, sbase, sargument⟩ := everywhere_script.1 hs
    have hbase := part_again d' sbase bb fun he _ => ⟨matches_of_legible (hb he), ihb he sbase⟩
    have hargument := part_again d' sargument ba fun he hl =>
      ⟨matches_of_legible (ha he hl), iha he hl sargument⟩
    simp only [regrouped, hbase, hargument]
  | @large rows operator lower upper body hl hu hb bl bu bb ihl ihu ihb =>
    obtain ⟨-, sl, su, sb⟩ := everywhere_large.1 hs
    have hpart {part : Option Expr} (h : ∀ e, part = some e →
        ((e.regrouped d).unwrap.regrouped d').unwrap = (e.regrouped d).unwrap) :
        regroupedPart d' (regroupedPart d part) = regroupedPart d part := by
      cases part with
      | none => rfl
      | some e => simp only [regroupedPart, h e rfl]
    have hlower := hpart fun e he => part_again d' (sl e he) (bl e he) fun hne hn =>
      ⟨matches_of_legible (hl e he hne hn), ihl e he hne hn (sl e he)⟩
    have hupper := hpart fun e he => part_again d' (su e he) (bu e he) fun hne hn =>
      ⟨matches_of_legible (hu e he hne hn), ihu e he hne hn (su e he)⟩
    have hbody := hpart fun e he => part_again d' (sb e he) (bb e he) fun hne _ =>
      ⟨matches_of_legible (hb e he hne), ihb e he hne (sb e he)⟩
    simp only [regrouped, hlower, hupper, hbody]
  | decorated hm h b ih =>
    have schild := (everywhere_decorated.1 hs).2
    have hchild := part_again d' schild b fun he hl =>
      ⟨matches_of_legible (h he fun h => hl h.loneScript), ih he (fun h => hl h.loneScript) schild⟩
    simp only [regrouped, hchild]
  | block hr h ih =>
    simp only [regrouped, regroupedRows_eq, List.map_map]
    congr 1
    refine List.map_congr_left fun row hrow => ?_
    simp only [Function.comp_apply, List.map_map]
    exact List.map_congr_left fun cell hcell => content_again fun hne =>
      ih row hrow cell hcell hne ((everywhere_block.1 hs).2 row hrow cell hcell)
  | @bracket rows left right content hd h b ih =>
    have hcontent := content_again fun hne => ih hne (everywhere_bracket.1 hs).2
    have hflat : (Expr.bracket false left right (content.regrouped d)).flatten =
        .bracket false left right (content.regrouped d) := by
      refine flatten_of_bare ?_ fun hleft =>
        (Matches.of_content fun hne => matches_of_legible (h hne)).isImplicit.trans (b hleft rfl)
      rintro rfl
      simp [Vocabulary.closing?] at hd
    rw [regrouped, hflat, regrouped, hcontent, hflat]
  | sized hl hr h ih =>
    have hcontent := content_again fun hne => ih hne (everywhere_bracket.1 hs).2
    simp only [regrouped, Grammar.flatten_sized, hcontent]

end Steady

end MathMarkup.Expr
