import MathMarkup.Proofs.Expr.Nodes
import MathMarkup.Proofs.Rereading.Reread

/-! Expressions with arguments are read back, and so are all that are legible and whose parts stay
apart. -/
namespace MathMarkup.Grammar

open Scan
open Reading (Alike)

variable {d : Dialect} {parsed rows : Bool} {e base argument : Expr} {mark value : String}
  {c : Context} {p : ℤ} {t : Token} {side : Script}

section Arguments

theorem render_empty (d : Dialect) : Expr.empty.render d = "" := by
  cases d with
  | latex => rfl
  | legacy =>
    have hnone : NamedSymbol.fromLegacy? "" = none := Expr.fromLegacy_eq_none fun h => h.1 rfl
    have hkey : Text.upper "" ∉ Vocabulary.legacyKeywords := by decide
    simp [Expr.empty, Expr.render, Expr.renderLiteral, Expr.legacyLiteral, Vocabulary.lineBreak, hkey,
      hnone]

theorem regrouped_empty (d : Dialect) : Expr.empty.regrouped d = .empty := by
  cases d <;> rfl

/-- What may be missing is read back as content. -/
theorem content_of_reread (h : e ≠ .empty → Reread d parsed rows e) :
    Content d parsed rows (e.render d) (e.regrouped d) := by
  by_cases he : e = .empty
  · rw [he, render_empty, regrouped_empty]
    exact .empty
  · exact (h he).content

theorem isClosed_of_reread (h : e ≠ .empty → Reread d parsed rows e) : IsClosed (e.regrouped d) := by
  by_cases he : e = .empty
  · rw [he, regrouped_empty]
    exact isClosed_of_ne (by simp [Expr.empty])
  · exact (h he).closed

theorem loneMark_cases_of (h : Expr.isLoneMark d e = true) :
    ∃ value, e = .literal value ∧ value ∈ Expr.loneMarks d := by
  cases e with
  | literal value => exact ⟨value, rfl, by simpa [Expr.isLoneMark] using h⟩
  | _ => simp [Expr.isLoneMark] at h

/-- In LaTeX the argument of a keyword or a script is read from its group. -/
theorem takes_group (h : e ≠ .empty → ¬Expr.IsLoneArgument .latex parsed e →
      Reread .latex parsed rows e)
    (ha : ∀ value, e = .literal value → value ≠ "^" ∧ value ≠ "_") :
    Solid .latex (e.render .latex) ∧
      Takes .latex parsed rows (latexArgument read) (Expr.braced (e.render .latex))
        (e.regrouped .latex).unwrap fun _ _ _ => True := by
  by_cases hlone : Expr.IsLoneArgument .latex parsed e
  · obtain ⟨rfl, -, hmark⟩ := hlone
    obtain ⟨value, rfl, hvalue⟩ := loneMark_cases_of hmark
    have hs := ha value rfl
    have hprimary : Primary .latex true rows value _ _ := primary_loneMark hvalue hs
    exact ⟨hprimary.solid, takes_loneMark hvalue hs⟩
  · have hcontent := content_of_reread fun he => h he hlone
    exact ⟨hcontent.solid, hcontent.takes_latexArgument⟩

/-- In the legacy dialect the argument of a keyword is a factor. -/
theorem slot_argument (h : e ≠ .empty → Reread .legacy parsed rows e) :
    ∃ v, v.unwrap = (e.regrouped .legacy).unwrap ∧
      Slot .legacy parsed rows .factor (Expr.argument .legacy e (e.render .legacy)) v
        fun c p t => e ≠ .empty → .factor ≤ e.level .legacy → Follows .legacy e c p t := by
  by_cases he : e = .empty
  · subst he
    refine ⟨Expr.empty.grouped, by rw [regrouped_empty]; rfl, ?_⟩
    exact Content.empty.primary_braced.slot.mono fun _ _ _ _ => trivial
  · have hr := h he
    refine ⟨_, unwrap_regroupedOperand hr .factor, ?_⟩
    simp only [Expr.argument, hr.isEmpty, Bool.false_eq_true, if_false]
    exact (hr.operand .factor).mono fun _ _ _ hn => hn he

theorem isEmpty_iff : e.isEmpty = true ↔ e = .empty := by
  cases e <;> simp [Expr.isEmpty, Expr.empty]

/-- In the legacy dialect an atom is a script without a group. -/
theorem takes_atom (h : Reread .legacy parsed rows e) (ha : e.isAtom = true)
    (hr : e.isRelationLiteral = false) :
    Takes .legacy parsed rows (legacyScriptArgument read) (e.render .legacy)
      (e.regrouped .legacy).unwrap Unbarred := by
  have henclosed := h.enclosed
  cases e with
  | literal value =>
    have hv : (Expr.literal value).regrouped .legacy = .literal value :=
      rereadLiteral_of_operand henclosed .legacy
    rw [hv]
    exact (takes_literal henclosed hr).mono fun _ _ _ _ => trivial
  | block name table =>
    obtain ⟨hprimary, hfirst⟩ := henclosed
    refine hprimary.takes_legacyScriptArgument fun o => ?_
    obtain ⟨t, ts, htokens, hk⟩ := hfirst o
    exact ⟨t, ts, htokens, .inr hk⟩
  | bracket sized left right content =>
    obtain ⟨hprimary, hfirst⟩ := henclosed
    have himplicit : ∀ x, (Expr.bracket sized left right x).isImplicit = false := by
      intro x
      cases sized
      · simpa [Expr.isAtom, Expr.isImplicit] using ha
      · simp [Expr.isImplicit]
    have hself : ((Expr.bracket sized left right content).regrouped .legacy).unwrap =
        (Expr.bracket sized left right content).regrouped .legacy := by
      have hflat : ∀ x, (Expr.bracket sized left right x).flatten = .bracket sized left right x := by
        intro x
        cases x <;> simp [Expr.flatten, himplicit]
      simp [Expr.regrouped, hflat, Expr.unwrap, himplicit]
    rw [hself]
    refine hprimary.takes_legacyScriptArgument fun o => ?_
    obtain ⟨t, ts, htokens, ⟨hsized, hopen, htext⟩ | hleft⟩ := hfirst o
    · refine ⟨t, ts, htokens, .inl ⟨hopen, fun hbrace => ?_⟩⟩
      simpa [Expr.isImplicit, hsized, ← htext, hbrace] using himplicit .empty
    · refine ⟨t, ts, htokens, .inr ?_⟩
      by_contra hk
      simp [Token.word?, hk] at hleft
  | _ => simp [Expr.isAtom] at ha

theorem isEmpty_of_ne (h : e ≠ .empty) : e.isEmpty = false :=
  eq_false_of_ne_true (mt isEmpty_iff.1 h)

theorem scriptArgument_sign (hs : value = "+" ∨ value = "-") :
    Expr.scriptArgument .legacy (.literal value) ((Expr.literal value).render .legacy) = value := by
  have hatom : (Expr.literal value).isAtom = true := by obtain rfl | rfl := hs <;> rfl
  rw [Expr.scriptArgument, if_pos ⟨rfl, hatom⟩, Expr.render, renderLiteral_of_isMark (isMark_sign hs)]

/-- A script is read from its group, or in the legacy dialect from what it is by itself. -/
theorem takes_script (h : e ≠ .empty → ¬Expr.IsLoneScript d parsed e → Reread d parsed rows e)
    (ha : d = .latex → ∀ value, e = .literal value → value ≠ "^" ∧ value ≠ "_")
    (hr : d = .legacy → e.isRelationLiteral = false) :
    Solid d (Expr.scriptArgument d e (e.render d)) ∧
      Takes d parsed rows (scriptArgument read) (Expr.scriptArgument d e (e.render d))
        (e.regrouped d).unwrap Unbarred := by
  cases d with
  | latex =>
    have hgroup := takes_group (fun he hl => h he fun hs => hl ⟨hs.1, rfl, hs.2⟩) (ha rfl)
    have htext : Expr.scriptArgument .latex e (e.render .latex) = Expr.braced (e.render .latex) := by
      simp [Expr.scriptArgument]
    rw [htext]
    exact ⟨hgroup.1.braced, takes_scriptArgument_latex (hgroup.2.mono fun _ _ _ _ => trivial)⟩
  | legacy =>
    by_cases hlone : Expr.IsLoneScript .legacy parsed e
    · obtain ⟨value, rfl, hvalue⟩ := loneMark_cases_of hlone.2
      have hsign : value = "+" ∨ value = "-" := by simpa [Expr.loneMarks] using hvalue
      rw [scriptArgument_sign hsign]
      refine ⟨Solid.of_mark (isMark_sign hsign), takes_scriptArgument_legacy ?_⟩
      exact (takes_loneScript hsign).mono fun _ _ _ _ => trivial
    · have hcontent := content_of_reread fun he => h he hlone
      by_cases hatom : e.isAtom = true
      · have he : e ≠ .empty := by
          rintro rfl
          simp [Expr.isAtom, Expr.empty] at hatom
        have htext : Expr.scriptArgument .legacy e (e.render .legacy) = e.render .legacy := by
          simp [Expr.scriptArgument, hatom]
        rw [htext]
        exact ⟨hcontent.solid, takes_scriptArgument_legacy (takes_atom (h he hlone) hatom (hr rfl))⟩
      · have htext : Expr.scriptArgument .legacy e (e.render .legacy) =
            Expr.braced (e.render .legacy) := by
          simp [Expr.scriptArgument, hatom]
        have htakes := hcontent.takes_legacyScriptArgument
        rw [unwrap_grouped (isClosed_of_reread fun he => h he hlone)] at htakes
        rw [htext]
        exact ⟨hcontent.solid.braced,
          takes_scriptArgument_legacy (htakes.mono fun _ _ _ _ => trivial)⟩

end Arguments

section Nodes

theorem operatorWord_fraction (bar : Bool) (hb : ¬(bar = true ∧ d = .latex)) : ∃ text,
    IsOperatorWord d .product (if bar then "over" else "atop") (Expr.fractionWord d bar) .keyword
      text := by
  have hkey : ∃ text, IsKeyword d (Expr.fractionWord d bar) text ∧
      Text.lower text = if bar then "over" else "atop" := by
    cases bar with
    | true =>
      have hd : d = .legacy := by
        cases d with
        | latex => exact absurd ⟨rfl, rfl⟩ hb
        | legacy => rfl
      subst hd
      exact ⟨_, isKeyword_legacy (by decide) (by decide), by decide⟩
    | false =>
      cases d with
      | latex => exact ⟨"atop", isKeyword_latex (by decide) (by decide), by decide⟩
      | legacy =>
        exact ⟨_, isKeyword_legacy (by decide) (by decide), by decide⟩
  obtain ⟨text, hk, hlower⟩ := hkey
  exact ⟨text, operatorWord_keyword hk (by cases bar <;> cases d <;> decide) hlower
    (by cases bar <;> simp)⟩

/-- A fraction that is written between its parts. -/
theorem reread_fraction_between {bar : Bool} {n m : Expr} (hb : ¬(bar = true ∧ d = .latex))
    (hn : Reread d parsed rows n) (hm : Reread d parsed rows m) :
    Reread d parsed rows (.fraction bar n m) := by
  obtain ⟨text, hop⟩ := operatorWord_fraction bar hb
  have hlevel := Expr.level_fraction hb n m
  have hvalue : (Expr.fraction bar n m).regrouped d =
      .fraction bar (n.regrouped d).unwrap (m.regrouped d).unwrap := rfl
  have hslot := slot_operation hop.level.1 hop.level.2 (hn.operand .product) (hm.operand .factor)
    hop.solid hop.ne_empty hop.forms hop.significant hop.reads hop.ends fun c p q _ hle =>
      Follows.of_operator hop hle (fun hs => by cases bar <;> simp at hs) c p
  have hcombine (l r : Expr) : combine (if bar then "over" else "atop") l r =
      .fraction bar l.unwrap r.unwrap := by
    cases bar <;> simp [combine]
  rw [hcombine, unwrap_regroupedOperand hn, unwrap_regroupedOperand hm] at hslot
  refine ⟨?_, isClosed_of_ne (by simp [hvalue]), trivial, rfl⟩
  rw [hlevel, Expr.render_fraction hb, hvalue]
  refine hslot.mono fun c p t hnext => ?_
  have hends := hnext.ends (by simpa [Expr.standsAlone] using hb) hlevel (by decide)
  exact ⟨fun hle => hnext.factor hends.1 hle (Expr.ending_fraction hb n hle), hends⟩

theorem reread_fraction_group {n m : Expr}
    (hn : n ≠ .empty → ¬Expr.IsLoneArgument .latex parsed n → Reread .latex parsed rows n)
    (hm : m ≠ .empty → ¬Expr.IsLoneArgument .latex parsed m → Reread .latex parsed rows m)
    (an : ∀ value, n = .literal value → value ≠ "^" ∧ value ≠ "_")
    (am : ∀ value, m = .literal value → value ≠ "^" ∧ value ≠ "_") :
    Reread .latex parsed rows (.fraction true n m) := by
  obtain ⟨hns, hnt⟩ := takes_group hn an
  obtain ⟨hms, hmt⟩ := takes_group hm am
  have hprimary := primary_fraction hns hms hnt hmt
  have hrender : (Expr.fraction true n m).render .latex =
      "\\frac" ++ (Expr.braced (n.render .latex) ++ Expr.braced (m.render .latex)) := by
    simp [Expr.render, Expr.renderFraction, String.append_assoc]
  have hvalue : (Expr.fraction true n m).regrouped .latex =
      .fraction true (n.regrouped .latex).unwrap (m.regrouped .latex).unwrap := rfl
  refine ⟨?_, isClosed_of_ne (by simp [hvalue]), trivial, rfl⟩
  rw [hrender, hvalue]
  exact hprimary.slot.mono fun _ _ _ _ => trivial

/-- A keyword with one argument: a root or a decoration. -/
theorem reread_root
    (h : e ≠ .empty → ¬Expr.IsLoneArgument d parsed e → Reread d parsed rows e)
    (ha : d = .latex → ∀ value, e = .literal value → value ≠ "^" ∧ value ≠ "_") :
    Reread d parsed rows (.root e) := by
  have hvalue : (Expr.root e).regrouped d = .root (e.regrouped d).unwrap := rfl
  refine ⟨?_, isClosed_of_ne (by simp [hvalue]), trivial, rfl⟩
  rw [hvalue]
  cases d with
  | latex =>
    obtain ⟨hs, ht⟩ := takes_group h (ha rfl)
    exact (primary_root_latex hs ht).slot.mono fun _ _ _ _ => trivial
  | legacy =>
    obtain ⟨v, hv, hslot⟩ := slot_argument (fun he => h he fun hl => by simp [Expr.IsLoneArgument] at hl)
    rw [Expr.render_root_legacy, ← hv]
    refine (primary_root_legacy hslot).slot.mono fun c p t hn => ?_
    have hscript := hn.alone rfl
    exact ⟨fun he hl => hn.factor hscript hl (Expr.ending_root (isEmpty_of_ne he) hl), hscript⟩

theorem reread_decorated (hm : ∃ decoration ∈ Decoration.all, decoration.name = mark)
    (h : e ≠ .empty → ¬Expr.IsLoneArgument d parsed e → Reread d parsed rows e)
    (ha : d = .latex → ∀ value, e = .literal value → value ≠ "^" ∧ value ≠ "_") :
    Reread d parsed rows (.decorated mark e) := by
  obtain ⟨decoration, hd, rfl⟩ := hm
  have hvalue : (Expr.decorated decoration.name e).regrouped d =
      .decorated decoration.name (e.regrouped d).unwrap := rfl
  refine ⟨?_, isClosed_of_ne (by simp [hvalue]), trivial, rfl⟩
  rw [hvalue]
  cases d with
  | latex =>
    obtain ⟨hs, ht⟩ := takes_group h (ha rfl)
    rw [Expr.render_decorated_latex hd]
    exact (primary_decorated_latex hd hs ht).slot.mono fun _ _ _ _ => trivial
  | legacy =>
    obtain ⟨v, hv, hslot⟩ := slot_argument (fun he => h he fun hl => by simp [Expr.IsLoneArgument] at hl)
    rw [Expr.render_decorated_legacy hd, ← hv]
    refine (primary_decorated_legacy hd hslot).slot.mono fun c p t hn => ?_
    have hscript := hn.alone rfl
    exact ⟨fun he hl => hn.factor hscript hl (Expr.ending_decorated _ (isEmpty_of_ne he) hl), hscript⟩

theorem level_of_standsAlone (h : e.standsAlone d = true) :
    e.level d = .factor ∧ e.ending d ≠ .bodiless := by
  cases e with
  | literal value =>
    refine ⟨rfl, ?_⟩
    simp only [Expr.ending]
    split <;> simp
  | binary operator left right =>
    have ho : operator = "apply" := by simpa [Expr.standsAlone] using h
    subst ho
    simp [Expr.level, Expr.isSigned, Level.ofOperator, Expr.ending]
  | fraction bar n m =>
    have hb : bar = true ∧ d = .latex := by simpa [Expr.standsAlone] using h
    simp [Expr.level, Expr.ending, hb]
  | root e =>
    have hd : d = .latex := by simpa [Expr.standsAlone] using h
    simp [Expr.level, Expr.ending, hd]
  | decorated mark e =>
    have hd : d = .latex := by simpa [Expr.standsAlone] using h
    simp [Expr.level, Expr.ending, hd]
  | large => simp [Expr.standsAlone] at h
  | _ => exact ⟨rfl, by simp [Expr.ending]⟩

/-- The base of a script stands alone or in a group. -/
theorem base_of_reread (h : base ≠ .empty → Reread d parsed rows base) (side : Script) :
    ∃ v, v.unwrap = (base.regrouped d).unwrap ∧
      Base d parsed rows side (Expr.scriptBase d base (base.render d)) v := by
  by_cases he : base = .empty
  · subst he
    exact ⟨.empty, by rw [regrouped_empty], base_empty side⟩
  · have hr := h he
    by_cases ha : base.standsAlone d = true
    · obtain ⟨hlevel, hbodiless⟩ := level_of_standsAlone ha
      refine ⟨_, rfl, ?_⟩
      simp only [Expr.scriptBase, hr.isEmpty, Bool.false_eq_true, if_false, ha, if_true]
      have hslot := hr.slot
      rw [hlevel] at hslot
      refine hslot.base fun c p q => ⟨fun hn => by simp [ha] at hn, fun M hM => ?_, fun _ => ?_,
        fun hb => absurd hb hbodiless, fun hbar => ?_⟩
      · exact absurd (hlevel ▸ level_le_factor M) hM
      · cases side <;> exact ⟨rfl, by simp [Token.word?]⟩
      · cases side <;> simp [Expr.scriptMark, Token.isSymbol] at hbar
    · refine ⟨_, unwrap_grouped hr.closed, ?_⟩
      simp only [Expr.scriptBase, hr.isEmpty, Bool.false_eq_true, if_false, ha]
      exact hr.content.primary_braced.slot.base fun _ _ _ => trivial

theorem reread_script (hb : base ≠ .empty → Reread d parsed rows base)
    (ha : argument ≠ .empty → ¬Expr.IsLoneScript d parsed argument →
      Reread d parsed rows argument)
    (hs : d = .latex → ∀ value, argument = .literal value → value ≠ "^" ∧ value ≠ "_")
    (hr : d = .legacy → argument.isRelationLiteral = false) :
    Reread d parsed rows (.script side base argument) := by
  obtain ⟨v, hv, hbase⟩ := base_of_reread hb side
  obtain ⟨hsolid, htakes⟩ := takes_script ha hs hr
  have hslot := slot_script hbase hsolid htakes
  have hvalue : (Expr.script side base argument).regrouped d =
      .script side (base.regrouped d).unwrap (argument.regrouped d).unwrap := rfl
  refine ⟨?_, isClosed_of_ne (by simp [hvalue]), trivial, rfl⟩
  rw [hv] at hslot
  have hrender : (Expr.script side base argument).render d =
      Expr.scriptBase d base (base.render d) ++ (Expr.scriptMark side ++
        Expr.scriptArgument d argument (argument.render d)) := by
    simp [Expr.render, String.append_assoc]
  rw [hrender, hvalue]
  exact hslot.mono fun _ _ _ hn => hn.unbarred

/-- A bound of a large operator is a script. -/
theorem boundText_of_reread {part : Option Expr}
    (h : ∀ e, part = some e → e ≠ .empty → ¬Expr.IsLoneScript d parsed e → Reread d parsed rows e)
    (hs : d = .latex → ∀ value, part = some (.literal value) → value ≠ "^" ∧ value ≠ "_")
    (hr : d = .legacy → ∀ e ∈ part, e.isRelationLiteral = false) (mark : String) :
    BoundText d parsed rows mark (Expr.renderBound d mark part (Expr.renderPart d part))
      (Expr.regroupedPart d part) := by
  cases part with
  | none => exact .absent
  | some e =>
    obtain ⟨hsolid, htakes⟩ := takes_script (h e rfl) (fun hd value he => hs hd value (he ▸ rfl))
      fun hd => hr hd e rfl
    exact .given hsolid htakes

theorem bodyText_of_reread {part : Option Expr}
    (h : ∀ e, part = some e → e ≠ .empty → Reread d parsed rows e) :
    BodyText d parsed rows
      (((Expr.renderPart d part).map fun text => " " ++ Expr.braced text).getD "")
      (Expr.regroupedPart d part) := by
  cases part with
  | none => exact .absent
  | some e =>
    have hbody := BodyText.given (content_of_reread (h e rfl))
    rwa [unwrap_grouped (isClosed_of_reread (h e rfl))] at hbody

theorem reread_large {operator : LargeOperator} {lower upper whole : Option Expr}
    (hl : ∀ e, lower = some e → e ≠ .empty → ¬Expr.IsLoneScript d parsed e → Reread d parsed rows e)
    (hu : ∀ e, upper = some e → e ≠ .empty → ¬Expr.IsLoneScript d parsed e → Reread d parsed rows e)
    (hb : ∀ e, whole = some e → e ≠ .empty → Reread d parsed rows e)
    (sl : d = .latex → ∀ value, lower = some (.literal value) → value ≠ "^" ∧ value ≠ "_")
    (su : d = .latex → ∀ value, upper = some (.literal value) → value ≠ "^" ∧ value ≠ "_")
    (hr : d = .legacy → (∀ e ∈ lower, e.isRelationLiteral = false) ∧
      ∀ e ∈ upper, e.isRelationLiteral = false) :
    Reread d parsed rows (.large operator lower upper whole) := by
  have hprimary := primary_large (boundText_of_reread hl sl (fun hd => (hr hd).1) "_")
    (boundText_of_reread hu su (fun hd => (hr hd).2) "^") (bodyText_of_reread hb) operator
  have hvalue : (Expr.large operator lower upper whole).regrouped d =
      .large operator (Expr.regroupedPart d lower) (Expr.regroupedPart d upper)
        (Expr.regroupedPart d whole) := rfl
  have hrender : (Expr.large operator lower upper whole).render d =
      (if d = .latex then "\\" else "") ++ operator.name ++
        (Expr.renderBound d "_" lower (Expr.renderPart d lower) ++
          Expr.renderBound d "^" upper (Expr.renderPart d upper) ++
          ((Expr.renderPart d whole).map fun text => " " ++ Expr.braced text).getD "") := by
    simp [Expr.render, Expr.renderLarge, String.append_assoc]
  refine ⟨?_, isClosed_of_ne (by simp [hvalue]), trivial, rfl⟩
  rw [hrender, hvalue]
  refine hprimary.slot.mono fun c p t hn => ⟨hn.alone rfl, fun hnone => hn.bodiless ?_⟩
  have hwhole : whole = none := by
    cases whole with
    | none => rfl
    | some e => simp [Expr.regroupedPart] at hnone
  simp [Expr.ending, hwhole]

theorem unifyRow_of_apart {row : List Expr}
    (h : ∀ first second third, row = [first, second, third] → second ≠ .literal "=")
    (cells : List String) : Expr.unifyRow row cells = cells := by
  unfold Expr.unifyRow
  split
  · exact absurd rfl (h _ _ _ rfl)
  · rfl

/-- The cells of a row with something in the last one. -/
theorem rowText_of_reread {row : List Expr} (hne : row ≠ [])
    (hlast : row.getLast? ≠ some .empty)
    (h : ∀ cell ∈ row, cell ≠ .empty → Reread d parsed true cell) :
    RowText d parsed (row.map (Expr.render d)) (row.map (Expr.regrouped d)) := by
  have hslot {cell : Expr} (hc : Reread d parsed true cell) :
      Slot d parsed true .sequence (cell.render d) (cell.regrouped d)
        fun c _ t => c.isBoundary t = true := by
    have hsequence : .sequence ≤ cell.level d := by cases cell.level d <;> decide
    exact (hc.slot.lower hsequence).mono fun _ _ _ hb => .of_isBoundary hb cell _
  induction row with
  | nil => contradiction
  | cons cell row ih =>
    cases row with
    | nil => exact .last (hslot (h cell (by simp) (by simpa using hlast)))
    | cons cell' row =>
      refine .cons ?_ (ih (by simp) (by simpa using hlast) fun x hx => h x (by simp [hx]))
      by_cases he : cell = .empty
      · rw [he, render_empty, regrouped_empty]
        exact .empty
      · exact .filled (hslot (h cell (by simp) he))

theorem lines_of_reread {table : List (List Expr)} (hne : ∀ row ∈ table, row ≠ [])
    (h : ∀ row ∈ table, ∀ cell ∈ row, cell ≠ .empty → Reread d parsed true cell)
    (ha : ∀ row ∈ table, row.getLast? ≠ some .empty ∧
      ∀ first second third, row = [first, second, third] → second ≠ .literal "=") :
    List.Forall₂ (LineText d parsed)
      (List.zipWith Expr.renderRow table (Expr.renderRows d table)) (Expr.regroupedRows d table) := by
  rw [Expr.renderRows_eq, Expr.regroupedRows_eq]
  induction table with
  | nil => exact .nil
  | cons row table ih =>
    obtain ⟨hlast, hunify⟩ := ha row (by simp)
    have hline := (rowText_of_reread (hne row (by simp)) hlast (h row (by simp))).lineText
    refine .cons ?_ (ih (fun x hx => hne x (by simp [hx])) (fun x hx => h x (by simp [hx]))
      fun x hx => ha x (by simp [hx]))
    simpa [Expr.renderRow, unifyRow_of_apart hunify] using hline

theorem reread_block {name : String} {table : List (List Expr)} (hn : Expr.IsBlockName d name)
    (hne : ∀ row ∈ table, row ≠ [])
    (h : ∀ row ∈ table, ∀ cell ∈ row, cell ≠ .empty → Reread d parsed true cell)
    (ha : ∀ row ∈ table, row.getLast? ≠ some .empty ∧
      ∀ first second third, row = [first, second, third] → second ≠ .literal "=") :
    Reread d parsed rows (.block name table) := by
  have hlines := lines_of_reread hne h ha
  have hvalue : (Expr.block name table).regrouped d = .block name (Expr.regroupedRows d table) := rfl
  have hprimary : Primary d parsed rows ((Expr.block name table).render d)
        (.block name (Expr.regroupedRows d table)) (fun _ _ _ => True) ∧
      ∃ text a, Leads d .keyword text a ((Expr.block name table).render d) := by
    cases d with
    | latex =>
      have hforms : Forms .latex Vocabulary.lineBreak.toList .symbol Vocabulary.lineBreak :=
        Forms.escape (c := '\\') (.inl rfl)
      have hw : Solid .latex Vocabulary.lineBreak := .of_chars hforms.whole (by decide)
      obtain ⟨hsolid, -, htokens⟩ := lines_table hw (by decide) hforms
        (fun q => by simp [endsRow, Token.isSymbol]) hlines
      obtain ⟨hblock, a, hleads⟩ := primary_block_latex hn hsolid htokens
      exact ⟨hblock, _, a, hleads⟩
    | legacy =>
      have hm : IsMark "#" := ⟨'#', by decide, rfl⟩
      obtain ⟨hsolid, -, htokens⟩ := lines_table (Solid.of_mark hm) (by decide) hm.forms
        (fun q => by simp [endsRow, Token.isSymbol]) hlines
      exact primary_block_legacy hn hsolid htokens
  obtain ⟨hprimary, text, a, hleads⟩ := hprimary
  refine ⟨?_, isClosed_of_ne (by simp [hvalue]), ⟨?_, fun o => ?_⟩, rfl⟩
  · rw [hvalue]
    exact hprimary.slot.mono fun _ _ _ _ => trivial
  · rw [hvalue]
    exact ⟨hprimary.solid, hprimary.starts, hprimary.takes.mono fun _ _ _ _ => trivial⟩
  · obtain ⟨q, htokens, -⟩ := hleads o
    exact ⟨_, _, htokens, rfl⟩

theorem flatten_eq (sized : Bool) (left right : String) (v : Expr) :
    ∃ x, (Expr.bracket sized left right v).flatten = .bracket sized left right x := by
  cases v with
  | bracket sized' left' right' x =>
    simp only [Expr.flatten]
    split
    · next h =>
      simp only [Prod.mk.injEq] at h
      obtain ⟨-, rfl, rfl, rfl⟩ := h
      exact ⟨x, rfl⟩
    · exact ⟨_, rfl⟩
  | _ => exact ⟨_, rfl⟩

theorem flatten_sized (left right : String) (v : Expr) :
    (Expr.bracket true left right v).flatten = .bracket true left right v := by
  cases v <;> simp [Expr.flatten, Expr.isImplicit]

theorem reread_bracket {left right : String} {content : Expr}
    (hd : Vocabulary.closing? left = some right)
    (h : content ≠ .empty → Reread d parsed rows content) :
    Reread d parsed rows (.bracket false left right content) := by
  have hprimary := (content_of_reread h).primary hd
  have hrender : (Expr.bracket false left right content).render d =
      left ++ (content.render d ++ right) := by
    simp [Expr.render, Expr.renderBracket, String.append_assoc]
  have hvalue : (Expr.bracket false left right content).regrouped d =
      (Expr.bracket false left right (content.regrouped d)).flatten := rfl
  refine ⟨?_, ?_, ⟨?_, fun o => ?_⟩, rfl⟩
  · rw [hrender, hvalue]
    exact hprimary.slot.mono fun _ _ _ _ => trivial
  · obtain ⟨x, hx⟩ := flatten_eq false left right (content.regrouped d)
    rw [hvalue, hx]
    rintro l r y ⟨⟩ (rfl | rfl)
    · exact ⟨rfl, by simpa [Vocabulary.closing?] using hd.symm⟩
    · simp [Vocabulary.closing?] at hd
  · rw [hrender, hvalue]
    exact ⟨hprimary.solid, hprimary.starts, hprimary.takes.mono fun _ _ _ _ => trivial⟩
  · rw [hrender]
    exact ⟨_, _, tokens_mark (isMark_of_closing hd).1 o _,
      .inl ⟨rfl, isOpening_of_closing hd o, rfl⟩⟩

theorem reread_sized {left right : String} {content : Expr}
    (hl : left ∈ Vocabulary.Side.left.delimiters) (hr : right ∈ Vocabulary.Side.right.delimiters)
    (h : content ≠ .empty → Reread d parsed rows content) :
    Reread d parsed rows (.bracket true left right content) := by
  obtain ⟨hprimary, text, a, hlower, hleads⟩ := primary_sized (content_of_reread h) hl hr
  have hvalue : (Expr.bracket true left right content).regrouped d =
      .bracket true left right (content.regrouped d) := flatten_sized _ _ _
  have hrender : (Expr.bracket true left right content).render d =
      Expr.renderBracket d true left right (content.render d) := rfl
  refine ⟨?_, ?_, ⟨?_, fun o => ?_⟩, rfl⟩
  · rw [hrender, hvalue]
    exact hprimary.slot.mono fun _ _ _ hn => hn.unbarred
  · rw [hvalue]
    intro l r x hx
    simp at hx
  · rw [hrender, hvalue]
    exact hprimary
  · obtain ⟨q, htokens, -⟩ := hleads o
    rw [hrender]
    exact ⟨_, _, htokens, .inr (by simp [Token.word?, hlower])⟩

end Nodes

section Expressions

/-- The parts of each node of an expression stay apart. -/
def AllApart (d : Dialect) (e : Expr) : Prop := e.Everywhere (Expr.Apart d)

theorem AllApart.self (h : AllApart d e) : Expr.Apart d e := Expr.Everywhere.self h

theorem AllApart.literal (h : AllApart d e) (hd : d = .latex) (value : String)
    (he : e = .literal value) : value ≠ "^" ∧ value ≠ "_" := by
  subst he
  exact ⟨(h.self hd).1, (h.self hd).2.1⟩

theorem AllApart.binary {operator : String} {left right : Expr}
    (h : AllApart d (.binary operator left right)) : AllApart d left ∧ AllApart d right :=
  (Expr.everywhere_binary.1 h).2

theorem AllApart.fraction {bar : Bool} {n m : Expr} (h : AllApart d (.fraction bar n m)) :
    AllApart d n ∧ AllApart d m :=
  (Expr.everywhere_fraction.1 h).2

theorem AllApart.script (h : AllApart d (.script side base argument)) :
    AllApart d base ∧ AllApart d argument :=
  (Expr.everywhere_script.1 h).2

theorem AllApart.root (h : AllApart d (.root e)) : AllApart d e :=
  (Expr.everywhere_root.1 h).2

theorem AllApart.decorated (h : AllApart d (.decorated mark e)) : AllApart d e :=
  (Expr.everywhere_decorated.1 h).2

theorem AllApart.bracket {sized : Bool} {left right : String}
    (h : AllApart d (.bracket sized left right e)) : AllApart d e :=
  (Expr.everywhere_bracket.1 h).2

theorem AllApart.large {operator : LargeOperator} {lower upper whole : Option Expr}
    (h : AllApart d (.large operator lower upper whole)) :
    (∀ e, lower = some e → AllApart d e) ∧ (∀ e, upper = some e → AllApart d e) ∧
      ∀ e, whole = some e → AllApart d e :=
  (Expr.everywhere_large.1 h).2

theorem AllApart.cell {name : String} {table : List (List Expr)} {row : List Expr}
    (h : AllApart d (.block name table)) (hrow : row ∈ table) (he : e ∈ row) : AllApart d e :=
  (Expr.everywhere_block.1 h).2 row hrow e he

/-- Legible expressions whose parts stay apart are read back, with a group wherever one is written. -/
theorem reread_of_legible (h : Expr.Legible d parsed rows e) (ha : AllApart d e) :
    Reread d parsed rows e := by
  induction h with
  | literal h => exact reread_literal (h fun hlone => (ha.self hlone.2.1).2.2 hlone.2.2)
  | apply hn h ih =>
    refine reread_apply hn (fun hs => ?_) (ih ha.binary.2)
    subst hs
    cases h with
    | bracket hd => exact (isMark_of_closing hd).1
  | signed ho h ih => exact reread_signed ho (ih ha.binary.2)
  | concat hl hr ihl ihr =>
    exact reread_concat (ihl ha.binary.1) (ihr ha.binary.2) (ha.self.1 rfl)
  | operation ho hl hr ihl ihr =>
    exact reread_operation ho (ihl ha.binary.1) (ihr ha.binary.2) ha.self.2
  | @fraction rows bar n m hn hm bn bm ihn ihm =>
    obtain ⟨an, am⟩ := ha.fraction
    by_cases hb : bar = true ∧ d = .latex
    · obtain ⟨rfl, rfl⟩ := hb
      exact reread_fraction_group (fun he hl => ihn he (fun h => hl h.2) an)
        (fun he hl => ihm he (fun h => hl h.2) am) (an.literal rfl) (am.literal rfl)
    · obtain hb' | ⟨hne, hme⟩ := ha.self
      · exact absurd hb' hb
      · refine reread_fraction_between hb (ihn hne (fun h => hb ⟨h.1, h.2.2.1⟩) an)
          (ihm hme (fun h => hb ⟨h.1, h.2.2.1⟩) am)
  | root h b ih => exact reread_root (fun he hl => ih he hl ha.root) ha.root.literal
  | script hb hs bb bs ihb ihs =>
    obtain ⟨abase, aargument⟩ := ha.script
    exact reread_script (fun he => ihb he abase) (fun he hl => ihs he hl aargument)
      aargument.literal ha.self
  | large hl hu hb bl bu bb ihl ihu ihb =>
    obtain ⟨al, au, ab⟩ := ha.large
    exact reread_large (fun e he hne hn => ihl e he hne hn (al e he))
      (fun e he hne hn => ihu e he hne hn (au e he)) (fun e he hne => ihb e he hne (ab e he))
      (fun hd value he => (al _ he).literal hd value rfl)
      (fun hd value he => (au _ he).literal hd value rfl) ha.self
  | decorated hm h b ih =>
    exact reread_decorated hm (fun he hl => ih he hl ha.decorated) ha.decorated.literal
  | block hr h ih =>
    exact reread_block ha.self.1 hr
      (fun row hrow cell hcell hne => ih row hrow cell hcell hne (ha.cell hrow hcell)) ha.self.2
  | bracket hd h b ih => exact reread_bracket hd fun he => ih he ha.bracket
  | sized hl hr h ih => exact reread_sized hl hr fun he => ih he ha.bracket

end Expressions

end MathMarkup.Grammar
