import MathMarkup.Expr.Equality
import MathMarkup.Expr.Render
import MathMarkup.Proofs.Expr.Nodes
import MathMarkup.Proofs.Expr.Shown
import MathMarkup.Proofs.Rereading.Rewritten

/-! Decorations whose mark names none. The mark is left out, but what bears it is still written as one
factor. So the text is that of the expression without these decorations up to groups, blanks and the
marks between the cells of a row, and it is the same text where the bare expression would be written
in the same way. -/
namespace MathMarkup.Expr

mutual

/-- Without the decorations whose mark names none, at any depth. -/
@[simp] def undecorated : Expr → Expr
  | .literal value => .literal value
  | .binary operator left right => .binary operator left.undecorated right.undecorated
  | .fraction bar numerator denominator =>
    .fraction bar numerator.undecorated denominator.undecorated
  | .root radicand => .root radicand.undecorated
  | .script side base argument => .script side base.undecorated argument.undecorated
  | .large operator lower upper body =>
    .large operator (undecoratedPart lower) (undecoratedPart upper) (undecoratedPart body)
  | .decorated mark child =>
    if (Decoration.ofName? mark).isSome then .decorated mark child.undecorated
    else child.undecorated
  | .block name rows => .block name (undecoratedRows rows)
  | .bracket sized left right content => .bracket sized left right content.undecorated

@[simp] def undecoratedPart : Option Expr → Option Expr
  | none => none
  | some e => some e.undecorated

@[simp] def undecoratedRows : List (List Expr) → List (List Expr)
  | [] => []
  | row :: rows => undecoratedRow row :: undecoratedRows rows

@[simp] def undecoratedRow : List Expr → List Expr
  | [] => []
  | cell :: cells => cell.undecorated :: undecoratedRow cells

end

theorem undecoratedPart_eq (part : Option Expr) : undecoratedPart part = part.map undecorated := by
  cases part <;> simp

theorem undecoratedRow_eq (row : List Expr) : undecoratedRow row = row.map undecorated := by
  induction row with
  | nil => simp
  | cons cell cells ih => simp [ih]

theorem undecoratedRows_eq (rows : List (List Expr)) :
    undecoratedRows rows = rows.map fun row => row.map undecorated := by
  induction rows with
  | nil => simp
  | cons row rows ih => simp [undecoratedRow_eq, ih]

/-- A decoration whose mark names none. -/
def isUnnamed : Expr → Bool
  | .decorated mark _ => (Decoration.ofName? mark).isNone
  | _ => false

/-- What a part is to its node, where that decides on groups or blanks. -/
inductive Role where
  | operand (level : Level)
  | addend
  | beside
  | applied
  | base
  | script
  | argument
  | middle

/-- Whether an expression is written in a role as it is under a mark that is left out. -/
def Role.fits (d : Dialect) (bare : Expr) : Role → Bool
  | .operand level => level ≤ bare.level d
  | .addend => .sum ≤ bare.level d && !bare.isEmpty
  | .beside => .relation ≤ bare.level d && !bare.isSigned && !bare.isPunctuation
  | .applied => !bare.isPlainBracket
  | .base => bare.standsAlone d = decide (d = .latex)
  | .script => d = .latex || !bare.isAtom
  | .argument => d = .latex || (.factor ≤ bare.level d && !bare.isEmpty)
  | .middle => bare ≠ .literal "="

/-- The parts of a node and their roles. -/
def roles (d : Dialect) : Expr → List (Role × Expr)
  | .literal _ | .bracket .. => []
  | .binary operator left right =>
    if operator = "apply" then [(.applied, right)]
    else if operator = "concat" then [(.beside, right)]
    else
      let level := Level.ofOperator operator
      [(if level = .sum then .addend else .operand level, left),
        (.operand (if (Expr.binary operator left right).isSigned then .factor else level.next),
          right)]
  | .fraction bar numerator denominator =>
    if bar ∧ d = .latex then []
    else [(.operand .product, numerator), (.operand .factor, denominator)]
  | .root radicand => [(.argument, radicand)]
  | .script _ base argument => [(.base, base), (.script, argument)]
  | .large _ lower upper _ => (lower.toList ++ upper.toList).map (.script, ·)
  | .decorated mark child => if (Decoration.ofName? mark).isSome then [(.argument, child)] else []
  | .block _ rows => rows.flatMap fun
    | [_, cell, _] => [(.middle, cell)]
    | _ => []

/-- Each part under a mark that is left out is one that could stand there bare. -/
def Suited (d : Dialect) (node : Expr) : Prop :=
  ∀ part ∈ node.roles d, part.2.isUnnamed = true → part.1.fits d part.2.undecorated = true

instance (d : Dialect) (node : Expr) : Decidable (Suited d node) :=
  inferInstanceAs (Decidable (∀ part ∈ node.roles d, _))

variable {d : Dialect} {e left right child : Expr} {L : Level} {operator mark : String}

section Tests

/-- What is asked of a node apart from its level has the same answers for both. -/
structure SameKind (v e : Expr) : Prop where
  isEmpty : v.isEmpty = e.isEmpty
  isPunctuation : v.isPunctuation = e.isPunctuation
  isPlainBracket : v.isPlainBracket = e.isPlainBracket
  isAtom : v.isAtom = e.isAtom
  standsAlone : ∀ d, v.standsAlone d = e.standsAlone d
  literal : ∀ value, v = .literal value ↔ e = .literal value

theorem undecorated_of_named (h : (decorated mark child).isUnnamed = false) :
    (decorated mark child).undecorated = .decorated mark child.undecorated := by
  simp only [isUnnamed, Option.isNone_eq_false_iff] at h
  simp [h]

theorem sameKind_undecorated (h : e.isUnnamed = false) : SameKind e.undecorated e := by
  cases e with
  | decorated mark child =>
    rw [undecorated_of_named h]
    constructor <;> simp [isEmpty, isPunctuation, isPlainBracket, isAtom, standsAlone]
  | _ =>
    constructor <;>
      simp [isEmpty, isPunctuation, isPlainBracket, isAtom, standsAlone, isImplicit]

/-- What is asked of a decoration apart from its level. -/
theorem unnamed_cases (h : e.isUnnamed = true) : ∃ mark child, e = .decorated mark child ∧
    Decoration.ofName? mark = none ∧ e.undecorated = child.undecorated := by
  cases e with
  | decorated mark child =>
    have hnone : Decoration.ofName? mark = none := by simpa [isUnnamed] using h
    exact ⟨mark, child, rfl, hnone, by simp [hnone]⟩
  | _ => simp [isUnnamed] at h

end Tests

section Roles

/-- The same text without the decorations, and a sign in front only where there was one. -/
structure Stable (d : Dialect) (e : Expr) : Prop where
  render : e.undecorated.render d = e.render d
  isSigned : e.isUnnamed = false → e.undecorated.isSigned = e.isSigned

theorem Stable.level (h : Stable d e) (hu : e.isUnnamed = false) :
    e.undecorated.level d = e.level d := by
  have hs := h.isSigned hu
  cases e with
  | decorated mark child => rw [undecorated_of_named hu]; rfl
  | binary operator left right =>
    simp only [undecorated] at hs ⊢
    simp only [Expr.level, hs]
  | _ => simp [Expr.level]

/-- What is not so of any decoration, and of no expression that stands bare in place of one. -/
theorem asked_undecorated {ask : Expr → Bool}
    (hmark : ∀ mark child, ask (.decorated mark child) = false)
    (hsame : e.isUnnamed = false → ask e.undecorated = ask e)
    (hbare : e.isUnnamed = true → ask e.undecorated = false) : ask e.undecorated = ask e := by
  cases hu : e.isUnnamed with
  | false => exact hsame hu
  | true =>
    obtain ⟨mark, child, rfl, -, -⟩ := unnamed_cases hu
    rw [hbare hu, hmark]

theorem isEmpty_undecorated (hbare : e.isUnnamed = true → e.undecorated.isEmpty = false) :
    e.undecorated.isEmpty = e.isEmpty :=
  asked_undecorated (fun _ _ => rfl) (fun hu => (sameKind_undecorated hu).isEmpty) hbare

section Stable

variable (h : Stable d e)
include h

theorem Stable.le_level (hp : e.isUnnamed = true → L ≤ e.undecorated.level d) :
    L ≤ e.undecorated.level d ↔ L ≤ e.level d := by
  cases hu : e.isUnnamed with
  | false => rw [h.level hu]
  | true =>
    obtain ⟨mark, child, rfl, -, -⟩ := unnamed_cases hu
    exact iff_of_true (hp hu) (Grammar.level_le_factor L)

theorem Stable.operand (hp : e.isUnnamed = true → L ≤ e.undecorated.level d) :
    Expr.operand d L e.undecorated (e.undecorated.render d) = Expr.operand d L e (e.render d) := by
  rw [operand_render, operand_render, h.render]
  exact if_congr (h.le_level hp) rfl rfl

theorem Stable.base (hp : e.isUnnamed = true → Role.base.fits d e.undecorated = true) :
    scriptBase d e.undecorated (e.undecorated.render d) = scriptBase d e (e.render d) := by
  rw [scriptBase_render, scriptBase_render, h.render]
  cases hu : e.isUnnamed with
  | false => rw [(sameKind_undecorated hu).standsAlone]
  | true =>
    have hfits : e.undecorated.standsAlone d = decide (d = .latex) := by
      simpa [Role.fits] using hp hu
    obtain ⟨mark, child, rfl, -, -⟩ := unnamed_cases hu
    rw [hfits]
    rfl

theorem Stable.script (hp : e.isUnnamed = true → Role.script.fits d e.undecorated = true) :
    scriptArgument d e.undecorated (e.undecorated.render d) = scriptArgument d e (e.render d) := by
  rw [scriptArgument, scriptArgument, h.render]
  cases d with
  | latex => rfl
  | legacy =>
    have hatom : e.undecorated.isAtom = e.isAtom :=
      asked_undecorated (fun _ _ => rfl) (fun hu => (sameKind_undecorated hu).isAtom) fun hu => by
        simpa [Role.fits] using hp hu
    rw [hatom]

theorem Stable.argument (hp : e.isUnnamed = true → Role.argument.fits d e.undecorated = true) :
    Expr.argument d e.undecorated (e.undecorated.render d) = Expr.argument d e (e.render d) := by
  cases d with
  | latex => rw [Expr.argument, Expr.argument, h.render]
  | legacy =>
    have hfits (hu : e.isUnnamed = true) : Level.factor ≤ e.undecorated.level .legacy ∧
        e.undecorated.isEmpty = false := by
      simpa [Role.fits] using hp hu
    rw [Expr.argument, Expr.argument, isEmpty_undecorated fun hu => (hfits hu).2,
      h.operand fun hu => (hfits hu).1]

theorem Stable.besideText
    (hp : e.isUnnamed = true → Role.beside.fits d e.undecorated = true) :
    Expr.besideText d e.undecorated = Expr.besideText d e ∧
      e.undecorated.isPunctuation = e.isPunctuation := by
  have hfits (hu : e.isUnnamed = true) : (Level.relation ≤ e.undecorated.level d ∧
      e.undecorated.isSigned = false) ∧ e.undecorated.isPunctuation = false := by
    simpa [Role.fits] using hp hu
  have hsigned : e.undecorated.isSigned = e.isSigned :=
    asked_undecorated (fun _ _ => rfl) h.isSigned fun hu => (hfits hu).1.2
  refine ⟨?_, asked_undecorated (fun _ _ => rfl)
    (fun hu => (sameKind_undecorated hu).isPunctuation) fun hu => (hfits hu).2⟩
  rw [Expr.besideText, Expr.besideText, hsigned, h.operand fun hu => (hfits hu).1.1, h.render]

end Stable

end Roles

section Operations

theorem roles_joined (ha : operator ≠ "apply") (hc : operator ≠ "concat") (left right : Expr) :
    (Expr.binary operator left right).roles d =
      [(if Level.ofOperator operator = .sum then .addend else .operand (.ofOperator operator), left),
        (.operand (if (Expr.binary operator left right).isSigned then .factor
          else (Level.ofOperator operator).next), right)] := by
  simp [roles, ha, hc]

variable (hl : Stable d left) (hr : Stable d right)
include hl hr

theorem Stable.apply (hs : Suited d (.binary "apply" left right)) :
    Stable d (.binary "apply" left right) := by
  have hp := hs (.applied, right) (by simp [roles])
  have hbracket : right.undecorated.isPlainBracket = right.isPlainBracket :=
    asked_undecorated (fun _ _ => rfl) (fun hu => (sameKind_undecorated hu).isPlainBracket)
      fun hu => by simpa [Role.fits] using hp hu
  refine ⟨?_, fun _ => rfl⟩
  simp only [undecorated, Expr.render, renderBinary, if_true, hbracket, hl.render, hr.render]

theorem Stable.concat (hs : Suited d (.binary "concat" left right)) :
    Stable d (.binary "concat" left right) := by
  obtain ⟨htext, hmark⟩ := hr.besideText (hs (.beside, right) (by simp [roles]))
  refine ⟨?_, fun _ => rfl⟩
  rw [undecorated, render_beside, render_beside, htext, hmark, hl.render]

theorem Stable.joined (ha : operator ≠ "apply") (hc : operator ≠ "concat")
    (hs : Suited d (.binary operator left right)) : Stable d (.binary operator left right) := by
  simp only [Suited, roles_joined ha hc, List.forall_mem_cons] at hs
  obtain ⟨hleft, hright, -⟩ := hs
  have hfits (hu : left.isUnnamed = true) : .ofOperator operator ≤ left.undecorated.level d ∧
      (.ofOperator operator = Level.sum → left.undecorated.isEmpty = false) := by
    have hp := hleft hu
    by_cases hsum : .ofOperator operator = Level.sum
    · simpa [Role.fits, hsum] using hp
    · simpa [Role.fits, hsum] using hp
  have hsigned : (Expr.binary operator left.undecorated right.undecorated).isSigned =
      (Expr.binary operator left right).isSigned := by
    by_cases ho : operator = "+" ∨ operator = "-"
    · have hsum : .ofOperator operator = Level.sum := by obtain rfl | rfl := ho <;> rfl
      simp only [Expr.isSigned, isEmpty_undecorated fun hu => (hfits hu).2 hsum]
    · obtain ⟨hplus, hminus⟩ := not_or.1 ho
      simp [Expr.isSigned, hplus, hminus]
  refine ⟨?_, fun _ => hsigned⟩
  rw [undecorated, render_joined ha hc, render_joined ha hc, hsigned]
  split
  · next h => rw [hr.operand (by simpa [h, Role.fits] using hright)]
  · next h =>
    rw [hl.operand fun hu => (hfits hu).1, hr.operand (by simpa [h, Role.fits] using hright)]

theorem Stable.binary (hs : Suited d (.binary operator left right)) :
    Stable d (.binary operator left right) := by
  by_cases ha : operator = "apply"
  · subst ha
    exact hl.apply hr hs
  · by_cases hc : operator = "concat"
    · subst hc
      exact hl.concat hr hs
    · exact hl.joined hr ha hc hs

end Operations

section Nodes

theorem Stable.fraction {bar : Bool} (hl : Stable d left) (hr : Stable d right)
    (hs : Suited d (.fraction bar left right)) : Stable d (.fraction bar left right) := by
  refine ⟨?_, fun _ => rfl⟩
  simp only [undecorated, Expr.render, renderFraction]
  split
  · rw [hl.render, hr.render]
  · next hb =>
    simp only [Suited, roles, hb, if_false, List.forall_mem_cons] at hs
    rw [hl.operand (by simpa [Role.fits] using hs.1),
      hr.operand (by simpa [Role.fits] using hs.2.1)]

theorem Stable.decorated (hc : Stable d child) (hs : Suited d (.decorated mark child)) :
    Stable d (.decorated mark child) := by
  cases hu : (Expr.decorated mark child).isUnnamed with
  | true =>
    obtain ⟨_, _, heq, hnone, hbare⟩ := unnamed_cases hu
    obtain ⟨rfl, rfl⟩ := Expr.decorated.inj heq
    refine ⟨?_, fun h => by simp [hu] at h⟩
    simp only [hbare, hc.render, Expr.render, renderDecorated, hnone]
  | false =>
    have hbare := undecorated_of_named hu
    rw [isUnnamed, Option.isNone_eq_false_iff] at hu
    have hargument := hc.argument (hs (.argument, child) (by simp [roles, hu]))
    refine ⟨?_, fun _ => by rw [hbare]; rfl⟩
    simp only [hbare, Expr.render, renderDecorated, hargument]
    split
    · next hnone => simp [hnone] at hu
    · rfl
    · rfl

theorem renderBound_undecorated {part : Option Expr} (h : ∀ e, part = some e → Stable d e)
    (hs : ∀ e, part = some e → e.isUnnamed = true → Role.script.fits d e.undecorated = true)
    (mark : String) :
    renderBound d mark (part.map undecorated) ((part.map undecorated).map (Expr.render d)) =
      renderBound d mark part (part.map (Expr.render d)) := by
  cases part with
  | none => rfl
  | some e => exact congrArg (mark ++ ·) ((h e rfl).script (hs e rfl))

theorem Stable.large {operator : LargeOperator} {lower upper body : Option Expr}
    (hl : ∀ e, lower = some e → Stable d e) (hu : ∀ e, upper = some e → Stable d e)
    (hb : ∀ e, body = some e → Stable d e) (hs : Suited d (.large operator lower upper body)) :
    Stable d (.large operator lower upper body) := by
  have hlower := renderBound_undecorated hl
    (fun e he => hs (.script, e) (by simp [roles, he])) "_"
  have hupper := renderBound_undecorated hu
    (fun e he => hs (.script, e) (by simp [roles, he])) "^"
  have hbody : (body.map undecorated).map (Expr.render d) = body.map (Expr.render d) := by
    cases body with
    | none => rfl
    | some e => exact congrArg some (hb e rfl).render
  refine ⟨?_, fun _ => rfl⟩
  simp only [undecorated, Expr.render, renderLarge, renderPart_eq, undecoratedPart_eq, hlower,
    hupper, hbody]

theorem Stable.block {name : String} {rows : List (List Expr)}
    (h : ∀ row ∈ rows, ∀ cell ∈ row, Stable d cell) (hs : Suited d (.block name rows)) :
    Stable d (.block name rows) := by
  refine ⟨?_, fun _ => rfl⟩
  simp only [undecorated, undecoratedRows_eq, Expr.render]
  refine renderBlock_map (fun row hrow => ?_) name
  refine renderRow_map (fun cell hcell => (h row hrow cell hcell).render) ?_
  rintro first second third rfl
  cases hu : second.isUnnamed with
  | false => exact (sameKind_undecorated hu).literal _
  | true =>
    have hfits : second.undecorated ≠ .literal "=" := by
      have hrole : (Role.middle, second) ∈ (Expr.block name rows).roles d :=
        List.mem_flatMap.2 ⟨_, hrow, by simp⟩
      simpa [Role.fits] using hs _ hrole hu
    obtain ⟨mark, child, rfl, -, -⟩ := unnamed_cases hu
    exact iff_of_false hfits (by simp)

theorem stable (h : Everywhere (Suited d) e) : Stable d e := by
  induction e using Expr.induction with
  | literal value => exact ⟨rfl, fun _ => rfl⟩
  | binary operator left right hl hr =>
    obtain ⟨hs, hleft, hright⟩ := everywhere_binary.1 h
    exact (hl hleft).binary (hr hright) hs
  | fraction bar left right hl hr =>
    obtain ⟨hs, hleft, hright⟩ := everywhere_fraction.1 h
    exact (hl hleft).fraction (hr hright) hs
  | root e ih =>
    obtain ⟨hs, he⟩ := everywhere_root.1 h
    refine ⟨?_, fun _ => rfl⟩
    simp only [undecorated, Expr.render, renderRoot]
    rw [(ih he).argument (hs (.argument, e) (by simp [roles]))]
  | script side base arg hb ha =>
    obtain ⟨hs, hbase, harg⟩ := everywhere_script.1 h
    refine ⟨?_, fun _ => rfl⟩
    simp only [undecorated, Expr.render]
    rw [(hb hbase).base (hs (.base, base) (by simp [roles])),
      (ha harg).script (hs (.script, arg) (by simp [roles]))]
  | large operator lower upper body hl hu hb =>
    obtain ⟨hs, hlower, hupper, hbody⟩ := everywhere_large.1 h
    exact .large (fun e he => hl e he (hlower e he)) (fun e he => hu e he (hupper e he))
      (fun e he => hb e he (hbody e he)) hs
  | decorated mark child ih =>
    obtain ⟨hs, hchild⟩ := everywhere_decorated.1 h
    exact (ih hchild).decorated hs
  | block name rows ih =>
    obtain ⟨hs, hcells⟩ := everywhere_block.1 h
    exact .block (fun row hrow cell hcell => ih row hrow cell hcell (hcells row hrow cell hcell)) hs
  | bracket sized left right content ih =>
    obtain ⟨-, hcontent⟩ := everywhere_bracket.1 h
    refine ⟨?_, fun _ => rfl⟩
    simp only [undecorated, Expr.render, (ih hcontent).render]

end Nodes

section Main

theorem shown_undecorated (d : Dialect) (e : Expr) :
    shown (e.undecorated.render d) = shown (e.render d) := by
  induction e using Expr.induction with
  | literal value => rfl
  | binary operator left right hl hr => rw [undecorated, shown_binary, shown_binary, hl, hr]
  | fraction bar left right hl hr => rw [undecorated, shown_fraction, shown_fraction, hl, hr]
  | root e ih => rw [undecorated, shown_root, shown_root, ih]
  | script side base arg hb ha => rw [undecorated, shown_script, shown_script, hb, ha]
  | large operator lower upper body hl hu hb =>
    have hpart {part : Option Expr} (mark : List Char)
        (h : ∀ e, part = some e → shown (e.undecorated.render d) = shown (e.render d)) :
        ((part.map undecorated).elim [] fun e => mark ++ shown (e.render d)) =
          part.elim [] fun e => mark ++ shown (e.render d) := by
      cases part with
      | none => rfl
      | some e => exact congrArg (mark ++ ·) (h e rfl)
    simp only [undecorated, undecoratedPart_eq, shown_large]
    rw [hpart _ hl, hpart _ hu]
    exact congrArg _ (congrArg _ (congrArg _ (hpart [] hb)))
  | decorated mark child ih =>
    cases hmark : Decoration.ofName? mark with
    | none => simp [hmark, shown_decorated, ih]
    | some decoration => simp [hmark, shown_decorated, ih]
  | block name rows ih =>
    have hcells : (rows.map fun row => row.map undecorated).map
        (fun row => row.flatMap fun cell => shown (cell.render d)) =
          rows.map fun row => row.flatMap fun cell => shown (cell.render d) := by
      rw [List.map_map]
      refine List.map_congr_left fun row hrow => ?_
      rw [Function.comp_apply, List.flatMap_map]
      exact List.flatMap_congr fun cell hcell => ih row hrow cell hcell
    rw [undecorated, shown_block, shown_block, undecoratedRows_eq, hcells]
  | bracket sized left right content ih => rw [undecorated, shown_bracket, shown_bracket, ih]

/-- A mark that names no decoration changes no more than groups, blanks and the marks between cells.
It changes nothing where each bare expression would be written as it is under its mark. -/
theorem render_undecorated (d : Dialect) (e : Expr) :
    shown (e.undecorated.render d) = shown (e.render d) ∧
      (Everywhere (Suited d) e → e.undecorated.render d = e.render d) :=
  ⟨shown_undecorated d e, fun h => (stable h).render⟩

/-- A product as an addend and a sign in a script, the sign under two marks. -/
theorem render_undecorated_addend :
    Everywhere (Suited .legacy) (.binary "+"
      (.decorated "blink" (.binary "*" (.literal "a") (.literal "b")))
      (.script .superscript (.literal "x")
        (.decorated "blink" (.decorated "blonk" (.binary "-" empty (.literal "y")))))) ∧
    (Expr.binary "+" (.binary "*" (.literal "a") (.literal "b"))
      (.script .superscript (.literal "x") (.binary "-" empty (.literal "y")))).render .legacy =
        (Expr.binary "+" (.decorated "blink" (.binary "*" (.literal "a") (.literal "b")))
          (.script .superscript (.literal "x")
            (.decorated "blink" (.decorated "blonk"
              (.binary "-" empty (.literal "y")))))).render .legacy := by
  have hsuited : Everywhere (Suited .legacy) (.binary "+"
      (.decorated "blink" (.binary "*" (.literal "a") (.literal "b")))
      (.script .superscript (.literal "x")
        (.decorated "blink" (.decorated "blonk" (.binary "-" empty (.literal "y")))))) := by
    decide +kernel
  exact ⟨hsuited, (render_undecorated .legacy _).2 hsuited⟩

/-- A sum under a mark is one factor, so that it stands in a product without the group that it needs. A
letter under one stands in a group of its own in front of a legacy script. -/
theorem render_undecorated_factor :
    (Expr.binary "*" (.decorated "blink" (.binary "+" (.literal "a") (.literal "b")))
      (.literal "c")).render .latex = "a + b * c" ∧
    (Expr.binary "*" (.decorated "blink" (.binary "+" (.literal "a") (.literal "b")))
      (.literal "c")).undecorated.render .latex = "\x7ba + b\x7d * c" ∧
    (Expr.script .superscript (.decorated "blink" (.literal "a")) (.literal "2")).render .legacy =
      "\x7ba\x7d^2" ∧
    (Expr.script .superscript (.decorated "blink" (.literal "a"))
      (.literal "2")).undecorated.render .legacy = "a^2" := by
  decide +kernel

end Main

end MathMarkup.Expr
