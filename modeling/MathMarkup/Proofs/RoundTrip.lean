import MathMarkup.Proofs.Rereading.Standard

/-! Parsing undoes rendering: a standard expression is parsed from its written form without a note,
and is the same but for implicit groups. -/
namespace MathMarkup

open MathMarkup.Expr

variable {d : Dialect} {e : Expr}

theorem parseText_render_standard (h : Standard d e) :
    (parseText d (e.render d)).notes = [] ∧
      (parseText d (e.render d)).expr.ungrouped = e.ungrouped := by
  refine parseText_render_ungrouped ?_ (fun _ => (h.legible : Legible d false false e)) h.allApart
  intro hp
  contradiction

/-- In LaTeX parsing undoes rendering, but for implicit groups. -/
theorem latex_parse_render (h : Standard .latex e) :
    (parseText .latex (e.render .latex)).notes = [] ∧
      (parseText .latex (e.render .latex)).expr.ungrouped = e.ungrouped :=
  parseText_render_standard h

/-- A power of a fraction, `\\frac{x}{\\alpha}^{n + 1}`. -/
theorem latex_parse_render_power :
    let e : Expr := .script .superscript (.fraction true (.literal "x") (.literal "\\alpha"))
      (.binary "+" (.literal "n") (.literal "1"))
    Standard .latex e ∧ (parseText .latex (e.render .latex)).notes = [] ∧
      (parseText .latex (e.render .latex)).expr.ungrouped = e.ungrouped := by
  have hx : Standard .latex (.literal "x") := .literal (.inl (.inl (by decide +kernel)))
  have hn : Standard .latex (.literal "n") := .literal (.inl (.inl (by decide +kernel)))
  have hone : Standard .latex (.literal "1") := .literal (.inr ⟨by decide, by decide +kernel⟩)
  have halpha : Standard .latex (.literal "\\alpha") :=
    .literal (.inl (.inr ⟨"alpha", by decide +kernel, by decide +kernel, rfl⟩))
  intro e
  have h : Standard .latex e := .script (.fraction (fun _ => hx) (fun _ => halpha) (.inl ⟨rfl, rfl⟩))
    fun _ => .operation (by decide) hn hone
  exact ⟨h, latex_parse_render h⟩

/-- In the legacy dialect parsing undoes rendering, but for implicit groups. -/
theorem legacy_parse_render (h : Standard .legacy e) :
    (parseText .legacy (e.render .legacy)).notes = [] ∧
      (parseText .legacy (e.render .legacy)).expr.ungrouped = e.ungrouped :=
  parseText_render_standard h

/-- A power of a fraction, `{x over "over"}^{n + 1}`: a word that is a keyword stands in quotes. -/
theorem legacy_parse_render_power :
    let e : Expr := .script .superscript (.fraction true (.literal "x") (.literal "over"))
      (.binary "+" (.literal "n") (.literal "1"))
    Standard .legacy e ∧ (parseText .legacy (e.render .legacy)).notes = [] ∧
      (parseText .legacy (e.render .legacy)).expr.ungrouped = e.ungrouped := by
  have hx : Standard .legacy (.literal "x") := .literal (.inl (.inl (by decide +kernel)))
  have hn : Standard .legacy (.literal "n") := .literal (.inl (.inl (by decide +kernel)))
  have hone : Standard .legacy (.literal "1") := .literal (.inr ⟨by decide, by decide +kernel⟩)
  have hover : Standard .legacy (.literal "over") := .literal (.inl (.inl (by decide +kernel)))
  intro e
  have hfraction : Standard .legacy (.fraction true (.literal "x") (.literal "over")) :=
    .fraction (fun _ => hx) (fun _ => hover) (.inr ⟨by simp [Expr.empty], by simp [Expr.empty]⟩)
  have h : Standard .legacy e := .script hfraction fun _ => .operation (by decide) hn hone
  exact ⟨h, legacy_parse_render h⟩

end MathMarkup
