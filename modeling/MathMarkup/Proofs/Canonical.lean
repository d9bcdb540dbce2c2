import MathMarkup.Conversion.Canonical
import MathMarkup.Expr.Equality
import MathMarkup.Proofs.Rereading.Standard
import MathMarkup.Proofs.Rereading.Steady
import MathMarkup.Proofs.Translation

/-! Canonical forms. A text whose parts stay apart where they are written again has a canonical form that
is its own, and that comes back from the other dialect. Neither holds of a word under a legacy root, under a
decoration or at the end of a fraction with a bracket after it: written again, the word is applied to it. -/
namespace MathMarkup

open MathMarkup.Expr Grammar
open Scan (QuotesWords)

variable {d source target : Dialect} {s : String} {e : Expr}

section Rereading

/-- What a text is parsed into is written as what its canonical form is parsed into. -/
theorem matches_parsed (h : (parseText d s).notes = []) (hq : d = .legacy → QuotesWords s) :
    Matches d ((parseText d s).expr.regrouped d) (parseText d s).expr :=
  .of_content fun hne => matches_of_legible (legible_of_parseText hq h hne)

/-- What the canonical form of a text is parsed into. -/
theorem parse_canonical (h : (parseText d s).notes = []) (hq : d = .legacy → QuotesWords s)
    (ha : AllApart d (parseText d s).expr) :
    (parseText d (canonical d s)).expr = (parseText d s).expr.regrouped d :=
  (parseText_render (legible_of_parseText hq h) ha).1

end Rereading

section OneDialect

/-- A text whose parts stay apart has a canonical form of its own. -/
theorem canonical_canonical (h : (parseText d s).notes = []) (hq : d = .legacy → QuotesWords s)
    (ha : AllApart d (parseText d s).expr) :
    canonical d (canonical d s) = canonical d s := by
  have hexpr := parse_canonical h hq ha
  calc
    canonical d (canonical d s)
      = (parseText d (canonical d s)).expr.render d := rfl
    _ = ((parseText d s).expr.regrouped d).render d := by rw [hexpr]
    _ = (parseText d s).expr.render d := (matches_parsed h hq).render

theorem canonical_canonical_fraction :
    canonical .legacy "x  over \x7by+1\x7d" = "x over \x7by + 1\x7d" ∧
      canonical .legacy (canonical .legacy "x  over \x7by+1\x7d") =
        canonical .legacy "x  over \x7by+1\x7d" := by
  have hexpr : (parseText .legacy "x  over \x7by+1\x7d").expr =
      .fraction true (.literal "x") (.binary "+" (.literal "y") (.literal "1")) := by
    decide +kernel
  have hx : Standard .legacy (.literal "x") := .literal (.inl (.inl (by decide +kernel)))
  have hy : Standard .legacy (.literal "y") := .literal (.inl (.inl (by decide +kernel)))
  have hone : Standard .legacy (.literal "1") := .literal (.inr ⟨by decide, by decide +kernel⟩)
  have hstandard : Standard .legacy (parseText .legacy "x  over \x7by+1\x7d").expr := by
    rw [hexpr]
    exact .fraction (fun _ => hx) (fun _ => .operation (by decide) hy hone)
      (.inr ⟨by simp [Expr.empty], by simp [Expr.empty]⟩)
  refine ⟨by decide +kernel, canonical_canonical (by decide +kernel) (fun _ => ?_) hstandard.allApart⟩
  exact (by decide +kernel : ∀ t ∈ tokenize .legacy "x  over \x7by+1\x7d",
    t.text.toList.head? = some '"' → IsWord (identifierValue .legacy t.text))

/-- Written without its braces, a word under a root takes the bracket after it as its argument. -/
theorem canonical_root_word :
    (parseText .legacy "sqrt \x7bf\x7d (x)").notes = [] ∧
      canonical .legacy "sqrt \x7bf\x7d (x)" = "sqrt f (x)" ∧
      canonical .legacy (canonical .legacy "sqrt \x7bf\x7d (x)") = "sqrt f(x)" := by
  decide +kernel

end OneDialect

section BothDialects

/-- The canonical form of a text comes back from the target, if all its literals stand there too, its
canonical form has parts that stay apart there, and no LaTeX fraction stands where only LaTeX has a factor. -/
theorem crossRoundTrip_fixed (h : (parseText source s).notes = [])
    (hq : source = .legacy → QuotesWords s) (ha : AllApart source (parseText source s).expr)
    (hs : (parseText source s).expr.Everywhere (StandsIn target))
    (hf : source = .latex → (parseText source s).expr.Everywhere NoFractionFactor)
    (hb : AllApart target (parseText source (canonical source s)).expr) :
    (crossRoundTrip source target s).2 = (crossRoundTrip source target s).1 := by
  have hlegible := legible_of_parseText hq h
  have hmatches := matches_parsed h hq
  have hthere := parse_canonical h hq ha
  rw [hthere] at hb
  generalize hv : (parseText source s).expr.regrouped source = v at hmatches hthere hb
  have hsteady : (parseText source s).expr.Everywhere (IsSteady source) := fun x hx =>
    ⟨not_loneMark_of_standsIn (hs x hx) source, fun hd => hf hd x hx⟩
  have hagain : v.regrouped target = v := by
    rw [← hv]
    exact content_again fun hne => regrouped_again (hlegible hne) hsteady target
  have hlegible' (hne : v ≠ .empty) : Legible target false false v := by
    rw [← hv] at hne ⊢
    refine ((hlegible fun he => hne ?_).carried hs).regrouped source
    rw [he, regrouped_empty]
  have hback : (parseText target (v.render target)).expr = v := by
    rw [(parseText_render hlegible' hb).1, hagain]
  simp only [crossRoundTrip, respelled]
  rw [hthere, hback, hmatches.render]
  rfl

theorem crossRoundTrip_fixed_sum :
    (crossRoundTrip .latex .legacy "\\frac x2+\\sqrt\\alpha").2 =
      (crossRoundTrip .latex .legacy "\\frac x2+\\sqrt\\alpha").1 := by
  have hexpr : (parseText .latex "\\frac x2+\\sqrt\\alpha").expr =
      .binary "+" (.fraction true (.literal "x") (.literal "2")) (.root (.literal "\\alpha")) := by
    decide +kernel
  have hcanonical : (parseText .latex (canonical .latex "\\frac x2+\\sqrt\\alpha")).expr =
      .binary "+" (.fraction true (.literal "x") (.literal "2")) (.root (.literal "\\alpha")) := by
    decide +kernel
  have halpha : ∀ d, IsName d "\\alpha" := by
    intro d
    cases d with
    | latex => exact .inr ⟨"alpha", by decide +kernel, by decide +kernel, rfl⟩
    | legacy => exact .inr (by decide +kernel)
  have hstandard (d : Dialect) : Standard d
      (.binary "+" (.fraction true (.literal "x") (.literal "2")) (.root (.literal "\\alpha"))) := by
    have hx : Standard d (.literal "x") := .literal (.inl (.inl (by decide +kernel)))
    have htwo : Standard d (.literal "2") := .literal (.inr ⟨by decide, by decide +kernel⟩)
    refine .operation (by decide) (.fraction (fun _ => hx) (fun _ => htwo) (.inr ?_))
      (.root fun _ => .literal (.inl (halpha d)))
    simp [Expr.empty]
  have hportable : (parseText .latex "\\frac x2+\\sqrt\\alpha").expr.Portable := by
    rw [hexpr]
    refine everywhere_binary.2 ⟨trivial, everywhere_fraction.2 ⟨trivial, ?_, ?_⟩,
      everywhere_root.2 ⟨trivial, ?_⟩⟩ <;> refine everywhere_literal.2 ?_
    · exact .inr (.inl (.inl (by decide +kernel)))
    · exact .inr (.inr (.inl ⟨by decide, by decide +kernel⟩))
    · exact .inr (.inl (halpha .legacy))
  refine crossRoundTrip_fixed (by decide +kernel) (fun hd => absurd hd (by decide)) ?_
    hportable.standsIn (fun _ => ?_) ?_
  · rw [hexpr]
    exact (hstandard .latex).allApart
  · rw [hexpr]
    simp [Everywhere, nodes, NoFractionFactor, isBarred]
  · rw [hcanonical]
    exact (hstandard .legacy).allApart

/-- In the legacy form a word under a root takes the bracket after it as its argument. -/
theorem crossRoundTrip_root_word :
    (parseText .latex "\\sqrt\x7bf\x7d(x)").notes = [] ∧
      (parseText .latex "\\sqrt\x7bf\x7d(x)").expr.Portable ∧
      crossRoundTrip .latex .legacy "\\sqrt\x7bf\x7d(x)" =
        ("\\sqrt\x7bf\x7d (x)", "\\sqrt\x7bf(x)\x7d") :=
  ⟨by decide +kernel, portable_root_word, by decide +kernel⟩

end BothDialects

end MathMarkup
