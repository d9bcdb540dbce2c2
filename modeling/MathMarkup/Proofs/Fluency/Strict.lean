import MathMarkup.Conversion.Basic
import MathMarkup.Proofs.Fluency.Node
import MathMarkup.Proofs.Rereading.Parsed

/-! Strict conversion. What it gives is read again without a note, and so is accepted again, where each
node of what was parsed is readable in the target. Not every node is: a relation that was a legacy script
in braces is written without them, and is no script then. -/
namespace MathMarkup

open MathMarkup.Expr Grammar
open Scan (QuotesWords)

variable {d source target : Dialect} {text s : String} {c : Conversion}

/-- A strict conversion gives the written form of what was parsed without a note. -/
theorem convert_ok (h : convert source target true text = .ok c) :
    (parseText source text).notes = [] ∧ c.parsed = parseText source text ∧
      c.output = (parseText source text).expr.render target := by
  unfold convert Parsed.require at h
  cases hnotes : (parseText source text).notes with
  | nil =>
    simp only [hnotes, List.isEmpty_nil, not_true_eq_false, and_false, if_false, Except.ok.injEq] at h
    exact ⟨rfl, by simp [← h], by simp [← h]⟩
  | cons note notes => simp [hnotes] at h

theorem convert_of_notes (h : (parseText source text).notes = []) (target : Dialect) :
    ∃ c, convert source target true text = .ok c := by
  simp [convert, Parsed.require, h]

/-- A text of tokens that are wanted where they stand is parsed without a note. -/
theorem notes_of_enclosable (h : Enclosable d false s) : (parseText d s).notes = [] := by
  have hover : atBoundary (textContext d s) [] = true := rfl
  have hflows := h.flows (textContext d s) 0 [] (fits_textContext d s) hover
  rw [List.append_nil] at hflows
  have hreaches := reaches_of_flows hflows
  have hstrays (v : Expr) : read (.strays v) (textContext d s) [] = .done v [] := by
    rw [read_eq]
    rfl
  rw [parseText_eq]
  simp [hreaches.notes, hreaches.rest, hstrays, Reading.done]

/-- A strict conversion of what is readable in the target can be followed by another one. -/
theorem convert_of_readable (hq : source = .legacy → QuotesWords text)
    (h : convert source target true text = .ok c) (hr : c.parsed.expr.Everywhere (Readable target)) :
    (parseText target c.output).notes = [] ∧
      ∀ next, ∃ c', convert target next true c.output = .ok c' := by
  obtain ⟨hnotes, hparsed, houtput⟩ := convert_ok h
  have hlegible := legible_of_parseText hq hnotes
  rw [hparsed] at hr
  have henclosable : Enclosable target false c.output := by
    rw [houtput]
    exact enclosable_of_voiced fun hne =>
      voiced_of_legible (hlegible hne) (readableIn_of_everywhere hr)
  have hagain := notes_of_enclosable henclosable
  exact ⟨hagain, convert_of_notes hagain⟩

theorem convert_of_readable_fraction :
    ∃ c, convert .latex .legacy true "\\frac x2=y" = .ok c ∧
      c.output = "x over 2 = y" ∧ (parseText .legacy c.output).notes = [] ∧
      ∀ next, ∃ c', convert .legacy next true c.output = .ok c' := by
  have hnotes : (parseText .latex "\\frac x2=y").notes = [] := by decide +kernel
  obtain ⟨c, hc⟩ := convert_of_notes hnotes .legacy
  obtain ⟨-, hparsed, houtput⟩ := convert_ok hc
  refine ⟨c, hc, ?_, convert_of_readable (by simp) hc ?_⟩
  · rw [houtput]
    decide +kernel
  · rw [hparsed]
    decide +kernel

/-- A relation as a legacy script loses its braces, and the conversion is refused from then on. -/
theorem convert_relation_script :
    '"' ∉ ("x^\x7b=\x7d" : String).toList ∧
      (convert .legacy .legacy true "x^\x7b=\x7d").toOption.map (·.output) = some "x^=" ∧
      (parseText .legacy "x^=").notes ≠ [] ∧
      ∀ next, (convert .legacy next true "x^=").toOption.map (·.output) = none := by
  refine ⟨by decide, by decide +kernel, by decide +kernel, fun next => ?_⟩
  cases next <;> decide +kernel

end MathMarkup
