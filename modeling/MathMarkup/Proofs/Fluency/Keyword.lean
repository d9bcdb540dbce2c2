import MathMarkup.Proofs.Fluency.Text

/-! Written forms that start with a keyword: roots, decorations, LaTeX fractions, large operators, and
brackets that grow with what they hold. -/
namespace MathMarkup.Grammar

open Scan
open Vocabulary (Side)

variable {d : Dialect} {rows : Bool} {a b r s w text left right : String} {c : Context} {t : Token}
  {ts us : List Token}

section Arguments

theorem introduces_of_form {form : List Token → Reading Expr} {q : ℤ}
    (h : Text.lower text ∉ tailWords)
    (hform : keywordForm read c ⟨.keyword, text, q⟩ = form) :
    Introduces c ⟨.keyword, text, q⟩ form :=
  ⟨rfl, (starts_keyword h c q).1, (starts_keyword h c q).2, hform⟩

/-- A keyword with one argument. -/
theorem spoken_argument {f : Expr → Expr}
    (hstop : Text.lower text ∉ tailWords)
    (hform : ∀ c q ts, Fits c d rows →
      keywordForm read c ⟨.keyword, text, q⟩ ts = (argument read c ts).map f)
    (hs : Solid d s) (hleads : Leads d .keyword text a s) (ha : IsArgumentText d rows a) :
    Spoken d rows s := by
  refine ⟨hs, fun c o us ts hc hts => ?_⟩
  obtain ⟨q, hq, -⟩ := hleads o
  rw [hq, List.cons_append]
  exact .keyword (introduces_of_form hstop (funext fun ts => hform c _ ts hc))
    (ha.flows c q us ts hc hts)

/-- In LaTeX a keyword takes a group. -/
theorem spoken_group {f : Expr → Expr} (hk : IsKeyword .latex w text)
    (hstop : Text.lower text ∉ tailWords)
    (hform : ∀ c q ts, Fits c .latex rows →
      keywordForm read c ⟨.keyword, text, q⟩ ts = (argument read c ts).map f)
    (ha : Enclosable .latex rows a) : Spoken .latex rows (w ++ Expr.braced a) :=
  spoken_argument hstop hform (hk.solid.append ha.solid.braced (separate_braced _ _))
    (leads_append hk.forms (by simp) (separate_braced _ _)) ha.argument

/-- In the legacy dialect a keyword takes an operand. -/
theorem spoken_factor {f : Expr → Expr} (hk : IsKeyword .legacy w text) (hne : w ≠ "")
    (hstop : Text.lower text ∉ tailWords)
    (hform : ∀ c q ts, Fits c .legacy rows →
      keywordForm read c ⟨.keyword, text, q⟩ ts = (argument read c ts).map f)
    (ha : Spoken .legacy rows a) : Spoken .legacy rows (w ++ (" " ++ a)) :=
  spoken_argument hstop hform (hk.solid.spaced ha.solid.toTrailing hne ha.ne_empty)
    (leads_gap hk.forms (by simp) a) ha.argument

theorem spoken_root_latex (ha : Enclosable .latex rows a) :
    Spoken .latex rows ("\\sqrt" ++ Expr.braced a) := by
  have hk : IsKeyword .latex "\\sqrt" "sqrt" := isKeyword_latex (by decide) (by decide)
  exact spoken_group hk (by decide)
    (fun c q ts _ => keywordForm_sqrt (by decide) c q ts) ha

theorem spoken_root_legacy (ha : Spoken .legacy rows a) :
    Spoken .legacy rows ("sqrt" ++ (" " ++ a)) :=
  spoken_factor (isKeyword_legacy (by decide) (by decide)) (by decide)
    (by decide) (fun c q ts _ => keywordForm_sqrt (by decide) c q ts) ha

variable {decoration : Decoration}

theorem spoken_decorated_latex (hd : decoration ∈ Decoration.all) (ha : Enclosable .latex rows a) :
    Spoken .latex rows ("\\" ++ decoration.latex ++ Expr.braced a) := by
  obtain ⟨hmem, hstop, hword, hof⟩ := decorations_latex decoration hd
  exact spoken_group (f := .decorated decoration.name) (isKeyword_latex rfl hmem) hstop
    (fun c q ts hc => keywordForm_decoration hword (by simp [decoration?, hc.dialect, hof]) ts) ha

theorem spoken_decorated_legacy (hd : decoration ∈ Decoration.all) (ha : Spoken .legacy rows a) :
    Spoken .legacy rows (Text.lower decoration.legacy ++ (" " ++ a)) := by
  obtain ⟨hlower, hupper, hmem, hstop, hword, hof⟩ := decorations_legacy decoration hd
  have hk := isKeyword_legacy hlower (by simpa [hupper] using hmem)
  rw [hupper] at hk
  exact spoken_factor (f := .decorated decoration.name) hk hlower.1 hstop
    (fun c q ts hc => keywordForm_decoration hword (by simp [decoration?, hc.dialect, hof]) ts) ha

/-- A LaTeX fraction with a bar is a keyword with two groups. -/
theorem spoken_fraction (ha : Enclosable .latex rows a) (hb : Enclosable .latex rows b) :
    Spoken .latex rows ("\\frac" ++ (Expr.braced a ++ Expr.braced b)) := by
  have hk : IsKeyword .latex "\\frac" "frac" := isKeyword_latex (by decide) (by decide)
  have hseparate := separate_braced (Expr.braced a).toList b
  have hfrac := separate_braced_append ("\\frac" : String).toList a (Expr.braced b)
  refine ⟨hk.solid.append (ha.solid.braced.append hb.solid.braced hseparate) hfrac,
    fun c o us ts hc hts => ?_⟩
  obtain ⟨q, hq, -⟩ := leads_append hk.forms (by simp) hfrac o
  rw [hq, List.cons_append, tokens_append ha.solid.braced.whole hseparate, List.append_assoc]
  exact .fraction (introduces_of_form (by decide) (keywordForm_stacked hc.dialect (by decide) _))
    (ha.group hc q (hb.group hc _ hts))

end Arguments

section Large

/-- A large operator with its bounds and its body, or what comes after it. -/
theorem spoken_large (operator : LargeOperator) (hr : Continues d rows r) :
    Spoken d rows ((if d = .latex then "\\" else "") ++ operator.name ++ r) := by
  obtain ⟨text, hk, hlower⟩ := isKeyword_large d operator
  have hne : (if d = .latex then "\\" else "") ++ operator.name ≠ "" := by
    cases operator <;> simp [LargeOperator.name]
  have hstop : Text.lower text ∉ tailWords := by
    rw [hlower]
    cases operator <;> decide
  refine ⟨hk.solid.append_trailing hr.trailing (hr.separate _) hne, fun c o us ts hc hts => ?_⟩
  obtain ⟨q, hq, -⟩ := leads_append hk.forms (by simp) (hr.separate _) o
  rw [hq, List.cons_append]
  exact .large (introduces_of_form hstop (funext fun ts => keywordForm_large hlower c _ ts))
    (hr.flows c q us ts hc hts)

end Large

section Sized

/-- On the right a delimiter is read, even where it makes a double bar with the token after it. -/
theorem sizedDelimiter_right (hr : right ∈ Side.right.delimiters) (hc : Fits c d rows) (o : ℕ)
    (hts : Flows c us .onward ts) : ∃ delimiter xs,
      sizedDelimiter c .right (tokens d o (Expr.sizedDelimiter d right) ++ ts) =
        .done delimiter xs ∧ Flows c us .onward xs := by
  by_cases hd : d = .legacy ∧ right = "\\|"
  · obtain ⟨rfl, rfl⟩ := hd
    exact ⟨_, _, sizedDelimiter_doubleBar hc o ts, hts⟩
  · rw [(forms_delimiter hr hd).tokens_eq (by simp), List.singleton_append]
    cases hbar : isDoubleBar d (⟨.symbol, Expr.sizedDelimiter d right, o⟩ :: ts) with
    | false => exact ⟨_, _, sizedDelimiter_single hr hd hc hbar, hts⟩
    | true =>
      cases ts with
      | nil => simp [isDoubleBar] at hbar
      | cons u vs =>
        have hu : u.isSymbol "|" = true := by
          simp only [isDoubleBar, Bool.and_eq_true] at hbar
          exact hbar.1.2
        have hstarts := startsOperand_of_symbol (.inr (.inr rfl)) hu c
        have hu' : u.kind = .symbol ∧ u.text = "|" := by simpa [Token.isSymbol] using hu
        refine ⟨"\\|", vs, ?_, (hts.of_startsOperand hstarts).after ?_ ?_ ?_ ?_⟩
        · simp [sizedDelimiter, hc.dialect, hbar]
        · simp [hu']
        · simp [Token.isOpening, Vocabulary.isOpening, Vocabulary.closing?, hu']
        · simp [Token.isScript, Token.isSymbol, hu']
        · simp [Token.isSign, Vocabulary.isSign, hu']

/-- A pair of delimiters, whatever is between them. -/
theorem enclosed_sized (h : Enclosable d rows s) (hl : left ∈ Side.left.delimiters)
    (hr : right ∈ Side.right.delimiters) :
    IsEnclosedText d rows (Expr.renderBracket d true left right s) := by
  obtain ⟨text, hk, hlower⟩ := isKeyword_sizing d .left
  obtain ⟨text', hk', hlower'⟩ := isKeyword_sizing d .right
  obtain ⟨gap, m, hsplit, hm, hne, htext⟩ := renderBracket_sized h.solid left hr
  have hstop : Text.lower text ∉ tailWords := by
    rw [hlower]
    decide
  have hopen : Expr.sizingWord d .left ++ Expr.sizedDelimiter d left ≠ "" := by
    have hword : Expr.sizingWord d .left ≠ "" := by cases d <;> decide
    simp [hword]
  rw [htext]
  refine isEnclosedText_of_leads ⟨?_, fun c o us ts hc hts => ?_⟩ (leads_sizing hk hl _)
  · rw [← String.append_assoc]
    exact (solid_sizing hk hl).spaced hm hopen hne
  · obtain ⟨q, hq, -⟩ := leads_sizing hk hl (" " ++ m) o
    obtain ⟨p, -, hp, -⟩ := hsplit (q + (Expr.sizedDelimiter d left).length + 1)
    obtain ⟨x, hx, -⟩ := leads_sizing hk' hr "" p
    rw [String.append_empty] at hx
    have hword : (⟨.keyword, text', p⟩ : Token).word? = some "right" := by
      simp [Token.word?, hlower']
    have hboundary : c.isBoundary ⟨.keyword, text', p⟩ = true := by
      simp [Context.isBoundary, hword]
    obtain ⟨delimiter, xs, hdelimiter, hxs⟩ := sizedDelimiter_right hr hc x hts
    have hcontent := h.flows c (q + (Expr.sizedDelimiter d left).length + 1)
      (⟨.keyword, text', p⟩ :: (tokens d x (Expr.sizedDelimiter d right) ++ ts)) hc hboundary
    -- A blank stands after the delimiter on the left, so it is no part of a double bar.
    have hunbarred : ∀ t ∈ (tokens d (q + (Expr.sizedDelimiter d left).length + 1) m ++ ts).head?,
        Unbarred c (q + (Expr.sizedDelimiter d left).length : ℕ) t := by
      intro t ht hbar
      have hmem : t ∈ tokens d (q + (Expr.sizedDelimiter d left).length + 1) m := by
        rw [List.head?_append_of_ne_nil _ (by simp [hp, hx])] at ht
        exact List.mem_of_mem_head? ht
      have := le_offset hmem
      omega
    have hdelimiters := sizedDelimiter_eq hl hc q hunbarred
    rw [hq, List.cons_append, tokens_append_gap (solid_delimiter hl).whole, List.append_assoc]
    rw [hp, hx, List.append_assoc, List.cons_append] at hdelimiters ⊢
    exact .sized (introduces_of_form hstop (keywordForm_left hlower c _)) hdelimiters hcontent hword
      hdelimiter hxs

end Sized

end MathMarkup.Grammar
