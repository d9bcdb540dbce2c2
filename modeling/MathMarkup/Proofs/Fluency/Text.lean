import MathMarkup.Proofs.Fluency.Readable
import MathMarkup.Proofs.Grammar.Fluent
import MathMarkup.Proofs.Rereading.Sized

/-! Written forms whose tokens are those that are wanted where they stand, put together from their
parts. -/
namespace MathMarkup.Grammar

open Scan
open MathMarkup.Expr (StartsPlain)

variable {d : Dialect} {rows : Bool} {a b l r s w m text left right : String} {kind : TokenKind}
  {c : Context} {t : Token} {ts us : List Token} {L : Level}

section Shapes

variable (d rows)

/-- The text is an operand wherever one is wanted. -/
structure Spoken (s : String) : Prop where
  solid : Solid d s
  flows : ∀ c (o : ℕ) us ts, Fits c d rows → Flows c us .onward ts →
    Flows c us .operand (tokens d o s ++ ts)

/-- The text is what stands between delimiters, and may be empty. -/
structure Enclosable (s : String) : Prop where
  solid : Solid d s
  flows : ∀ c (o : ℕ) us, Fits c d rows → atBoundary c us = true →
    Flows c us .content (tokens d o s ++ us)

/-- After an operand the text goes on to where an operand has ended, and nothing in front of it runs
into it. -/
structure Continues (s : String) : Prop where
  trailing : Trailing d s
  separate : ∀ cs, Separate cs s.toList
  flows : ∀ c (o : ℕ) us ts, Fits c d rows → Flows c us .onward ts →
    Flows c us .onward (tokens d o s ++ ts)

/-- The text is the argument of a script mark. -/
structure IsScriptText (s : String) : Prop where
  solid : Solid d s
  flows : ∀ c (o : ℕ) us ts, Fits c d rows → Flows c us .onward ts →
    Flows c us .script (tokens d o s ++ ts)

/-- The text is the argument of a keyword. -/
structure IsArgumentText (s : String) : Prop where
  solid : Solid d s
  flows : ∀ c (o : ℕ) us ts, Fits c d rows → Flows c us .onward ts →
    Flows c us (.argument .onward) (tokens d o s ++ ts)

/-- The text is an operand that starts with a bracket or with a keyword. -/
structure IsEnclosedText (s : String) : Prop where
  spoken : Spoken d rows s
  head : ∀ o : ℕ, ∃ t ts, tokens d o s = t :: ts ∧ (t.isOpening = true ∨ t.kind = .keyword)

end Shapes

section Parts

theorem Spoken.tokens_ne_nil (h : Spoken d rows s) (o : ℕ) : tokens d o s ≠ [] := by
  intro hnil
  have hstop : Flows ⟨d, ⟨.stop, "", 0⟩, rows⟩ [] .onward [] := .stop rfl
  have hflows := h.flows _ o [] [] ⟨rfl, rfl, rfl⟩ hstop
  rw [hnil] at hflows
  exact hflows.ne_nil rfl

theorem Spoken.ne_empty (h : Spoken d rows s) : s ≠ "" := by
  rintro rfl
  exact h.tokens_ne_nil 0 rfl

theorem Spoken.enclosable (h : Spoken d rows s) : Enclosable d rows s :=
  ⟨h.solid, fun c o us hc hb => .filled (h.flows c o us us hc (.stop hb))⟩

theorem Enclosable.empty : Enclosable d rows "" :=
  ⟨Solid.empty d, fun _ _ _ _ hb => .empty hb⟩

theorem firstToken_isRelation (h : StartsPlain d s) {o : ℕ} (ht : tokens d o s = t :: ts) :
    t.isRelation = false := by
  obtain ⟨u, hu, rfl⟩ := firstToken?_of_tokens ht
  exact h u hu

/-- Beside an operand may stand another one that starts with no relation. -/
theorem Spoken.onward (h : Spoken d rows s) (hs : StartsPlain d s) (hc : Fits c d rows) (o : ℕ)
    (hts : Flows c us .onward ts) : Flows c us .onward (tokens d o s ++ ts) := by
  have hflows := h.flows c o us ts hc hts
  obtain ⟨t, vs, ht⟩ := List.exists_cons_of_ne_nil (h.tokens_ne_nil o)
  rw [ht, List.cons_append] at hflows ⊢
  exact .beside hflows (firstToken_isRelation hs ht)

theorem Spoken.continues (h : Spoken d rows s) (hs : StartsPlain d s)
    (hseparate : ∀ cs, Separate cs s.toList) : Continues d rows s :=
  ⟨h.solid.toTrailing, hseparate, fun _ o _ _ hc hts => h.onward hs hc o hts⟩

theorem Spoken.gap (h : Spoken d rows s) (hs : StartsPlain d s) : Continues d rows (" " ++ s) := by
  refine ⟨h.solid.toTrailing.gap h.ne_empty, fun cs => gap_separate_right cs s,
    fun c o us ts hc hts => ?_⟩
  rw [tokens_gap]
  exact h.onward hs hc _ hts

theorem Continues.empty : Continues d rows "" :=
  ⟨Trailing.empty d, fun cs => Separate.nil_right cs, fun _ _ _ _ _ hts => hts⟩

theorem Continues.append (ha : Continues d rows a) (hb : Continues d rows b) :
    Continues d rows (a ++ b) := by
  refine ⟨ha.trailing.append hb.trailing (hb.separate _), fun cs => ?_, fun c o us ts hc hts => ?_⟩
  · by_cases hne : a = ""
    · subst hne
      simpa using hb.separate cs
    · have hhead : (a ++ b).toList.head? = a.toList.head? := by
        rw [String.toList_append, List.head?_append_of_ne_nil _ (mt String.toList_eq_nil_iff.1 hne)]
      intro x hx y hy
      exact ha.separate cs x hx y (hhead ▸ hy)
  · rw [tokens_append ha.trailing.whole (hb.separate _), List.append_assoc]
    exact ha.flows c o us _ hc (hb.flows c _ us ts hc hts)

/-- An operand with what goes on after it is an operand. -/
theorem Spoken.append (hl : Spoken d rows l) (hr : Continues d rows r) : Spoken d rows (l ++ r) := by
  refine ⟨hl.solid.append_trailing hr.trailing (hr.separate _) hl.ne_empty,
    fun c o us ts hc hts => ?_⟩
  rw [tokens_append hl.solid.whole (hr.separate _), List.append_assoc]
  exact hl.flows c o us _ hc (hr.flows c _ us ts hc hts)

/-- A bracket is an operand, whatever is in it. -/
theorem Enclosable.bracket (h : Enclosable d rows s) (hd : Vocabulary.closing? left = some right) :
    Spoken d rows (left ++ (s ++ right)) := by
  obtain ⟨hl, hr, hclose⟩ := isMark_of_closing hd
  refine ⟨Solid.mark_append hl ?_, fun c o us ts hc hts => ?_⟩
  · simpa using h.solid.append_mark hr (b := "") (by simpa using Solid.of_mark hr)
  · have htokens := tokens_append_mark h.solid.whole hr (o + 1) ""
    rw [String.append_empty, tokens_empty] at htokens
    have hboundary : c.isBoundary ⟨.symbol, right, (o + 1 + s.length : ℕ)⟩ = true :=
      isBoundary_of_isClosing (by simp [Token.isClosing, hclose])
    rw [tokens_mark hl, htokens, List.cons_append, List.append_assoc, List.singleton_append]
    exact .bracket rfl hd (h.flows c _ _ hc hboundary) (isSymbol_self ..) hts

theorem Enclosable.braced (h : Enclosable d rows s) : Spoken d rows (Expr.braced s) := by
  have hbracket : Spoken d rows ("\x7b" ++ (s ++ "\x7d")) := h.bracket rfl
  rwa [← String.append_assoc] at hbracket

/-- In LaTeX a group is an argument, and before another one too. -/
theorem Enclosable.group (h : Enclosable .latex rows s) {next : Wanted} (hc : Fits c .latex rows)
    (o : ℕ) (hts : Flows c us next ts) :
    Flows c us (.argument next) (tokens .latex o (Expr.braced s) ++ ts) := by
  have hboundary : c.isBoundary ⟨.symbol, "\x7d", (o + 1 + s.length : ℕ)⟩ = true :=
    isBoundary_brace ..
  rw [tokens_braced h.solid.whole, List.cons_append, List.append_assoc, List.singleton_append]
  exact .group hc.dialect (isSymbol_self ..) (h.flows c _ _ hc hboundary) (isSymbol_self ..) hts

theorem Enclosable.argument (h : Enclosable .latex rows s) :
    IsArgumentText .latex rows (Expr.braced s) :=
  ⟨h.solid.braced, fun _ o _ _ hc hts => h.group hc o hts⟩

theorem Spoken.argument (h : Spoken .legacy rows s) : IsArgumentText .legacy rows s :=
  ⟨h.solid, fun c o us ts hc hts => .factor hc.dialect (h.flows c o us ts hc hts)⟩

theorem Enclosable.script (h : Enclosable d rows s) : IsScriptText d rows (Expr.braced s) := by
  refine ⟨h.solid.braced, fun c o us ts hc hts => ?_⟩
  cases d with
  | latex => exact .scriptGroup hc.dialect (h.group hc o hts)
  | legacy =>
    have hflows := h.braced.flows c o us ts hc hts
    rw [tokens_braced h.solid.whole, List.cons_append] at hflows ⊢
    exact .scriptOperand hc.dialect hflows rfl rfl

theorem startsPlain_of_tokens (h : tokens d 0 s = t :: ts) (ht : t.isRelation = false) :
    StartsPlain d s := by
  intro u hu
  rw [Expr.firstToken?, significant_eq, h] at hu
  obtain rfl : t = u := by simpa using hu
  exact ht

theorem head_facts (h : t.isOpening = true ∨ t.kind = .keyword) :
    t.isRelation = false ∧ t.isSign = false := by
  obtain h | h := h
  · exact ⟨(isOpening_facts h).2.1, (isOpening_facts h).2.2.1⟩
  · exact ⟨(not_mark_of_keyword h).1, (not_mark_of_keyword h).2.1⟩

theorem IsEnclosedText.plain (h : IsEnclosedText d rows s) : StartsPlain d s := by
  obtain ⟨t, ts, htokens, ht⟩ := h.head 0
  exact startsPlain_of_tokens htokens (head_facts ht).1

theorem IsEnclosedText.gap (h : IsEnclosedText d rows s) : Continues d rows (" " ++ s) :=
  h.spoken.gap h.plain

/-- In the legacy dialect it is a script by itself. -/
theorem IsEnclosedText.script (h : IsEnclosedText .legacy rows s) : IsScriptText .legacy rows s := by
  refine ⟨h.spoken.solid, fun c o us ts hc hts => ?_⟩
  obtain ⟨t, vs, htokens, ht⟩ := h.head o
  have hflows := h.spoken.flows c o us ts hc hts
  rw [htokens, List.cons_append] at hflows ⊢
  exact .scriptOperand hc.dialect hflows (head_facts ht).1 (head_facts ht).2

theorem Enclosable.enclosed (h : Enclosable d rows s) (hd : Vocabulary.closing? left = some right) :
    IsEnclosedText d rows (left ++ (s ++ right)) :=
  ⟨h.bracket hd, fun o => ⟨_, _, tokens_mark (isMark_of_closing hd).1 o _,
    .inl (isOpening_of_closing hd o)⟩⟩

theorem Enclosable.grouped (h : Enclosable d rows s) : IsEnclosedText d rows (Expr.braced s) := by
  refine ⟨h.braced, fun o => ?_⟩
  rw [tokens_braced h.solid.whole]
  exact ⟨_, _, rfl, .inl rfl⟩

theorem isEnclosedText_of_leads (h : Spoken d rows s) (hleads : Leads d .keyword text a s) :
    IsEnclosedText d rows s := by
  refine ⟨h, fun o => ?_⟩
  obtain ⟨q, htokens, -⟩ := hleads o
  exact ⟨_, _, htokens, .inr rfl⟩

end Parts

section Operators

/-- Between two operands stands an operator. -/
theorem Flows.of_between {operator : String} (ho : operator? L t = some operator)
    (h : Flows c us .operand ts) : Flows c us .onward (t :: ts) := by
  cases L with
  | relation =>
    refine .operator (.inl ?_) h
    by_contra hr
    simp [operator?, hr] at ho
  | sum =>
    have hs : t.isSign = true := by
      by_contra hs
      simp [operator?, hs] at ho
    exact .beside (.sign hs h) (isSign_facts hs).2.2.2.2
  | product => exact .operator (.inr (by simp [isProductOperator, ho])) h
  | _ => simp [operator?] at ho

/-- An operator with blanks around it and the operand after it. -/
theorem continues_operator {operator : String} (hw : Solid d w) (hne : w ≠ "")
    (hforms : Forms d w.toList kind text) (hk : kind ≠ .space ∧ kind ≠ .unknown)
    (ho : ∀ q : ℤ, operator? L ⟨kind, text, q⟩ = some operator) (hr : Spoken d rows r) :
    Continues d rows (" " ++ (w ++ (" " ++ r))) := by
  have hsolid := hw.spaced hr.solid.toTrailing hne hr.ne_empty
  refine ⟨hsolid.toTrailing.gap (by simp [hne]), fun cs => gap_separate_right cs _,
    fun c o us ts hc hts => ?_⟩
  obtain ⟨q, hq, -⟩ := leads_gap hforms hk r (o + 1)
  rw [tokens_gap, hq, List.cons_append]
  exact .of_between (ho _) (hr.flows c q us ts hc hts)

theorem spoken_operation {operator : String} (hl : Spoken d rows l) (hr : Spoken d rows r)
    (hw : Solid d w) (hne : w ≠ "") (hforms : Forms d w.toList kind text)
    (hk : kind ≠ .space ∧ kind ≠ .unknown)
    (ho : ∀ q : ℤ, operator? L ⟨kind, text, q⟩ = some operator) :
    Spoken d rows (Expr.spaced [l, w, r]) := by
  rw [spaced_three hl.ne_empty hne hr.ne_empty]
  exact hl.append (continues_operator hw hne hforms hk ho hr)

/-- A sign with the operand after it. -/
theorem spoken_signed (ho : m = "+" ∨ m = "-") (hr : Spoken d rows r) : Spoken d rows (m ++ r) := by
  have hm := isMark_sign ho
  refine ⟨Solid.mark_append hm hr.solid, fun c o us ts hc hts => ?_⟩
  rw [tokens_mark hm, List.cons_append]
  exact .sign (sign_facts ho _ c).2.2.2 (hr.flows c _ us ts hc hts)

end Operators

section Scripts

theorem isScript_scriptMark (side : Script) (q : ℤ) :
    (⟨.symbol, Expr.scriptMark side, q⟩ : Token).isScript = true := by
  cases side <;> rfl

theorem flows_script (side : Script) (h : IsScriptText d rows a) (hc : Fits c d rows) (o : ℕ)
    (hts : Flows c us .onward ts) :
    Flows c us .operand (tokens d o (Expr.scriptMark side ++ a) ++ ts) := by
  rw [tokens_mark (isMark_scriptMark side), List.cons_append]
  exact .mark (isScript_scriptMark side _) (h.flows c _ us ts hc hts)

theorem continues_script (side : Script) (h : IsScriptText d rows a) :
    Continues d rows (Expr.scriptMark side ++ a) := by
  have hmark := isMark_scriptMark side
  refine ⟨(Solid.mark_append hmark h.solid).toTrailing, fun cs => hmark.separate_right cs a,
    fun c o us ts hc hts => ?_⟩
  have hflows := flows_script side h hc o hts
  rw [tokens_mark hmark, List.cons_append] at hflows ⊢
  exact .beside hflows (isScript_facts (c := c) (isScript_scriptMark side _)).2

/-- A script mark with its argument, after a base or without one. -/
theorem spoken_script (side : Script) (hb : b ≠ "" → Spoken d rows b) (ha : IsScriptText d rows a) :
    Spoken d rows (b ++ (Expr.scriptMark side ++ a)) := by
  by_cases hne : b = ""
  · subst hne
    rw [String.empty_append]
    exact ⟨Solid.mark_append (isMark_scriptMark side) ha.solid,
      fun c o us ts hc hts => flows_script side ha hc o hts⟩
  · exact (hb hne).append (continues_script side ha)

end Scripts

end MathMarkup.Grammar
