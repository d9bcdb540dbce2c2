import MathMarkup.Proofs.Rereading.Operator

/-! How the arguments of keywords and scripts are read back from their written forms. -/
namespace MathMarkup.Grammar

open Scan
open Reading (Alike)

variable {d : Dialect} {parsed rows : Bool} {r s a m w text value : String} {kind : TokenKind}
  {v va : Expr} {next na : Next} {c : Context} {t u : Token} {ts : List Token}

/-- No bar follows at once: two bars in a row are one delimiter. -/
def Unbarred : Next := fun _ p t => t.isSymbol "|" = true → t.offset ≠ p

section Groups

theorem isSymbol_self (text : String) (q : ℤ) :
    (⟨.symbol, text, q⟩ : Token).isSymbol text = true := by
  simp [Token.isSymbol]

theorem isBoundary_brace (c : Context) (q : ℤ) : c.isBoundary ⟨.symbol, "\x7d", q⟩ = true :=
  isBoundary_of_isClosing rfl

theorem takes_latexArgument (hs : Solid d s)
    (h : Takes d parsed rows (fun c => operand read c .sequence) s v
      fun _ _ t => t.isSymbol "\x7d" = true) :
    Takes d parsed rows (latexArgument read) (Expr.braced s) v.unwrap fun _ _ _ => True := by
  intro c o ts hc _
  rw [tokens_braced hs.whole, List.cons_append, List.append_assoc, List.singleton_append]
  simp only [latexArgument, isSymbol_self, if_true, read_operand]
  refine (h c (o + 1) _ hc fun t ht => ?_).bind_done (.of_eq ?_)
  · obtain rfl : _ = t := by simpa using ht
    exact isSymbol_self ..
  · simp [expect, isSymbol_self]

/-- In LaTeX an argument is a group without its braces. -/
theorem Content.takes_latexArgument (h : Content d parsed rows s v) :
    Takes d parsed rows (latexArgument read) (Expr.braced s) v.unwrap fun _ _ _ => True := by
  refine Grammar.takes_latexArgument h.solid (h.takes.mono fun c p t ht => ?_)
  simp only [Token.isSymbol, Bool.and_eq_true, decide_eq_true_eq] at ht
  exact isBoundary_of_isClosing (by simp [Token.isClosing, Vocabulary.isClosing, ht])

theorem loneMark_cases (h : value ∈ Expr.loneMarks .latex) (hs : value ≠ "^" ∧ value ≠ "_") :
    value = "(" ∨ value = "[" ∨ value = "+" ∨ value = "-" := by
  simp only [Expr.loneMarks, List.mem_cons, List.not_mem_nil, or_false] at h
  tauto

theorem expect_of_brace (h : ∀ t ∈ ts.head?, t.isSymbol "\x7d" = true) (hne : text ≠ "\x7d")
    (c : Context) : expect c text ts = miss c (.symbol text) false ts := by
  cases ts with
  | nil => rfl
  | cons t ts =>
    have ht := h t rfl
    simp only [Token.isSymbol, Bool.and_eq_true, decide_eq_true_eq] at ht
    simp [expect, Token.isSymbol, ht, hne.symm]

theorem isBoundary_of_brace (h : t.isSymbol "\x7d" = true) (c : Context) :
    c.isBoundary t = true := by
  simp only [Token.isSymbol, Bool.and_eq_true, decide_eq_true_eq] at h
  exact isBoundary_of_isClosing (by simp [Token.isClosing, Vocabulary.isClosing, h])

/-- Only values matter where notes are made. -/
theorem alike_of_value {a b : Reading Expr} (hv : a.value = b.value) (hr : a.rest = b.rest) :
    Alike (Tidy .latex true) a b :=
  ⟨hv, hr, fun h => absurd (h rfl) (by decide)⟩

/-- A lone mark in a group is read as what it starts: an open bracket, or a sign without operand. -/
theorem primary_loneMark (h : value ∈ Expr.loneMarks .latex) (hs : value ≠ "^" ∧ value ≠ "_") :
    Primary .latex true rows value (Expr.rereadLiteral .latex value) fun _ _ t =>
      t.isSymbol "\x7d" = true := by
  have hcases := loneMark_cases h hs
  have hm : IsMark value := by
    rcases hcases with rfl | rfl | rfl | rfl
    · exact ⟨'(', by decide, rfl⟩
    · exact ⟨'[', by decide, rfl⟩
    · exact ⟨'+', by decide, rfl⟩
    · exact ⟨'-', by decide, rfl⟩
  have htokens (o : ℕ) : tokens .latex o value = [⟨.symbol, value, o⟩] :=
    hm.forms.tokens_eq (by simp)
  have hopens : value = "(" ∨ value = "[" → ∀ q, (⟨.symbol, value, q⟩ : Token).isOpening = true := by
    rintro (rfl | rfl) q <;> rfl
  refine ⟨Solid.of_mark hm, fun o => ⟨_, [], htokens o, fun c _ => ?_⟩, fun c o ts hc ht => ?_⟩
  · rcases hcases with hv | hv | hv | hv
    · exact starts_of_isOpening (hopens (.inl hv) o)
    · exact starts_of_isOpening (hopens (.inr hv) o)
    · exact (sign_facts (.inl hv) o c).1
    · exact (sign_facts (.inr hv) o c).1
  · have hboundary : ∀ t ∈ ts.head?, c.isBoundary t = true := fun t h' =>
      isBoundary_of_brace (ht t h') c
    rw [htokens, List.singleton_append]
    by_cases hv : value = "(" ∨ value = "["
    · have hcontent := sequence_of_isBoundary hboundary
      have hclose : ∃ close, Vocabulary.closing? value = some close ∧ close ≠ "\x7d" := by
        obtain rfl | rfl := hv
        · exact ⟨")", rfl, by decide⟩
        · exact ⟨"]", rfl, by decide⟩
      obtain ⟨close, hclose, hne⟩ := hclose
      rw [primary_of_isOpening (hopens hv o)]
      refine alike_of_value ?_ ?_
      · obtain rfl | rfl := hv <;>
          simp [bracket, read_operand, hcontent, hclose, expect_of_brace ht hne, miss,
            Reading.done, Expr.flatten, Expr.rereadLiteral, Expr.empty]
      · simp [bracket, read_operand, hcontent, hclose, expect_of_brace ht hne, miss, Reading.done]
    · have hsign : value = "+" ∨ value = "-" := by tauto
      obtain ⟨⟨hb, hp⟩, hopen, hscript, hsign'⟩ := sign_facts hsign o c
      have hfactor := factor_of_isBoundary hboundary
      simp only [primary, hb, hp, Bool.or_self, Bool.false_eq_true, if_false, hopen, hscript,
        hsign', if_true, read_operand, hfactor]
      refine alike_of_value ?_ rfl
      obtain rfl | rfl := hsign <;> rfl

theorem takes_loneMark (h : value ∈ Expr.loneMarks .latex) (hs : value ≠ "^" ∧ value ≠ "_") :
    Takes .latex true rows (latexArgument read) (Expr.braced value)
      (Expr.rereadLiteral .latex value).unwrap fun _ _ _ => True := by
  have hprimary : Primary .latex true rows value _ _ := primary_loneMark h hs
  have hslot := hprimary.slot.lower (L := .sequence) (by decide)
  refine Grammar.takes_latexArgument hslot.solid fun c o ts hc ht => ?_
  have henters := hslot.enters c o ts hc ht
  rwa [resume_of_isBoundary] at henters
  intro t h'
  have hclose := ht t h'
  simp only [Token.isSymbol, Bool.and_eq_true, decide_eq_true_eq] at hclose
  exact isBoundary_of_isClosing (by simp [Token.isClosing, Vocabulary.isClosing, hclose])

/-- In the legacy dialect a group as a script loses its braces. -/
theorem Content.takes_legacyScriptArgument (h : Content d parsed rows s v) :
    Takes d parsed rows (legacyScriptArgument read) (Expr.braced s) v.grouped.unwrap
      fun _ _ _ => True := by
  intro c o ts hc _
  rw [Expr.braced, String.append_assoc, tokens_mark ⟨'\x7b', by decide, rfl⟩, List.cons_append]
  have hd : Vocabulary.closing? "\x7b" = some "\x7d" := rfl
  simp only [legacyScriptArgument, isSymbol_self, if_true]
  exact (h.takes_bracket hd c (o + 1) ts hc fun _ _ => trivial).map _

/-- In the legacy dialect an argument is a factor, without its braces. -/
theorem Slot.takes_argument (h : Slot .legacy parsed rows .factor s v next) :
    Takes .legacy parsed rows (argument read) s v.unwrap fun c p t =>
      next c p t ∧ t.isScript = false := by
  intro c o ts hc ht
  have henters := h.enters c o ts hc fun t h' => (ht t h').1
  have hends : resume c .factor v ts = .done v ts := scripts_of_ends (fun t h' => (ht t h').2) v
  rw [hends] at henters
  simp only [argument, hc.dialect]
  exact henters.map _

theorem takes_argument_latex (h : Takes .latex parsed rows (latexArgument read) s v next) :
    Takes .latex parsed rows (argument read) s v next := by
  intro c o ts hc ht
  simp only [argument, hc.dialect]
  exact h c o ts hc ht

theorem takes_scriptArgument_latex (h : Takes .latex parsed rows (latexArgument read) s v next) :
    Takes .latex parsed rows (scriptArgument read) s v next := by
  intro c o ts hc ht
  simp only [scriptArgument, hc.dialect]
  exact h c o ts hc ht

theorem takes_scriptArgument_legacy
    (h : Takes .legacy parsed rows (legacyScriptArgument read) s v next) :
    Takes .legacy parsed rows (scriptArgument read) s v next := by
  intro c o ts hc ht
  simp only [scriptArgument, hc.dialect]
  exact h c o ts hc ht

end Groups

section Atoms

theorem startsOperand_of_starts (h : c.isBoundary t = false ∧ isProductOperator t = false)
    (hr : t.isRelation = false) : startsOperand c t = true := by
  simp [startsOperand, h, hr]

/-- A literal that is no relation is read from no relation. -/
theorem isRelation_of_reads (h : Expr.ReadsAs d rows value t)
    (hr : Vocabulary.isRelation value = false) : t.isRelation = false := by
  obtain ⟨kind, text, offset⟩ := t
  by_contra hrel
  simp only [Bool.not_eq_false, Token.isRelation, Bool.and_eq_true, decide_eq_true_eq] at hrel
  obtain ⟨rfl, hrel⟩ := hrel
  have hends : endsRow d ⟨.symbol, text, offset⟩ = false := by
    simp only [Vocabulary.isRelation, List.contains_eq_mem, List.mem_cons, List.not_mem_nil,
      or_false, decide_eq_true_eq] at hrel
    rcases hrel with rfl | rfl | rfl <;> simp [endsRow, Token.isSymbol, Vocabulary.lineBreak]
  have hvalue := h.2.2.2.2.2
  simp only [symbolLiteral, hends, Bool.false_eq_true, if_false, literalOf] at hvalue
  obtain rfl : text = value := by simpa using hvalue
  simp [hrel] at hr

/-- In the legacy dialect a literal as a script is one token. -/
theorem takes_literal (h : Expr.IsOperandValue .legacy rows value)
    (hr : Vocabulary.isRelation value = false) :
    Takes .legacy parsed rows (legacyScriptArgument read) (Expr.renderLiteral .legacy value)
      (.literal value) fun _ _ _ => True := by
  obtain ⟨kind, text, h⟩ := h.spelled
  have hk := significant_of_reads (h.reads 0)
  intro c o ts hc _
  obtain ⟨hboundary, hp, hv⟩ := h.reads o
  have hrelation := isRelation_of_reads (h.reads o) hr
  have hstarts := startsOperand_of_starts ⟨hboundary c hc.dialect hc.inRows, hp⟩ hrelation
  rw [h.forms.tokens_eq hk, List.singleton_append]
  refine .of_eq ?_
  cases kind with
  | identifier =>
    have hvalue : identifierValue .legacy text = value := hv
    simp [legacyScriptArgument, Token.isSymbol, hstarts, hvalue]
  | number =>
    obtain rfl : text = value := hv
    simp [legacyScriptArgument, Token.isSymbol, hstarts, literalOf]
  | symbol =>
    obtain ⟨hopen, hscript, -, hvalue⟩ := hv
    have hbrace : text ≠ "\x7b" := by
      rintro rfl
      exact absurd hopen (by simp [Token.isOpening, Vocabulary.isOpening, Vocabulary.closing?])
    simp [legacyScriptArgument, Token.isSymbol, hbrace, hstarts, hopen, hscript, hvalue]
  | _ => exact hv.elim

/-- In the legacy dialect a sign as a script is one token too. -/
theorem takes_loneScript (h : m = "+" ∨ m = "-") :
    Takes .legacy parsed rows (legacyScriptArgument read) m (.literal m) fun _ _ _ => True := by
  have hm : IsMark m := isMark_sign h
  intro c o ts _ _
  obtain ⟨hstarts, hopen, hscript, -⟩ := sign_facts h o c
  have hoperand : startsOperand c ⟨.symbol, m, o⟩ = true := by
    refine startsOperand_of_starts hstarts ?_
    obtain rfl | rfl := h <;> rfl
  rw [hm.forms.tokens_eq (by simp), List.singleton_append]
  refine .of_eq ?_
  obtain rfl | rfl := h <;>
    simp [legacyScriptArgument, Token.isSymbol, hoperand, hopen, hscript, symbolLiteral, endsRow,
      Vocabulary.lineBreak, literalOf]

/-- What starts with a bracket or a keyword is read as a script as it is read elsewhere. -/
theorem Primary.takes_legacyScriptArgument (h : Primary d parsed rows s v next)
    (hs : ∀ o, ∃ t ts, tokens d o s = t :: ts ∧
      (t.isOpening = true ∧ t.text ≠ "\x7b" ∨ t.kind = .keyword)) :
    Takes d parsed rows (legacyScriptArgument read) s v next := by
  intro c o ts hc ht
  obtain ⟨t, us, hu, ht'⟩ := hs o
  obtain ⟨t', us', hu', hstart⟩ := h.starts o
  obtain ⟨rfl, rfl⟩ : t = t' ∧ us = us' := by simpa [hu] using hu'
  obtain ⟨hb, hp⟩ := hstart c hc
  have htakes := h.takes c o ts hc ht
  rw [hu, List.cons_append] at htakes ⊢
  obtain ⟨hopen, hbrace⟩ | hkey := ht'
  · have hkind : t.kind = .symbol := by
      simp only [Token.isOpening, Bool.and_eq_true, decide_eq_true_eq] at hopen
      exact hopen.1
    have hrelation : t.isRelation = false := by
      by_contra hrel
      simp only [Bool.not_eq_false, Token.isRelation, Bool.and_eq_true] at hrel
      have hopen' := hopen
      simp only [Token.isOpening, Bool.and_eq_true] at hopen'
      have hall : ∀ u ∈ ["=", "<", ">"], Vocabulary.isOpening u = false := by decide
      simp [hall t.text (by simpa [Vocabulary.isRelation] using hrel.2)] at hopen'
    simpa [legacyScriptArgument, Token.isSymbol, hkind, hbrace, hopen, primary_of_isOpening hopen,
      startsOperand_of_starts ⟨hb, hp⟩ hrelation] using htakes
  · have hrelation : t.isRelation = false := by simp [Token.isRelation, hkey]
    simpa [legacyScriptArgument, Token.isSymbol, hkey, primary, hb, hp,
      startsOperand_of_starts ⟨hb, hp⟩ hrelation] using htakes

end Atoms

end MathMarkup.Grammar
