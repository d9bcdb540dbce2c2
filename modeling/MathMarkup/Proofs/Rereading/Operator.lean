import MathMarkup.Proofs.Rereading.Literal
import MathMarkup.Proofs.Rereading.Slot

/-! How literals, operators and scripts are read back from their written forms. -/
namespace MathMarkup.Grammar

open Scan
open Reading (Alike)

variable {d : Dialect} {parsed rows : Bool} {level L : Level} {l r s w m text value : String}
  {kind : TokenKind} {v vl vr : Expr} {next nl nr : Next} {c : Context} {t u : Token}
  {ts : List Token}

section Literals

theorem identifier_of_next (h : ∀ u ∈ ts.head?, u.isOpening = false ∧ u.word? ≠ some "left")
    (c : Context) (t : Token) :
    identifier read c t ts = .done (.literal (identifierValue c.dialect t.text)) ts := by
  cases ts with
  | nil => rfl
  | cons u ts => simp [identifier, h u rfl]

theorem facts_of_left (h : t.word? = some "left") :
    c.isBoundary t = false ∧ isProductOperator t = false ∧ t.isOpening = false := by
  obtain ⟨kind, text, offset⟩ := t
  simp only [Token.word?] at h
  split at h
  · next hk =>
    simp at h
    simp [hk, Context.isBoundary, Token.isClosing, Token.isOpening, Token.word?, Token.isSymbol,
      endsRow, isProductOperator, operator?, h]
  · simp at h

theorem primary_of_left (h : t.word? = some "left") (c : Context) (ts : List Token) :
    primary read c (t :: ts) = sizedBracket read c ts := by
  obtain ⟨hb, hp, -⟩ := facts_of_left (c := c) h
  have hk : t.kind = .keyword := by
    by_contra hk
    simp [Token.word?, hk] at h
  simp [primary, hb, hp, hk, keywordForm, h]

/-- In front of a bracket an identifier is applied to it. -/
theorem identifier_of_bracket (h : u.isOpening = true ∨ u.word? = some "left") (c : Context)
    (t : Token) (ts : List Token) : identifier read c t (u :: ts) =
      (primary read c (u :: ts)).map
        (.binary "apply" (.literal (identifierValue c.dialect t.text))) := by
  obtain h | h := h
  · rw [primary_of_isOpening h]
    simp [identifier, h]
  · rw [primary_of_left h]
    simp [identifier, (facts_of_left (c := c) h).2.2, h]

theorem solid_literal (h : Expr.Spelled d rows value kind text) :
    Solid d (Expr.renderLiteral d value) :=
  .of_chars h.forms.whole h.solid

theorem significant_of_reads {t : Token} (h : Expr.ReadsAs d rows value t) :
    t.kind ≠ .space ∧ t.kind ≠ .unknown := by
  have hkind := h.2.2
  cases hk : t.kind <;> simp [hk] at hkind ⊢

theorem ending_literal (h : Expr.Spelled d rows value .identifier text) :
    (Expr.literal value).ending d = .word := by
  have htokens := h.forms.tokens_eq (o := 0) (by simp)
  obtain ⟨u, hu, hshift⟩ := firstToken?_of_tokens htokens
  have hkind : u.kind = .identifier := congrArg Token.kind hshift
  simp [Expr.ending, hu, hkind]

/-- A token that is a literal is read as that, unless it is a name in front of a bracket. -/
theorem primary_of_reads (h : Expr.ReadsAs d rows value t) (hd : c.dialect = d)
    (hrows : c.inRows = rows)
    (hnext : t.kind = .identifier → ∀ u ∈ ts.head?, u.isOpening = false ∧ u.word? ≠ some "left") :
    primary read c (t :: ts) = .done (.literal value) ts := by
  obtain ⟨hboundary, hp, hvalue⟩ := h
  have hb := hboundary c hd hrows
  subst hd
  simp only [primary, hb, hp, Bool.or_self, Bool.false_eq_true, if_false]
  cases hk : t.kind with
  | identifier =>
    simp only [hk] at hvalue ⊢
    rw [identifier_of_next (hnext hk), hvalue]
  | number =>
    simp only [hk] at hvalue ⊢
    rw [literalOf, hvalue]
  | symbol =>
    simp only [hk] at hvalue ⊢
    obtain ⟨hopen, hscript, hsign, hliteral⟩ := hvalue
    simp [hopen, hscript, hsign, hliteral]
  | _ => simp [hk] at hvalue

theorem primary_literal (h : Expr.IsOperandValue d rows value) :
    Primary d parsed rows (Expr.renderLiteral d value) (.literal value) fun _ _ t =>
      (Expr.literal value).ending d = .word → t.isOpening = false ∧ t.word? ≠ some "left" := by
  obtain ⟨kind, text, h⟩ := h.spelled
  have hk := significant_of_reads (h.reads 0)
  have htokens (o : ℕ) := h.forms.tokens_eq (o := o) hk
  refine ⟨solid_literal h, fun o => ⟨_, [], htokens o, fun c hc => ?_⟩, fun c o ts hc ht => ?_⟩
  · exact ⟨(h.reads o).1 c hc.dialect hc.inRows, (h.reads o).2.1⟩
  · rw [htokens, List.singleton_append]
    refine .of_eq (primary_of_reads (h.reads o) hc.dialect hc.inRows ?_)
    rintro rfl u hu
    exact ht u hu (ending_literal h)

end Literals

section Operators

/-- A name is applied to the bracket after it. -/
theorem primary_apply (hname : Expr.Spelled d rows value .identifier text)
    (hr : Primary d parsed rows r vr nr)
    (hbracket : ∀ o, ∃ t ts, tokens d o r = t :: ts ∧ (t.isOpening = true ∨ t.word? = some "left"))
    (hs : Solid d s) (hleads : Leads d .identifier text r s) :
    Primary d parsed rows s (.binary "apply" (.literal value) vr) nr := by
  have hstart c (o : ℤ) (hc : Fits c d rows) :=
    (⟨(hname.reads o).1 c hc.dialect hc.inRows, (hname.reads o).2.1⟩ :
      c.isBoundary ⟨.identifier, text, o⟩ = false ∧ isProductOperator ⟨.identifier, text, o⟩ = false)
  refine ⟨hs, hleads.starts hstart, fun c o ts hc ht => ?_⟩
  obtain ⟨hb, hp⟩ := hstart c o hc
  obtain ⟨q, htokens, hq⟩ := hleads o
  obtain ⟨u, us, hu, hopens⟩ := hbracket q
  have hv : identifierValue d text = value := (hname.reads o).2.2
  have hread : primary read c (tokens d o s ++ ts) =
      (primary read c (tokens d q r ++ ts)).map (.binary "apply" (.literal value)) := by
    rw [htokens, hu, List.cons_append, List.cons_append, ← hv, ← hc.dialect,
      ← identifier_of_bracket hopens c ⟨.identifier, text, o⟩]
    simp only [primary, hb, hp, Bool.or_self, Bool.false_eq_true, if_false]
  rw [hread]
  exact (hr.takes c q ts hc (by rwa [hq])).map _

theorem renderLiteral_of_isMark (h : IsMark m) : Expr.renderLiteral d m = m := by
  obtain ⟨c, hc, rfl⟩ := h
  exact Expr.renderLiteral_mark hc

theorem isMark_sign (ho : m = "+" ∨ m = "-") : IsMark m := by
  obtain rfl | rfl := ho
  · exact ⟨'+', by decide, rfl⟩
  · exact ⟨'-', by decide, rfl⟩

theorem sign_facts (ho : m = "+" ∨ m = "-") (o : ℤ) (c : Context) :
    (c.isBoundary ⟨.symbol, m, o⟩ = false ∧ isProductOperator ⟨.symbol, m, o⟩ = false) ∧
    (⟨.symbol, m, o⟩ : Token).isOpening = false ∧ (⟨.symbol, m, o⟩ : Token).isScript = false ∧
    (⟨.symbol, m, o⟩ : Token).isSign = true := by
  obtain rfl | rfl := ho <;>
    simp [Context.isBoundary, Token.isClosing, Vocabulary.isClosing, Token.word?, Token.isSymbol,
      endsRow, isProductOperator, operator?, Token.isOpening, Vocabulary.isOpening,
      Vocabulary.closing?, Token.isScript, Token.isSign, Vocabulary.isSign, Vocabulary.lineBreak]

/-- A sign takes the factor after it. -/
theorem primary_signed (ho : m = "+" ∨ m = "-") (hr : Slot d parsed rows .factor r vr nr) :
    Primary d parsed rows (m ++ r) (.binary m .empty vr) fun c p t =>
      nr c p t ∧ t.isScript = false := by
  have hm : IsMark m := isMark_sign ho
  have hleads : Leads d .symbol m r (m ++ r) :=
    leads_append hm.forms (by simp) (hm.separate_left _)
  refine ⟨Solid.mark_append hm hr.solid, hleads.starts fun c o _ => (sign_facts ho o c).1,
    fun c o ts hc ht => ?_⟩
  obtain ⟨q, htokens, hq⟩ := hleads o
  obtain ⟨⟨hb, hp⟩, hopen, hscript, hsign⟩ := sign_facts ho o c
  have henters := hr.enters c q ts hc fun t h' => hq ▸ (ht t h').1
  have hends : resume c .factor vr ts = .done vr ts := scripts_of_ends (fun t h' => (ht t h').2) vr
  rw [hends] at henters
  rw [htokens, List.cons_append]
  simp only [primary, hb, hp, Bool.or_self, Bool.false_eq_true, if_false, hopen, hscript, hsign,
    if_true, read_operand]
  exact henters.map _

theorem spaced_two (hl : l ≠ "") (hr : r ≠ "") : Expr.spaced [l, r] = l ++ (" " ++ r) := by
  simp [Expr.spaced, hl, hr, String.append_assoc]

theorem spaced_gap (a b : String) : Expr.spaced [a, "", b] = Expr.spaced [a, b] := by
  simp [Expr.spaced, List.filter_cons]

theorem spaced_three (hl : l ≠ "") (hw : w ≠ "") (hr : r ≠ "") :
    Expr.spaced [l, w, r] = l ++ (" " ++ (w ++ (" " ++ r))) := by
  simp [Expr.spaced, hl, hw, hr, String.append_assoc]

/-- The middle one of three texts may be empty. -/
theorem spaced_middle (hs : Whole d s.toList) (hr : Solid d r) (hne : r ≠ "") (hl : l ≠ "") :
    ∃ gap m, Splits d gap s r m ∧ Trailing d m ∧ m ≠ "" ∧
      Expr.spaced [l, s, r] = l ++ (" " ++ m) := by
  by_cases h : s = ""
  · subst h
    refine ⟨0, r, fun o => ⟨o, by simp, by simp [tokens_empty], rfl⟩, hr.toTrailing, hne, ?_⟩
    rw [spaced_gap, spaced_two hl hne]
  · have hgap := hr.toTrailing.gap hne
    exact ⟨1, s ++ (" " ++ r), splits_gap hs r, hgap.prepend hs (by simp) (gap_separate_right _ _),
      by simp [h], spaced_three hl h hne⟩

/-- An operator with blanks around it joins the operand read so far to the one after it. -/
theorem slot_operation (hL : L ≠ .factor) (hL' : L ≠ .sequence)
    (hl : Slot d parsed rows L l vl nl) (hr : Slot d parsed rows L.next r vr nr)
    (hw : Solid d w) (hne : w ≠ "") (hforms : Forms d w.toList kind text)
    (hk : kind ≠ .space ∧ kind ≠ .unknown) {operator : String}
    (hop : ∀ q, operator? L ⟨kind, text, q⟩ = some operator)
    (hends : ∀ q, EndsOperand L.next ⟨kind, text, q⟩)
    (hn : ∀ c (p q : ℤ), p < q → nl c p ⟨kind, text, q⟩) :
    Slot d parsed rows L (Expr.spaced [l, w, r]) (combine operator vl vr) fun c p t =>
      nr c p t ∧ EndsOperand L.next t := by
  rw [spaced_three hl.ne_empty hne hr.ne_empty]
  have hgap : (" " : String).length = 1 := rfl
  have hwr : w ++ (" " ++ r) ≠ "" := by
    intro h
    simpa [hgap] using congrArg String.length h
  have htokens (o : ℕ) : tokens d o (l ++ (" " ++ (w ++ (" " ++ r)))) =
      tokens d o l ++ ⟨kind, text, (o + l.length + 1 : ℕ)⟩ ::
        tokens d (o + l.length + 1 + w.length + 1) r := by
    rw [tokens_append_gap hl.solid.whole, tokens_append_gap hw.whole, hforms.tokens_eq hk]
    rfl
  refine ⟨hl.solid.spaced (hw.spaced hr.solid.toTrailing hne hr.ne_empty).toTrailing hl.ne_empty hwr,
    starts_append hl.starts fun o => ⟨_, htokens o⟩, fun c o ts hc ht => ?_⟩
  rw [htokens, List.append_assoc, List.cons_append]
  have hleft := hl.enters c o (⟨kind, text, (o + l.length + 1 : ℕ)⟩ ::
    (tokens d (o + l.length + 1 + w.length + 1) r ++ ts)) hc fun t h' => by
      obtain rfl : _ = t := by simpa using h'
      exact hn _ _ _ (by omega)
  have hplace : o + l.length + 1 + w.length + 1 + r.length =
      o + (l ++ (" " ++ (w ++ (" " ++ r)))).length := by
    simp only [String.length_append, hgap]
    omega
  have hright := hr.enters c (o + l.length + 1 + w.length + 1) ts hc fun t h' =>
    hplace ▸ (ht t h').1
  rw [resume_of_ends (next_ne_sequence L) fun t h' => (ht t h').2] at hright
  rw [resume_of_ends_next hL fun t h' => (ht t h').2]
  refine hleft.trans ?_
  rw [resume_of_ends_next hL (by simpa using hends _), read_chain hL']
  simp only [chain, hop, read_operand]
  exact hright.bind_done (.refl _)

/-- What stands beside an expression is joined to it. -/
theorem slot_beside (hl : Slot d parsed rows .sequence l vl nl)
    (hr : Slot d parsed rows .relation r vr nr) (hs : Solid d s)
    {gap : ℕ} (hsplit : Splits d gap l r s)
    (hn : ∀ c (o q : ℕ) t us, Fits c d rows → o + l.length + gap = q → tokens d q r = t :: us →
      c.isBoundary t = false → isProductOperator t = false →
      EndsOperand .relation t ∧ nl c (o + l.length : ℕ) t) :
    Slot d parsed rows .sequence s (.binary "concat" vl vr) fun c p t =>
      nr c p t ∧ EndsOperand .relation t := by
  refine ⟨hs, starts_append hl.starts fun o => ?_, fun c o ts hc ht => ?_⟩
  · obtain ⟨q, -, hq, -⟩ := hsplit o
    exact ⟨_, hq⟩
  obtain ⟨q, hgap, hq, hplace⟩ := hsplit o
  obtain ⟨t, us, hu, hstart⟩ := hr.starts q
  obtain ⟨hb, hp⟩ := hstart c hc
  obtain ⟨hends, hnext⟩ := hn c o q t us hc hgap hu hb hp
  have hright := hr.enters c q ts hc fun t h' => hplace ▸ (ht t h').1
  rw [resume_of_ends (by decide) fun t h' => (ht t h').2] at hright
  have hleft := hl.enters c o (tokens d q r ++ ts) hc (by simpa [hu] using hnext)
  have hsequence : ∀ t ∈ (tokens d q r ++ ts).head?, EndsOperand (Level.next .sequence) t := by
    rw [hu]
    rintro t ⟨⟩
    exact hends
  rw [resume_of_ends_next (by decide) hsequence, read_sequence_chain, juxtaposed] at hleft
  have hboundary : atBoundary c (tokens d q r ++ ts) = false := by simp [hu, atBoundary, hb]
  have hmap := hright.map (Expr.binary "concat" vl)
  rw [if_neg (by simp [hboundary]), onward_eq] at hleft
  · rw [hq, List.append_assoc, resume_of_ends_next (L := .sequence) (by decide) fun t h' =>
      (ht t h').2]
    exact hleft.trans (hmap.bind_done (.refl _))
  · have hrest : (relation read c (tokens d q r ++ ts)).rest = ts := hright.rest
    rw [Reading.rest_map, hrest, hu]
    simp only [List.length_cons, List.length_append]
    omega

theorem scripts_mark (side : Script) (c : Context) (e : Expr) (q : ℤ) (ts : List Token) :
    scripts read c e (⟨.symbol, Expr.scriptMark side, q⟩ :: ts) =
      (scriptArgument read c ts).bind fun x => scripts read c (.script side e.unwrap x) := by
  have hscripts (x : Expr) (us : List Token) := read_scripts (.script side e.unwrap x) c us
  rw [scripts]
  cases side <;> simp [Token.isSymbol, Expr.scriptMark, read_scriptArgument, hscripts]

theorem isMark_scriptMark (side : Script) : IsMark (Expr.scriptMark side) := by
  cases side
  · exact ⟨'^', by decide, rfl⟩
  · exact ⟨'_', by decide, rfl⟩

theorem scriptMark_facts (side : Script) (q : ℤ) (c : Context) :
    c.isBoundary ⟨.symbol, Expr.scriptMark side, q⟩ = false ∧
    isProductOperator ⟨.symbol, Expr.scriptMark side, q⟩ = false := by
  cases side <;>
    simp [Expr.scriptMark, Context.isBoundary, Token.isClosing, Vocabulary.isClosing, Token.word?,
      Token.isSymbol, endsRow, isProductOperator, operator?, Vocabulary.lineBreak]

/-- The text in front of a script mark is read as the base. -/
structure Base (d : Dialect) (parsed rows : Bool) (side : Script) (s : String) (v : Expr) :
    Prop where
  solid : Solid d s
  starts : s ≠ "" → Starts d rows s
  enters : ∀ c (o : ℕ) (q : ℤ) ts, Fits c d rows →
    Alike (Tidy d parsed)
      (operand read c .factor (tokens d o s ++ ⟨.symbol, Expr.scriptMark side, q⟩ :: ts))
      (scripts read c v (⟨.symbol, Expr.scriptMark side, q⟩ :: ts))

theorem Slot.base {side : Script} (h : Slot d parsed rows .factor s v next)
    (hn : ∀ c p q, next c p ⟨.symbol, Expr.scriptMark side, q⟩) : Base d parsed rows side s v := by
  refine ⟨h.solid, fun _ => h.starts, fun c o q ts hc => h.enters c o _ hc fun t h' => ?_⟩
  obtain rfl : _ = t := by simpa using h'
  exact hn _ _ _

/-- A script mark takes nothing. -/
theorem primary_scriptMark (side : Script) (c : Context) (q : ℤ) (ts : List Token) :
    primary read c (⟨.symbol, Expr.scriptMark side, q⟩ :: ts) =
      .done .empty (⟨.symbol, Expr.scriptMark side, q⟩ :: ts) := by
  obtain ⟨hb, hp⟩ := scriptMark_facts side q c
  simp only [primary, hb, hp, Bool.or_self, Bool.false_eq_true, if_false]
  cases side <;>
    simp [Expr.scriptMark, Token.isOpening, Vocabulary.isOpening, Vocabulary.closing?,
      Token.isScript, Token.isSymbol]

/-- A script mark without a base takes the empty literal as its base. -/
theorem base_empty (side : Script) : Base d parsed rows side "" .empty := by
  refine ⟨Solid.empty d, fun h => absurd rfl h, fun c o q ts _ => .of_eq ?_⟩
  simp [tokens_empty, operand, factor, primary_scriptMark]

/-- A script attaches to what stands before its mark. -/
theorem slot_script {side : Script} {a : String} {va : Expr} {na : Next}
    (hb : Base d parsed rows side s v) (ha : Solid d a)
    (htakes : Takes d parsed rows (scriptArgument read) a va na) :
    Slot d parsed rows .factor (s ++ (Expr.scriptMark side ++ a)) (.script side v.unwrap va) na := by
  have hmark := isMark_scriptMark side
  have htokens (o : ℕ) := tokens_append_mark hb.solid.whole hmark o a
  refine ⟨hb.solid.append_mark hmark (Solid.mark_append hmark ha), ?_, fun c o ts hc ht => ?_⟩
  · by_cases hne : s = ""
    · subst hne
      intro o
      exact ⟨_, _, by simpa [tokens_empty] using htokens o, fun c _ => scriptMark_facts side _ c⟩
    · exact starts_append (hb.starts hne) fun o => ⟨_, htokens o⟩
  · have hplace : o + s.length + 1 + a.length = o + (s ++ (Expr.scriptMark side ++ a)).length := by
      have hlength : (Expr.scriptMark side).length = 1 := by cases side <;> rfl
      simp only [String.length_append, hlength]
      omega
    have harg := htakes c (o + s.length + 1) ts hc (by rwa [hplace])
    rw [htokens, List.append_assoc, List.cons_append]
    refine (hb.enters c o _ _ hc).trans ?_
    rw [scripts_mark]
    exact harg.bind_done (.refl _)

end Operators

end MathMarkup.Grammar
