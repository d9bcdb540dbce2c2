import MathMarkup.Proofs.Grammar.Locality

/-! What a cell is by itself. A block that is all of a text ends with its own end and nothing else, so
its only cell is read up to there, and then in the same way up to any boundary. -/
namespace MathMarkup.Grammar

variable {c : Context} {d : Dialect} {name : String} {e x : Expr} {t : Token}
  {ts us xs opening closing after : List Token} {level : Level}

/-- The tokens that a block of a name begins with. -/
inductive Opens : Dialect → String → List Token → Prop
  | latex {keyword brace last : Token} {name : List Token} (hk : keyword.word? = some "begin")
      (hb : brace.isSymbol "\x7b" = true) (hn : ∀ t ∈ name, inBlockName t = true)
      (hl : last.isSymbol "\x7d" = true) :
      Opens .latex (joinTexts name) (keyword :: brace :: (name ++ [last]))
  | legacy {keyword brace : Token} {block : Block} (hk : keyword.kind = .keyword)
      (hblock : Block.ofLegacy? keyword.text = some block) (hb : brace.isSymbol "\x7b" = true) :
      Opens .legacy block.name [keyword, brace]

/-- The tokens that it ends with. -/
inductive Closes : Dialect → String → List Token → Prop
  | latex {keyword brace last : Token} {name : List Token} (hk : keyword.word? = some "end")
      (hb : brace.isSymbol "\x7b" = true) (hn : ∀ t ∈ name, inBlockName t = true)
      (hl : last.isSymbol "\x7d" = true) :
      Closes .latex (joinTexts name) (keyword :: brace :: (name ++ [last]))
  | legacy {brace : Token} {name : String} (hb : brace.isSymbol "\x7d" = true) :
      Closes .legacy name [brace]

section Names

variable {names : List Token} {last : Token}

theorem blockName_of_name (hn : ∀ t ∈ names, inBlockName t = true)
    (hl : last.isSymbol "\x7d" = true) (c : Context) (ts : List Token) :
    blockName c (names ++ last :: ts) = .done (joinTexts names) ts := by
  have hlast : inBlockName last = false := by simp [inBlockName, hl]
  simp [blockName, List.dropWhile_append_of_pos hn, List.takeWhile_append_of_pos hn, hlast, expect,
    hl]

theorem startsEnd_of_name {keyword brace : Token} (hk : keyword.word? = some "end")
    (hb : brace.isSymbol "\x7b" = true) (hn : ∀ t ∈ names, inBlockName t = true)
    (hl : last.isSymbol "\x7d" = true) (ts : List Token) :
    startsEnd (joinTexts names) (keyword :: brace :: (names ++ last :: ts)) = true := by
  have hlast : inBlockName last = false := by simp [inBlockName, hl]
  simp [startsEnd, hk, hb, List.dropWhile_append_of_pos hn, List.takeWhile_append_of_pos hn, hlast,
    hl]

end Names

section Openings

/-- A block goes on with its rows. -/
theorem Opens.primary (h : Opens d name opening) (hc : c.dialect = d) :
    ∃ t us, opening = t :: us ∧ c.isBoundary t = false ∧
      ∀ ts, primary read c (t :: (us ++ ts)) = rows read c name [] [] false ts := by
  have hstart {t : Token} (hk : t.kind = .keyword) (hw : Text.lower t.text ∉ tailWords) :
      c.isBoundary t = false ∧ isProductOperator t = false := by
    obtain ⟨kind, text, q⟩ := t
    obtain rfl : kind = .keyword := hk
    exact starts_keyword hw c q
  cases h with
  | @latex t brace last names hk hb hn hl =>
    have hkind := kind_of_word hk
    have htext : Text.lower t.text = "begin" := by simpa [Token.word?, hkind] using hk
    obtain ⟨hboundary, hproduct⟩ := hstart hkind (by rw [htext]; decide)
    refine ⟨t, _, rfl, hboundary, fun ts => ?_⟩
    have hdecoration : decoration? .latex t = none := by
      cases hof : decoration? .latex t with
      | none => rfl
      | some decoration => exact absurd (by simp [htext]) (lower_of_decoration hof).2.2
    simp [primary, hboundary, hproduct, hkind, keywordForm, hk, hc, hdecoration, dialectKeyword,
      latexBlock, hb, blockName_of_name hn hl, read_rows]
  | @legacy t brace block hk hblock hb =>
    obtain ⟨hwords, hdecoration⟩ :=
      Depth.word?_of_isBlockKeyword (t := t) (by simp [isBlockKeyword, hk, hblock])
    obtain ⟨hboundary, hproduct⟩ := hstart hk fun hmem => hwords _ (List.mem_append_left _ hmem) (if_pos hk)
    refine ⟨t, _, rfl, hboundary, fun ts => ?_⟩
    have hform : keywordForm read c t (brace :: ts) = dialectKeyword read c t (brace :: ts) := by
      unfold keywordForm
      split
      · next hw => exact absurd hw (hwords "sqrt" (by decide))
      · next hw => exact absurd hw (hwords "int" (by decide))
      · next hw => exact absurd hw (hwords "oint" (by decide))
      · next hw => exact absurd hw (hwords "sum" (by decide))
      · next hw => exact absurd hw (hwords "left" (by decide))
      · simp [hc, decoration?, hdecoration]
    simp [primary, hboundary, hproduct, hk, hform, dialectKeyword, hc, hblock, legacyBlock, hb,
      read_rows]

end Openings

section Closings

theorem Closes.kind (h : Closes d name closing) : ∀ t ∈ closing, t.kind ≠ .stop := by
  have hsymbol {t : Token} {text : String} (h : t.isSymbol text = true) : t.kind ≠ .stop := by
    intro hstop
    simp [isSymbol_of_stop hstop] at h
  cases h with
  | latex hk hb hn hl =>
    intro t ht
    rw [List.mem_cons, List.mem_cons, List.mem_append, List.mem_singleton] at ht
    obtain rfl | rfl | ht | rfl := ht
    · simp [kind_of_word hk]
    · exact hsymbol hb
    · have hname := hn t ht
      simp only [inBlockName, Bool.and_eq_true, decide_eq_true_eq] at hname
      exact hname.1
    · exact hsymbol hl
  | legacy hb =>
    intro t ht
    rw [List.mem_singleton] at ht
    exact hsymbol (ht ▸ hb)

/-- A block ends at a boundary. -/
theorem Closes.head (h : Closes d name closing) :
    ∃ t us, closing = t :: us ∧ ∀ c : Context, c.isBoundary t = true := by
  cases h with
  | @latex t brace last names hk hb hn hl =>
    exact ⟨t, _, rfl, fun c => by simp [Context.isBoundary, hk]⟩
  | @legacy t name hb =>
    have hclose : t.isClosing = true := by
      simp only [Token.isSymbol, Bool.and_eq_true, decide_eq_true_eq] at hb
      simp [Token.isClosing, hb, Vocabulary.isClosing]
    exact ⟨t, [], rfl, fun c => by simp [Context.isBoundary, hclose]⟩

theorem Closes.rows (h : Closes d name closing) (hc : c.dialect = d) (complete : List (List Expr))
    (cells : List Expr) (filled : Bool) (ts : List Token) :
    rows read c name complete cells filled (closing ++ ts) =
      .done (.block name (closeRow complete cells)) ts := by
  cases h with
  | latex hk hb hn hl =>
    have hstarts := startsEnd_of_name hk hb hn hl ts
    simp [Grammar.rows, endsRows, hc, hstarts, blockEnd, endName, hb, blockName_of_name hn hl]
  | legacy hb => simp [Grammar.rows, endsRows, hc, hb, blockEnd, expect]

/-- The end of a block is no longer and no shorter than that of another with its name. -/
theorem Closes.eq_of_suffix (h : Closes d name closing) (hts : Closes d name ts)
    (hs : closing <:+ ts) : closing = ts := by
  cases h with
  | legacy hb =>
    cases hts with
    | legacy hb' => exact hs.eq_of_length rfl
  | @latex t brace last names hk hb hn hl =>
    generalize hname : joinTexts names = name at hts
    cases hts with
    | @latex t' brace' last' names' hk' hb' hn' hl' =>
      rw [List.suffix_cons_iff, List.suffix_cons_iff] at hs
      obtain hs | hs | hs := hs
      · exact hs
      · -- A brace is no keyword.
        have ht : t = brace' := (List.cons.inj hs).1
        have hkind := kind_of_word hk
        rw [ht] at hkind
        simp [Token.isSymbol, hkind] at hb'
      · -- The name would hold the keyword besides the whole of itself.
        exfalso
        obtain ⟨pre, hpre⟩ := hs
        have hnames : pre ++ t :: brace :: names = names' := by
          have happend : (pre ++ t :: brace :: names) ++ [last] = names' ++ [last'] := by
            simpa using hpre
          exact List.append_inj_left' happend rfl
        have hbrace : brace.text.length = 1 := by
          simp only [Token.isSymbol, Bool.and_eq_true, decide_eq_true_eq] at hb
          rw [hb.2]
          rfl
        have hlength := congrArg String.length hname
        rw [← hnames] at hlength
        simp only [joinTexts_append] at hlength
        simp [joinTexts, String.join_cons, hbrace] at hlength
        omega

/-- In front of the same tokens a list ends with one end of a block only. -/
theorem Closes.eq_of_common (h : Closes d name closing) (hts : Closes d name ts)
    (hs : closing ++ after <:+ xs) (hs' : ts ++ after <:+ xs) : closing = ts := by
  have hcancel {as bs : List Token} (h : as ++ after <:+ bs ++ after) : as <:+ bs := by
    obtain ⟨pre, hpre⟩ := h
    exact ⟨pre, List.append_cancel_right (by rw [List.append_assoc, hpre])⟩
  obtain hle | hle := List.suffix_or_suffix_of_suffix hs hs'
  · exact h.eq_of_suffix hts (hcancel hle)
  · exact (hts.eq_of_suffix h (hcancel hle)).symm

/-- Without a note the end of a block is what it ends with. -/
theorem blockEnd_closes (h : (blockEnd c name ts).notes = []) :
    ∃ closing, Closes c.dialect name closing ∧ ts = closing ++ (blockEnd c name ts).rest := by
  unfold blockEnd at h ⊢
  cases hd : c.dialect with
  | latex =>
    simp only [hd] at h ⊢
    by_cases hstarts : startsEnd name ts = true
    · match ts with
      | [] | [t] => simp [startsEnd] at hstarts
      | t :: brace :: ts =>
        simp only [startsEnd, Bool.and_eq_true, decide_eq_true_eq] at hstarts
        obtain ⟨⟨⟨hk, hb⟩, hlast⟩, rfl⟩ := hstarts
        have hn : ∀ t ∈ ts.takeWhile inBlockName, inBlockName t = true := fun t ht =>
          List.all_eq_true.1 List.all_takeWhile t ht
        have hsplit := List.takeWhile_append_dropWhile (p := inBlockName) (l := ts)
        cases hdrop : ts.dropWhile inBlockName with
        | nil => simp [hdrop] at hlast
        | cons last us =>
          have hl : last.isSymbol "\x7d" = true := by simpa [hdrop] using hlast
          refine ⟨_, .latex hk hb hn hl, ?_⟩
          rw [hdrop] at hsplit
          have hname := blockName_of_name hn hl c us
          rw [hsplit] at hname
          have hstarts' := startsEnd_of_name hk hb hn hl us
          rw [hsplit] at hstarts'
          simp only [hstarts', if_true, List.tail_cons, endName, hb, hname]
          simp [hsplit, Reading.done]
    · simp [hstarts, miss] at h
  | legacy =>
    simp only [hd] at h ⊢
    cases ts with
    | nil => simp [expect, miss] at h
    | cons t ts =>
      by_cases hb : t.isSymbol "\x7d" = true
      · exact ⟨[t], .legacy hb, by simp [expect, hb, Reading.done]⟩
      · simp [expect, hb, miss] at h

/-- Without a note the rows of a block end with what it ends with. -/
theorem rows_closes (complete : List (List Expr)) (cells : List Expr) (filled : Bool)
    (ts : List Token) (h : (rows read c name complete cells filled ts).notes = []) :
    ∃ closing, Closes c.dialect name closing ∧
      closing ++ (rows read c name complete cells filled ts).rest <:+ ts := by
  induction hn : ts.length using Nat.strong_induction_on generalizing complete cells filled ts with
  | _ n ih =>
    subst hn
    have hend (h : (blockEnd c name ts).notes = []) : ∃ closing, Closes c.dialect name closing ∧
        closing ++ (blockEnd c name ts).rest <:+ ts := by
      obtain ⟨closing, hclosing, hts⟩ := blockEnd_closes h
      exact ⟨closing, hclosing, hts ▸ List.suffix_refl _⟩
    cases ts with
    | nil => exact hend h
    | cons t ts =>
      have hagain (complete : List (List Expr)) (cells : List Expr) (filled : Bool)
          (us : List Token) (hus : us <:+ ts)
          (h : (read (.rows name complete cells filled) c us).notes = []) :
          ∃ closing, Closes c.dialect name closing ∧
            closing ++ (read (.rows name complete cells filled) c us).rest <:+ t :: ts := by
        rw [read_rows] at h ⊢
        obtain ⟨closing, hclosing, hsuffix⟩ :=
          ih us.length (Nat.lt_succ_of_le hus.length_le) complete cells filled us h rfl
        exact ⟨closing, hclosing, (hsuffix.trans hus).trans (List.suffix_cons t ts)⟩
      by_cases hends : t.kind = .stop ∨ endsRows c.dialect name (t :: ts) = true
      · simp only [rows, if_pos hends] at h ⊢
        exact hend h
      by_cases hrow : endsRow c.dialect t = true
      · simp only [rows, if_neg hends, hrow, if_true] at h ⊢
        exact hagain _ _ _ ts (List.suffix_refl ts) h
      by_cases hcell : t.isSymbol "&" = true
      · simp only [rows, if_neg hends, hrow, hcell, Bool.false_eq_true, if_false, if_true] at h ⊢
        exact hagain _ _ _ ts (List.suffix_refl ts) h
      rw [Bool.not_eq_true] at hrow hcell
      cases hb : c.isBoundary t with
      | true => simp [rows, if_neg hends, hrow, hcell, hb, notes_skipStray] at h
      | false =>
        rw [rows_of_cell hends hrow hcell hb] at h ⊢
        have htakes := sequence_takes ((isBoundary_withinRows_iff hrow hcell).trans hb) ts
        rw [Reading.notes_bind, List.append_eq_nil_iff] at h
        exact hagain _ _ _ _ htakes h.2

/-- Whatever the rows are, they are those of the block. -/
theorem rows_block (complete : List (List Expr)) (cells : List Expr) (filled : Bool)
    (ts : List Token) :
    ∃ table, (rows read c name complete cells filled ts).value = .block name table := by
  induction hn : ts.length using Nat.strong_induction_on generalizing complete cells filled ts with
  | _ n ih =>
    subst hn
    cases ts with
    | nil => exact ⟨_, rfl⟩
    | cons t ts =>
      have hagain (complete : List (List Expr)) (cells : List Expr) (filled : Bool)
          (us : List Token) (hus : us.length < (t :: ts).length) : ∃ table,
          (read (.rows name complete cells filled) c us).value = .block name table := by
        rw [read_rows]
        exact ih us.length hus complete cells filled us rfl
      have hskip := Nat.lt_succ_of_le (skipStray_settled (c := c) t ts).2.length_le
      have hnext := Nat.lt_succ_self ts.length
      simp only [rows]
      split
      · exact ⟨_, rfl⟩
      · split
        · exact hagain _ _ _ _ hnext
        · split
          · exact hagain _ _ _ _ hnext
          · split
            · exact hagain _ _ _ _ hskip
            · split
              · next hlt => exact hagain _ _ _ _ hlt
              · exact hagain _ _ _ _ hskip

end Closings

section Wholes

/-- Whether an expression is made of operands by what stands between or behind them. -/
def isJoined : Expr → Bool
  | .binary .. | .fraction .. | .script .. => true
  | _ => false

theorem isJoined_combine (operator : String) (left right : Expr) :
    isJoined (combine operator left right) = true := by
  unfold combine
  split_ifs <;> rfl

theorem scripts_of_whole (h : isJoined (scripts read c e ts).value = false) :
    scripts read c e ts = .done e ts := by
  induction hn : ts.length using Nat.strong_induction_on generalizing e ts with
  | _ n ih =>
    subst hn
    cases ts with
    | nil => rfl
    | cons t ts =>
      have hscript (side : Script) : isJoined ((read .scriptArgument c ts).bind fun a rest =>
          read (.scripts (.script side e.unwrap a)) c rest).value ≠ false := by
        intro hvalue
        rw [Reading.value_bind, read_scripts] at hvalue
        have hdone := ih _ (Nat.lt_succ_of_le (read_suffix ..).length_le) hvalue rfl
        rw [hdone] at hvalue
        cases hvalue
      simp only [scripts] at h ⊢
      split at h
      · exact absurd h (hscript .superscript)
      · split at h
        · exact absurd h (hscript .subscript)
        · next hup hdown => simp [hup, hdown]

theorem chain_of_whole (hL : level ≠ .sequence)
    (h : isJoined (chain read c level e ts).value = false) :
    chain read c level e ts = .done e ts := by
  induction hn : ts.length using Nat.strong_induction_on generalizing e ts with
  | _ n ih =>
    subst hn
    cases ts with
    | nil => rfl
    | cons t ts =>
      simp only [chain] at h ⊢
      cases ho : operator? level t with
      | none => rfl
      | some operator =>
        rw [ho] at h
        simp only [Reading.value_bind, read_chain hL] at h
        have hdone := ih _ (Nat.lt_succ_of_le (read_suffix ..).length_le) h rfl
        rw [hdone] at h
        exact absurd h (by simp [Reading.done, isJoined_combine])

theorem juxtaposed_of_whole (h : isJoined (juxtaposed read c e ts).value = false) :
    juxtaposed read c e ts = .done e ts := by
  induction hn : ts.length using Nat.strong_induction_on generalizing e ts with
  | _ n ih =>
    subst hn
    cases ts with
    | nil => rfl
    | cons t ts =>
      cases hb : c.isBoundary t with
      | true => simp [juxtaposed, atBoundary, hb]
      | false =>
        rw [juxtaposed_starts hb, Reading.value_bind, read_sequence_chain] at h
        have hdone := ih _ (relation_progress hb ts) h rfl
        rw [hdone] at h
        cases h

theorem bind_of_whole {a : Reading Expr} {f : Expr → List Token → Reading Expr}
    (hf : ∀ {e ts}, isJoined (f e ts).value = false → f e ts = .done e ts)
    (h : isJoined (a.bind f).value = false) : a.bind f = a := by
  rw [Reading.value_bind] at h
  simp [Reading.bind, hf h, Reading.done]

/-- Nothing goes on after what is the whole of an operand. -/
theorem resume_of_whole (h : isJoined (resume c .sequence e ts).value = false) :
    resume c .sequence e ts = .done e ts := by
  have hbeside := bind_of_whole juxtaposed_of_whole h
  have h := h
  simp only [resume] at h hbeside ⊢
  rw [hbeside] at h ⊢
  have hrelation := bind_of_whole (chain_of_whole (by decide)) h
  rw [hrelation] at h ⊢
  have hsum := bind_of_whole (chain_of_whole (by decide)) h
  rw [hsum] at h ⊢
  have hproduct := bind_of_whole (chain_of_whole (by decide)) h
  rw [hproduct] at h ⊢
  exact scripts_of_whole h

theorem eq_done {a : Reading Expr} (h : a.notes = []) : a = .done a.value a.rest := by
  rw [Reading.done, ← h]

theorem bind_assoc (a : Reading Expr) (f g : Expr → List Token → Reading Expr) :
    (a.bind f).bind g = a.bind fun e ts => (f e ts).bind g := by
  simp [Reading.bind, List.append_assoc]

/-- A sequence is what comes first, and what goes on after it. -/
theorem sequence_resume (hb : c.isBoundary t = false) (ts : List Token) :
    sequence read c (t :: ts) = (primary read c (t :: ts)).bind (resume c .sequence) := by
  rw [sequence_starts hb]
  show _ = (primary read c (t :: ts)).bind fun e us => resume c .sequence e us
  simp only [relation, sum, product, factor, resume, bind_assoc, read_sequence_chain]

/-- A sequence that no operands are joined to is what comes first. -/
theorem sequence_of_whole (hb : c.isBoundary t = false)
    (h : isJoined (sequence read c (t :: ts)).value = false) :
    sequence read c (t :: ts) = primary read c (t :: ts) := by
  rw [sequence_resume hb] at h ⊢
  exact bind_of_whole resume_of_whole h

end Wholes

section Texts

/-- Without a note nothing follows an expression but the end of the text. -/
theorem strays_of_notes (h : (read (.strays e) c ts).notes = []) :
    IsOver ts ∧ read (.strays e) c ts = .done e ts := by
  rw [read_eq] at h ⊢
  simp only [step] at h ⊢
  cases ts with
  | nil => exact ⟨IsOver.nil, rfl⟩
  | cons t ts =>
    by_cases hstop : t.kind = .stop
    · refine ⟨?_, by simp [strays, hstop]⟩
      rintro u ⟨⟩
      exact hstop
    · simp [strays, hstop, notes_skipStray] at h

/-- Without a note a text is one sequence, up to its end. -/
theorem sequence_of_readText (h : (readText c ts).notes = []) :
    ∃ after, IsOver after ∧ sequence read c ts = .done (readText c ts).value after := by
  rw [readText, read_operand, operand, Reading.notes_bind, List.append_eq_nil_iff] at h
  obtain ⟨hafter, hdone⟩ := strays_of_notes h.2
  refine ⟨_, hafter, ?_⟩
  rw [readText, read_operand, operand, Reading.value_bind, hdone]
  exact eq_done h.1

/-- A text that is read without a note, and no operands are joined to. -/
theorem primary_of_readText (hb : c.isBoundary t = false)
    (hvalue : isJoined (readText c (t :: ts)).value = false)
    (hnotes : (readText c (t :: ts)).notes = []) :
    ∃ after, IsOver after ∧
      primary read c (t :: ts) = .done (readText c (t :: ts)).value after := by
  obtain ⟨after, hafter, hsequence⟩ := sequence_of_readText hnotes
  refine ⟨after, hafter, ?_⟩
  rw [← hsequence, sequence_of_whole hb]
  rwa [hsequence]

/-- A sequence up to the end of a text is the text. -/
theorem readText_of_sequence (hafter : IsOver after) (h : sequence read c ts = .done x after) :
    readText c ts = .done x after := by
  rw [readText, read_operand, operand, h, Reading.bind_done, read_eq]
  exact strays_of_over hafter _ x

/-- What comes first and goes up to the end of a text is a sequence. -/
theorem sequence_of_primary (hb : c.isBoundary t = false) (hafter : IsOver after)
    (h : primary read c (t :: ts) = .done x after) : sequence read c (t :: ts) = .done x after := by
  have hboundary : ∀ u ∈ after.head?, c.isBoundary u = true := fun u hu =>
    isBoundary_of_stop (hafter u hu)
  rw [sequence_resume hb, h, Reading.bind_done, resume_of_isBoundary hboundary]

theorem readText_of_primary (hb : c.isBoundary t = false) (hafter : IsOver after)
    (h : primary read c (t :: ts) = .done x after) : readText c (t :: ts) = .done x after :=
  readText_of_sequence hafter (sequence_of_primary hb hafter h)

end Texts

section Cells

theorem bind_eq_done {a : Reading Expr} {f : Expr → List Token → Reading Expr}
    (h : a.bind f = .done x us) : a.notes = [] ∧ f a.value a.rest = .done x us := by
  have hnotes := congrArg Reading.notes h
  rw [Reading.notes_bind, Reading.done, List.append_eq_nil_iff] at hnotes
  refine ⟨hnotes.1, ?_⟩
  rw [← h, Reading.bind, hnotes.1, List.nil_append]

/-- At a boundary inside of its cell a block is not done: a token is left over there, or the block
would end a second time. -/
theorem rows_not_done {s : Token} (hclose : Closes d name closing) (hk : t.kind ≠ .stop)
    (hplain : endsCell d t = false) (hb : (⟨d, s, true⟩ : Context).isBoundary t = true)
    (complete : List (List Expr)) (cells : List Expr) (filled : Bool) (x : Expr) :
    rows read ⟨d, s, false⟩ name complete cells filled (t :: (ts ++ (closing ++ after))) ≠
      .done x after := by
  intro hrows
  simp only [endsCell, Bool.or_eq_false_iff] at hplain
  have hb' : (⟨d, s, false⟩ : Context).isBoundary t = true :=
    (isBoundary_withinRows_iff hplain.2 hplain.1).symm.trans hb
  by_cases hends : endsRows d name (t :: (ts ++ (closing ++ after))) = true
  · simp only [rows, hends, or_true, if_true] at hrows
    have hnotes := congrArg Reading.notes hrows
    have hrest := congrArg Reading.rest hrows
    simp only [Reading.notes_map, Reading.rest_map, Reading.done] at hnotes hrest
    obtain ⟨other, hother, hsplit⟩ := blockEnd_closes hnotes
    rw [hrest] at hsplit
    have hsuffix : closing ++ after <:+ other ++ after := by
      rw [← hsplit]
      exact (List.suffix_append ts _).trans (List.suffix_cons t _)
    have hcommon := hother.eq_of_common hclose (List.suffix_refl _) hsuffix
    have hlength := congrArg List.length hsplit
    simp only [hcommon, List.length_cons, List.length_append] at hlength
    omega
  · have hnotes := congrArg Reading.notes hrows
    simp [rows, hends, hk, hplain, hb', notes_skipStray, Reading.done] at hnotes

/-- If the block ends after its first cell, the cell is read up to the end. -/
theorem cell_of_rows {s : Token} {cell : Reading Expr} (hclose : Closes d name closing)
    (hk : ∀ t ∈ xs, t.kind ≠ .stop) (hplain : IsPlainCell d xs)
    (hcell : sequence read ⟨d, s, true⟩ (xs ++ (closing ++ after)) = cell)
    (htakes : cell.rest <:+ xs ++ (closing ++ after)) (hnotes : cell.notes = [])
    (hrows : rows read ⟨d, s, false⟩ name [] [cell.value] true cell.rest =
      .done (.block name [[x]]) after) :
    cell = .done x (closing ++ after) := by
  obtain ⟨u, us, hu, hboundary⟩ := hclose.head
  -- The block ends where it is closed, so its cell cannot reach beyond that place.
  obtain ⟨other, hother, hends⟩ := rows_closes [] [cell.value] true cell.rest (by rw [hrows]; rfl)
  rw [hrows] at hends
  obtain rfl : other = closing :=
    hother.eq_of_common hclose (hends.trans htakes) (List.suffix_append _ _)
  obtain ⟨zs, hzs⟩ := hends
  obtain ⟨ys, hys⟩ := htakes
  simp only [Reading.done] at hzs
  cases zs with
  | nil =>
    rw [← hzs, List.nil_append, hclose.rows rfl] at hrows
    have hvalue : cell.value = x := by simpa [Reading.done, closeRow] using hrows
    calc cell = .done cell.value cell.rest := eq_done hnotes
      _ = .done x (other ++ after) := by rw [hvalue, ← hzs, List.nil_append]
  | cons v vs =>
    exfalso
    have happend : ys ++ v :: vs ++ (other ++ after) = xs ++ (other ++ after) := by
      rw [← hys, ← hzs, List.append_assoc]
    have hsplit : ys ++ v :: vs = xs := List.append_cancel_right happend
    have hv : (⟨d, s, true⟩ : Context).isBoundary v = true := by
      have hend := sequence_ends ⟨d, s, true⟩ (xs ++ (other ++ after))
      rw [hcell, ← hzs] at hend
      exact hend
    have hwalk : Depth.walk d (.inside 0) ys = .inside 0 := by
      rw [hu] at hcell hzs
      let seam : Seam := ⟨d, true, s, s, u, u, us ++ after, us ++ after, hboundary _, hboundary _⟩
      apply seam.walk_of_seam ys (v :: vs)
      · rw [hsplit]
        exact hcell ▸ hnotes
      · rw [hsplit]
        exact hcell ▸ hzs.symm
    rw [← hzs] at hrows
    rw [← hsplit] at hplain
    exact rows_not_done hclose (hk v (by simp [← hsplit])) (hplain.next hwalk) hv [] _ true _ hrows

/-- The only cell of a block is read up to the end of the block. -/
theorem sequence_of_rows {s : Token} (hclose : Closes d name closing)
    (hk : ∀ t ∈ xs, t.kind ≠ .stop) (hplain : IsPlainCell d xs)
    (hrows : rows read ⟨d, s, false⟩ name [] [] false (xs ++ (closing ++ after)) =
      .done (.block name [[x]]) after) :
    (∃ t ts, xs = t :: ts ∧ (⟨d, s, true⟩ : Context).isBoundary t = false) ∧
      sequence read ⟨d, s, true⟩ (xs ++ (closing ++ after)) = .done x (closing ++ after) := by
  cases xs with
  | nil =>
    have hnone := hclose.rows (c := ⟨d, s, false⟩) rfl [] [] false after
    rw [List.nil_append, hnone] at hrows
    simp [Reading.done, closeRow] at hrows
  | cons t ts =>
    have hfirst : endsCell d t = false :=
      IsPlainCell.next (show IsPlainCell d ([] ++ t :: ts) from hplain) rfl
    simp only [endsCell, Bool.or_eq_false_iff] at hfirst
    have hends : ¬(t.kind = .stop ∨ endsRows d name (t :: (ts ++ (closing ++ after))) = true) := by
      rintro (hstop | hends)
      · exact hk t (by simp) hstop
      · simp [rows, hends, Reading.map, Reading.done, closeRow] at hrows
    have hb : (⟨d, s, false⟩ : Context).isBoundary t = false := by
      by_contra hb
      rw [Bool.not_eq_false] at hb
      have hnotes := congrArg Reading.notes hrows
      simp [rows, hends, hfirst, hb, notes_skipStray, Reading.done] at hnotes
    have hb' : (⟨d, s, true⟩ : Context).isBoundary t = false :=
      (isBoundary_withinRows_iff hfirst.2 hfirst.1).trans hb
    constructor
    · exact ⟨t, ts, rfl, hb'⟩
    · rw [List.cons_append, rows_of_cell hends hfirst.2 hfirst.1 hb] at hrows
      obtain ⟨hnotes, hnext⟩ := bind_eq_done hrows
      rw [read_rows] at hnext
      exact cell_of_rows hclose hk hplain rfl
        ((sequence_takes hb' _).trans (List.suffix_cons t _)) hnotes hnext

end Cells

end MathMarkup.Grammar
