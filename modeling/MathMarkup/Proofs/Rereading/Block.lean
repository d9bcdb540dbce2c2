import MathMarkup.Proofs.Rereading.Rows

/-! How blocks are read back: in LaTeX between two keywords with a name, in the legacy dialect after
a keyword and in braces. -/
namespace MathMarkup.Grammar

open Scan
open Reading (Alike)

variable {d : Dialect} {parsed rows : Bool} {s name body : String} {c : Context} {t : Token}
  {ts us : List Token} {table : List (List Expr)} {cs : List Char} {o : ℕ} {q : ℤ}

section Names

/-- The text is all in its tokens, and no closing brace is one of them. -/
structure IsPlain (cs : List Char) : Prop where
  whole : Whole .latex cs
  texts : ∀ o, joinTexts (pieces .latex o cs) = String.ofList cs
  tokens : ∀ o, ∀ t ∈ pieces .latex o cs, t.isSignificant = true ∧ inBlockName t = true

theorem IsPlain.nil : IsPlain [] := ⟨Whole.nil _, fun _ => rfl, by simp⟩

theorem joinTexts_append (ts us : List Token) :
    joinTexts (ts ++ us) = joinTexts ts ++ joinTexts us := by
  simp [joinTexts, String.join_append]

theorem IsPlain.append {kind : TokenKind} {as : List Char}
    (ha : Forms .latex as kind (String.ofList as)) (hk : kind ≠ .space ∧ kind ≠ .unknown ∧ kind ≠ .stop)
    (hne : as ≠ ['\x7d']) (h : IsPlain cs) (hs : Separate as cs) : IsPlain (as ++ cs) := by
  refine ⟨ha.whole.append h.whole hs, fun o => ?_, fun o t ht => ?_⟩
  · rw [ha.whole.pieces_append hs, joinTexts_append, h.texts, ha.pieces_eq]
    simp [joinTexts, String.join]
  · rw [ha.whole.pieces_append hs, ha.pieces_eq, List.singleton_append] at ht
    rcases List.mem_cons.1 ht with rfl | ht
    · refine ⟨by simp [Token.isSignificant, hk], ?_⟩
      have htext : String.ofList as ≠ "\x7d" := by
        intro h
        exact hne (by simpa using congrArg String.toList h)
      simp [inBlockName, Token.isSymbol, htext, hk]
    · exact h.tokens _ t ht

theorem separate_dropWhile {p : Char → Bool} {as : List Char} (has : ∀ x ∈ as, p x = true)
    (hp : ∀ x y, p x = true → p y = false → joins x y = false) (cs : List Char) :
    Separate as (cs.dropWhile p) := by
  intro x hx y hy
  refine hp x y (has x (List.mem_of_mem_getLast? hx)) ?_
  have := List.head?_dropWhile_not p cs
  rw [Option.mem_def.1 hy] at this
  simpa using this

/-- The characters that the name of a block is made of. -/
def IsNameChar (c : Char) : Prop :=
  c.isAlpha = true ∨ c.isDigit = true ∨ c ∈ Vocabulary.latexMarks ∧ c ≠ '\x7d'

theorem mem_takeWhile {p : Char → Bool} {x : Char} (h : x ∈ cs.takeWhile p) : p x = true :=
  List.all_eq_true.1 List.all_takeWhile x h

/-- A run of characters of one class is one token, and the rest is read after it. -/
theorem IsPlain.run {p : Char → Bool} {kind : TokenKind} {c : Char}
    (hforms : Forms .latex (c :: cs.takeWhile p) kind (String.ofList (c :: cs.takeWhile p)))
    (hk : kind ≠ .space ∧ kind ≠ .unknown ∧ kind ≠ .stop) (hc : p c = true) (hbrace : c ≠ '\x7d')
    (hp : ∀ x y, p x = true → p y = false → joins x y = false)
    (h : IsPlain (cs.dropWhile p)) : IsPlain (c :: cs) := by
  have hrun : ∀ x ∈ c :: cs.takeWhile p, p x = true := by
    intro x hx
    rcases List.mem_cons.1 hx with rfl | hx
    · exact hc
    · exact mem_takeWhile hx
  have hplain := IsPlain.append hforms hk (by simp [hbrace]) h (separate_dropWhile hrun hp cs)
  rwa [List.cons_append, List.takeWhile_append_dropWhile] at hplain

theorem joins_of_isAlpha (x y : Char) (hx : x.isAlpha = true) (hy : y.isAlpha = false) :
    joins x y = false := by
  have hback : x ≠ '\\' := Text.ne_of_isAlpha hx rfl
  simp [joins, hy, Text.isDigit_of_isAlpha hx, hback]

theorem joins_of_isDigit (x y : Char) (hx : x.isDigit = true) (hy : y.isDigit = false) :
    joins x y = false := by
  have hback : x ≠ '\\' := Text.ne_of_isDigit hx rfl
  simp [joins, hy, Text.isAlpha_of_isDigit hx, hback]

/-- The name of a block is read from its tokens, however its characters are put together. -/
theorem isPlain_of_chars (cs : List Char) (h : ∀ c ∈ cs, IsNameChar c) : IsPlain cs := by
  induction hn : cs.length using Nat.strong_induction_on generalizing cs with
  | _ n ih =>
    cases cs with
    | nil => exact .nil
    | cons c cs =>
      have hrest {bs : List Char} (hs : bs <:+ cs) : IsPlain bs := by
        refine ih bs.length ?_ bs (fun x hx => h x (List.mem_cons_of_mem c (hs.subset hx))) rfl
        have := hs.length_le
        simp only [List.length_cons] at hn
        omega
      obtain halpha | hdigit | ⟨hmark, hbrace⟩ := h c (by simp)
      · refine IsPlain.run (Forms.latexWord (by simp) fun x hx => ?_) (by simp) halpha
          (Text.ne_of_isAlpha halpha rfl) joins_of_isAlpha (hrest (List.dropWhile_suffix _))
        rcases List.mem_cons.1 hx with rfl | hx
        · exact halpha
        · exact mem_takeWhile hx
      · refine IsPlain.run (Forms.number .latex (by simp) fun x hx => ?_) (by simp) hdigit
          (Text.ne_of_isDigit hdigit rfl) joins_of_isDigit (hrest (List.dropWhile_suffix _))
        rcases List.mem_cons.1 hx with rfl | hx
        · exact hdigit
        · exact mem_takeWhile hx
      · have hseparate : Separate [c] cs := by
          simpa using Separate.of_last (joins_left (joins_of_mem_latexMarks hmark)) [] cs
        exact IsPlain.append (Forms.mark .latex hmark) (by simp) (by simpa using hbrace)
          (hrest (List.suffix_refl cs)) hseparate

theorem tokens_name (h : Expr.IsBlockName .latex name) (o : ℕ) :
    joinTexts (tokens .latex o name) = name ∧
      ∀ t ∈ tokens .latex o name, inBlockName t = true := by
  have hplain := isPlain_of_chars name.toList h
  have hfilter : tokens .latex o name = pieces .latex o name.toList :=
    List.filter_eq_self.2 fun t ht => (hplain.tokens o t ht).1
  rw [hfilter]
  exact ⟨by simpa using hplain.texts o, fun t ht => (hplain.tokens o t ht).2⟩

theorem solid_name (h : Expr.IsBlockName .latex name) : Solid .latex name := by
  refine .of_chars (isPlain_of_chars name.toList h).whole fun c hc => ?_
  obtain halpha | hdigit | ⟨hmark, -⟩ := h c hc
  · exact Text.isBlank_of_isAlpha halpha
  · exact Text.isBlank_of_isDigit hdigit
  · exact (Text.classes_of_mem_legacyMarks (List.mem_cons_of_mem '\\' hmark)).1

/-- A name is read up to the brace after it. -/
theorem takeWhile_name (h : Expr.IsBlockName .latex name) (o : ℕ) (q : ℤ) (ts : List Token) :
    (tokens .latex o name ++ ⟨.symbol, "\x7d", q⟩ :: ts).takeWhile inBlockName =
        tokens .latex o name ∧
      (tokens .latex o name ++ ⟨.symbol, "\x7d", q⟩ :: ts).dropWhile inBlockName =
        ⟨.symbol, "\x7d", q⟩ :: ts := by
  have hname := (tokens_name h o).2
  have hclose : inBlockName ⟨.symbol, "\x7d", q⟩ = false := by
    simp [inBlockName, Token.isSymbol]
  rw [List.takeWhile_append_of_pos hname, List.dropWhile_append_of_pos hname]
  simp [hclose]

theorem blockName_eq (h : Expr.IsBlockName .latex name) (c : Context) (o : ℕ) (q : ℤ)
    (ts : List Token) :
    blockName c (tokens .latex o name ++ ⟨.symbol, "\x7d", q⟩ :: ts) = .done name ts := by
  obtain ⟨htake, hdrop⟩ := takeWhile_name h o q ts
  simp [blockName, htake, hdrop, expect, isSymbol_self, (tokens_name h o).1]

/-- The end of a block with its name. -/
theorem startsEnd_eq (h : Expr.IsBlockName .latex name) (o : ℕ) (p q r : ℤ) (ts : List Token) :
    startsEnd name (⟨.keyword, "end", p⟩ :: ⟨.symbol, "\x7b", q⟩ ::
      (tokens .latex o name ++ ⟨.symbol, "\x7d", r⟩ :: ts)) = true := by
  have hlower : Text.lower "end" = "end" := by decide
  obtain ⟨htake, hdrop⟩ := takeWhile_name h o r ts
  simp [startsEnd, Token.word?, hlower, Token.isSymbol, htake, hdrop, (tokens_name h o).1]

end Names

section Blocks

theorem keywordForm_block_legacy {block : Block} {text : String}
    (hd : Decoration.ofLegacy? text = none) (h : Text.lower text ∉ formWords)
    (hb : Block.ofLegacy? text = some block) (hc : c.dialect = .legacy) (q r : ℤ)
    (ts : List Token) :
    keywordForm read c ⟨.keyword, text, q⟩ (⟨.symbol, "\x7b", r⟩ :: ts) =
      Grammar.rows read c block.name [] [] false ts := by
  simp only [formWords, List.mem_cons, List.not_mem_nil, or_false, not_or] at h
  simp [keywordForm, Token.word?, h, decoration?, hc, hd, dialectKeyword, hb, legacyBlock,
    isSymbol_self, read_rows]

theorem keywordForm_block_latex (hn : Expr.IsBlockName .latex name) (hc : c.dialect = .latex)
    (o : ℕ) (p q r : ℤ) (ts : List Token) :
    keywordForm read c ⟨.keyword, "begin", p⟩ (⟨.symbol, "\x7b", q⟩ ::
        (tokens .latex o name ++ ⟨.symbol, "\x7d", r⟩ :: ts)) =
      Grammar.rows read c name [] [] false ts := by
  have hlower : Text.lower "begin" = "begin" := by decide
  have hof : Decoration.ofLatex? "begin" = none := by decide
  simp [keywordForm, Token.word?, hlower, decoration?, hc, hof, dialectKeyword, latexBlock,
    isSymbol_self, blockName_eq hn, read_rows]

theorem rows_of_end_latex (hn : Expr.IsBlockName .latex name) (hc : c.dialect = .latex)
    (o : ℕ) (p q r : ℤ) (ts : List Token) (complete : List (List Expr)) (cells : List Expr)
    (filled : Bool) :
    Grammar.rows read c name complete cells filled (⟨.keyword, "end", p⟩ :: ⟨.symbol, "\x7b", q⟩ ::
        (tokens .latex o name ++ ⟨.symbol, "\x7d", r⟩ :: ts)) =
      .done (.block name (closeRow complete cells)) ts := by
  rw [Grammar.rows]
  simp [endsRows, hc, startsEnd_eq hn, blockEnd, endName, isSymbol_self, blockName_eq hn]

theorem rows_of_end_legacy (hc : c.dialect = .legacy) (q : ℤ) (ts : List Token)
    (complete : List (List Expr)) (cells : List Expr) (filled : Bool) :
    Grammar.rows read c name complete cells filled (⟨.symbol, "\x7d", q⟩ :: ts) =
      .done (.block name (closeRow complete cells)) ts := by
  rw [Grammar.rows]
  simp [endsRows, hc, isSymbol_self, blockEnd, expect]

/-- In LaTeX a block stands between two keywords with its name. -/
theorem primary_block_latex (hn : Expr.IsBlockName .latex name) (hs : Solid .latex body)
    (ht : ∀ o, TableTokens .latex parsed (tokens .latex o body) table) :
    Primary .latex parsed rows
        (Expr.spaced ["\\begin" ++ Expr.braced name, body, "\\end" ++ Expr.braced name])
        (.block name table) (fun _ _ _ => True) ∧
      ∃ a, Leads .latex .keyword "begin" a
        (Expr.spaced ["\\begin" ++ Expr.braced name, body, "\\end" ++ Expr.braced name]) := by
  have hbegin : IsKeyword .latex "\\begin" "begin" := isKeyword_latex (by decide) (by decide)
  have hend : IsKeyword .latex "\\end" "end" := isKeyword_latex (by decide) (by decide)
  have hname := (solid_name hn).braced
  obtain ⟨gap, m, hsplit, hm, hne, htext⟩ := spaced_middle hs.whole
    (hend.solid.append hname (separate_braced _ _)) (by simp)
    (show "\\begin" ++ Expr.braced name ≠ "" by simp)
  have hlead := separate_braced_append ("\\begin" : String).toList name (" " ++ m)
  have hsolid := (hbegin.solid.append hname (separate_braced _ _)).spaced hm (by simp) hne
  rw [htext]
  rw [String.append_assoc] at hsolid ⊢
  have hleads := leads_append hbegin.forms (by simp) hlead
  refine ⟨primary_phrase (by decide) hsolid hleads fun q c o ts hc _ => ?_, _, hleads⟩
  obtain ⟨p, -, htokens, -⟩ := hsplit (o + (Expr.braced name).length + 1)
  obtain ⟨r, hclose, -⟩ := leads_append hend.forms (by simp)
    (separate_braced ("\\end" : String).toList name) p
  rw [tokens_append_gap hname.whole, htokens, hclose, tokens_braced (solid_name hn).whole,
    tokens_braced (solid_name hn).whole]
  simp only [List.cons_append, List.append_assoc, keywordForm_block_latex hn hc.dialect]
  refine table_reading (ht _) hc ?_ (rows_of_end_latex hn hc.dialect _ _ _ _ ts) []
  rintro t ⟨⟩
  have hlower : Text.lower "end" = "end" := by decide
  simp [Context.isBoundary, Token.word?, hlower]

theorem blocks_legacy : ∀ block ∈ Block.all,
    Expr.IsWord (Text.lower (Block.legacyWord block.name)) ∧
    Text.upper (Text.lower (Block.legacyWord block.name)) = block.legacy ∧
    block.legacy ∈ Vocabulary.legacyKeywords ∧
    Text.lower block.legacy ∉ tailWords ∧
    Text.lower block.legacy ∉ formWords ∧
    Decoration.ofLegacy? block.legacy = none ∧ Block.ofLegacy? block.legacy = some block := by
  decide

/-- In the legacy dialect a block stands in braces after its keyword. -/
theorem primary_block_legacy (hn : Expr.IsBlockName .legacy name) (hs : Solid .legacy body)
    (ht : ∀ o, TableTokens .legacy parsed (tokens .legacy o body) table) :
    Primary .legacy parsed rows (Text.lower (Block.legacyWord name) ++ Expr.braced body)
        (.block name table) (fun _ _ _ => True) ∧
      ∃ text a, Leads .legacy .keyword text a
        (Text.lower (Block.legacyWord name) ++ Expr.braced body) := by
  obtain ⟨block, hblock, rfl⟩ := hn
  obtain ⟨hword, hupper, hmem, hstop, hform, hdecoration, hof⟩ := blocks_legacy block hblock
  have hk := isKeyword_legacy hword (by simpa [hupper] using hmem)
  rw [hupper] at hk
  have hleads := leads_append hk.forms (by simp)
    (separate_braced (Text.lower (Block.legacyWord block.name)).toList body)
  refine ⟨primary_phrase hstop (hk.solid.append hs.braced (separate_braced _ _)) hleads
    fun q c o ts hc _ => ?_, _, _, hleads⟩
  rw [tokens_braced hs.whole, List.cons_append, List.append_assoc, List.singleton_append]
  simp only [keywordForm_block_legacy hdecoration hform hof hc.dialect]
  refine table_reading (ht (o + 1)) hc ?_ (rows_of_end_legacy hc.dialect _ ts) []
  rintro t ⟨⟩
  exact isBoundary_of_isClosing rfl

end Blocks

end MathMarkup.Grammar
