import MathMarkup.Proofs.Grammar.Grid

/-! Forms around whole texts. What parses by itself is read in the same way up to any boundary, so a
bracket, an argument in braces or a fraction is read as the node of what its parts are by themselves. -/
namespace MathMarkup.Grammar

open MathMarkup.Expr (ReadsAs scriptMark)
open Vocabulary (closing? Side)

variable {c : Context} {d : Dialect} {s t u : Token} {e x S T : Expr} {left right value : String}
  {ts us after : List Token}

/-- A text between braces. -/
inductive IsGroup (ts : List Token) : List Token → Prop
  | mk {opening closing : Token} (ho : opening.isSymbol "\x7b" = true)
      (hc : closing.isSymbol "\x7d" = true) : IsGroup ts (opening :: (ts ++ [closing]))

/-- The tokens of a form around two texts, or around the second alone, and the node that it is if the
texts are `S` and `T`. -/
inductive Encloses (d : Dialect) (ss ts : List Token) (S T : Expr) : List Token → Expr → Prop
  | bracket {opening closing : Token} {left right : String} (hd : closing? left = some right)
      (hg : left ≠ "\x7b") (ho : opening.isSymbol left = true) (hc : closing.isSymbol right = true) :
      Encloses d ss ts S T (opening :: (ts ++ [closing])) (.bracket false left right T)
  | sized {keyword opening keyword' closing : Token} {left right : String}
      (hl : keyword.word? = some "left") (ho : delimiter? d opening = some left)
      (hleft : left ∈ Side.left.delimiters) (hr : keyword'.word? = some "right")
      (hc : delimiter? d closing = some right) (hright : right ∈ Side.right.delimiters)
      (hbar : d = .legacy → left ≠ "|") :
      Encloses d ss ts S T (keyword :: opening :: (ts ++ [keyword', closing]))
        (.bracket true left right T)
  | root {keyword : Token} {group : List Token} (hk : keyword.word? = some "sqrt")
      (hg : IsGroup ts group) : Encloses d ss ts S T (keyword :: group) (.root T.unwrap)
  | decorated {keyword : Token} {group : List Token} {decoration : Decoration}
      (hk : keyword.kind = .keyword) (hd : decoration? d keyword = some decoration)
      (hg : IsGroup ts group) :
      Encloses d ss ts S T (keyword :: group) (.decorated decoration.name T.unwrap)
  | script {base mark : Token} {group : List Token} {value : String} (side : Script)
      (hb : ReadsAs d false value base) (hm : mark.isSymbol (scriptMark side) = true)
      (hg : IsGroup ts group) :
      Encloses d ss ts S T (base :: mark :: group) (.script side (.literal value) T.unwrap)
  | stacked {keyword : Token} {numerator denominator : List Token} (hd : d = .latex)
      (hk : ∃ word ∈ ["frac", "dfrac", "tfrac"], keyword.word? = some word)
      (hn : IsGroup ss numerator) (hm : IsGroup ts denominator) :
      Encloses d ss ts S T (keyword :: (numerator ++ denominator)) (.fraction true S.unwrap T.unwrap)
  | divided {keyword : Token} {numerator denominator : List Token} (hk : keyword.word? = some "over")
      (hn : IsGroup ss numerator) (hm : IsGroup ts denominator) :
      Encloses d ss ts S T (numerator ++ keyword :: denominator) (.fraction true S.unwrap T.unwrap)

/-- Tokens that are read as an expression up to any boundary. -/
def Fills (d : Dialect) (ts : List Token) (e : Expr) : Prop :=
  ∀ s b bs, (⟨d, s, false⟩ : Context).isBoundary b = true →
    sequence read ⟨d, s, false⟩ (ts ++ b :: bs) = .done e (b :: bs)

section Contents

/-- A text that is read without a note is read in the same way up to any boundary. -/
theorem fills_of_readText {stop : Token} (hkind : stop.kind = .stop) (hk : ∀ t ∈ ts, t.kind ≠ .stop)
    (hexpr : (readText ⟨d, stop, false⟩ ts).value = e)
    (hnotes : (readText ⟨d, stop, false⟩ ts).notes = []) : Fills d ts e := by
  intro s b bs hb
  obtain ⟨hexpr', hnotes'⟩ := readText_of_stop ⟨d, stop, false⟩ hkind s hk
  obtain ⟨rest, hover, hsequence⟩ := sequence_of_readText (hnotes'.trans hnotes)
  rw [hexpr', hexpr] at hsequence
  have hleft : (read (.operand .sequence) ⟨d, s, false⟩ (ts ++ [stop])).rest = rest := by
    rw [read_operand, operand, hsequence]
    rfl
  have hstop : IsOver [stop] := by simpa [IsOver] using hkind
  obtain rfl : [stop] = rest := by
    rw [← hleft]
    exact (rest_of_over hk hstop (hleft.symm ▸ hover)).symm
  exact Seam.sequence_of_seam (p := ⟨d, false, s, s, stop, b, [], bs, isBoundary_of_stop hkind, hb⟩)
    hsequence

theorem fills_of_parse (hk : ∀ t ∈ ts, t.kind ≠ .stop) (h : parse d ts = ⟨e, []⟩) :
    Fills d (significant ts) e := by
  have hk' : ∀ t ∈ significant ts, t.kind ≠ .stop := fun t ht => hk t (List.mem_filter.1 ht).1
  have hkind : (impliedStop (significant ts)).kind = .stop := rfl
  exact fills_of_readText hkind hk' (congrArg Parsed.expr h) (congrArg Parsed.notes h)

/-- A node that a keyword stands for. -/
def isKeywordNode : Expr → Bool
  | .fraction .. | .root _ | .large .. | .decorated .. | .block .. | .bracket true .. => true
  | _ => false

theorem sizedBracket_node (h : (sizedBracket read c ts).notes = []) :
    isKeywordNode (sizedBracket read c ts).value = true := by
  rw [sizedBracket, Reading.notes_bind, List.append_eq_nil_iff] at h
  obtain ⟨-, hleft⟩ := sizedDelimiter_yields .left ts h.1
  have hne : (sizedDelimiter c .left ts).value ≠ "" := by
    intro hempty
    rw [hempty] at hleft
    exact absurd hleft (by decide)
  simp [sizedBracket, hne, isKeywordNode]

theorem rows_node (name : String) (c : Context) (ts : List Token) :
    isKeywordNode (read (.rows name [] [] false) c ts).value = true := by
  have hblock : ∃ table, (rows read c name [] [] false ts).value = .block name table :=
    rows_block [] [] false ts
  obtain ⟨table, htable⟩ := hblock
  simp [read_rows, htable, isKeywordNode]

theorem latexBlock_node (h : (latexBlock read c t ts).notes = []) :
    isKeywordNode (latexBlock read c t ts).value = true := by
  cases ts with
  | nil => simp [latexBlock, miss] at h
  | cons u ts =>
    by_cases hu : u.isSymbol "\x7b" = true
    · simp only [latexBlock, if_pos hu]
      exact rows_node _ _ _
    · simp [latexBlock, if_neg hu, miss] at h

theorem legacyBlock_node (name : String) (h : (legacyBlock read c t name ts).notes = []) :
    isKeywordNode (legacyBlock read c t name ts).value = true := by
  cases ts with
  | nil => simp [legacyBlock, miss] at h
  | cons u ts =>
    by_cases hu : u.isSymbol "\x7b" = true
    · simp only [legacyBlock, if_pos hu]
      exact rows_node _ _ _
    · simp [legacyBlock, if_neg hu, miss] at h

theorem dialectKeyword_node (h : (dialectKeyword read c t ts).notes = []) :
    isKeywordNode (dialectKeyword read c t ts).value = true := by
  unfold dialectKeyword at h ⊢
  split at h
  · split at h
    · rfl
    · rfl
    · rfl
    · exact latexBlock_node h
    · simp [unknownKeyword] at h
  · split at h
    · exact legacyBlock_node _ h
    · simp [unknownKeyword] at h

/-- Without a note a phrase with a keyword is a node that the keyword is for. -/
theorem keywordForm_node (h : (keywordForm read c t ts).notes = []) :
    isKeywordNode (keywordForm read c t ts).value = true := by
  unfold keywordForm at h ⊢
  split at h
  · rfl
  · rfl
  · rfl
  · rfl
  · exact sizedBracket_node h
  · split at h
    · rfl
    · exact dialectKeyword_node h

/-- Flattened, a bracket is one with the same delimiters. -/
theorem flatten_bracket (a b : String) (e : Expr) :
    ∃ content, (Expr.bracket false a b e).flatten = .bracket false a b content := by
  cases e with
  | bracket sized left' right' content =>
    simp only [Expr.flatten]
    split
    · next hsame =>
      obtain ⟨rfl, rfl, rfl⟩ : left' = a ∧ right' = b ∧ sized = false := by simpa using hsame.2
      exact ⟨content, rfl⟩
    · exact ⟨_, rfl⟩
  | _ => exact ⟨_, rfl⟩

theorem sides_of_flatten {a b : String}
    (h : (Expr.bracket false a b e).flatten = .bracket false left right x) :
    left = a ∧ right = b := by
  obtain ⟨content, hsides⟩ := flatten_bracket a b e
  rw [hsides, Expr.bracket.injEq] at h
  exact ⟨h.2.1.symm, h.2.2.1.symm⟩

/-- Without a note a bracket has its closing mark. -/
theorem closing_of_bracket {a b : String} (hd : closing? a = some b)
    (h : bracket read c a ts = .done (.bracket false left right x) us) :
    closing? left = some right := by
  rw [bracket] at h
  obtain ⟨-, h⟩ := bind_eq_done h
  have hnotes := congrArg Reading.notes h
  have hvalue := congrArg Reading.value h
  obtain ⟨-, hfound⟩ := expect_yields _ _ hnotes
  rw [Reading.value_map, hfound, if_pos rfl, hd] at hvalue
  obtain ⟨rfl, rfl⟩ := sides_of_flatten hvalue
  exact hd

theorem closing_of_primary (h : primary read c ts = .done (.bracket false left right x) us) :
    closing? left = some right := by
  cases ts with
  | nil => simp [primary, miss, Reading.done] at h
  | cons t ts =>
    have hidentifier : (identifier read c t ts).value ≠ .bracket false left right x := by
      unfold identifier
      split
      · simp [Reading.done]
      · split_ifs <;> simp [Reading.done]
    simp only [primary] at h
    split at h
    · simp [miss, Reading.done] at h
    · split at h
      · exact absurd (congrArg Reading.value h) hidentifier
      · simp [Reading.done, literalOf] at h
      · have hnode := keywordForm_node (by rw [h]; rfl)
        rw [h] at hnode
        cases hnode
      · split at h
        · next hopen =>
          obtain ⟨closing, hclosing⟩ := closing_of_isOpening hopen
          exact closing_of_bracket hclosing h
        · split at h
          · simp [Reading.done, Expr.empty] at h
          · split at h
            · simp [Reading.map, Reading.done] at h
            · simp only [Reading.done, symbolLiteral] at h
              split at h <;> simp [literalOf] at h

theorem closing_of_sequence (h : sequence read c ts = .done (.bracket false left right x) us) :
    closing? left = some right := by
  cases ts with
  | nil => simp [sequence, atBoundary, Reading.done, Expr.empty] at h
  | cons t ts =>
    cases hb : c.isBoundary t with
    | true => simp [sequence, atBoundary, hb, Reading.done, Expr.empty] at h
    | false =>
      rw [sequence_of_whole hb (by rw [h]; rfl)] at h
      exact closing_of_primary h

/-- A group around a text that is a group already is that one. -/
theorem Fills.unwrap_grouped (h : Fills d ts e) : e.grouped.unwrap = e.unwrap := by
  by_cases hi : e.isImplicit = true
  · have hread := h ⟨.stop, "", 0⟩ ⟨.stop, "", 0⟩ [] (isBoundary_of_stop rfl)
    cases e with
    | bracket sized left right content =>
      obtain ⟨rfl, hleft⟩ : sized = false ∧ (left = "\x7b" ∨ left = "") := by
        simpa [Expr.isImplicit] using hi
      have hclosing := closing_of_sequence hread
      obtain rfl | rfl := hleft
      · obtain rfl : "\x7d" = right := by simpa [closing?] using hclosing
        rfl
      · simp [closing?] at hclosing
    | _ => simp [Expr.isImplicit] at hi
  · rw [Bool.not_eq_true] at hi
    rw [Expr.grouped_eq hi, Expr.unwrap_of_not_implicit hi]
    rfl

end Contents

section Parts

variable {group : List Token}

theorem Fills.bracket (h : Fills d ts e) (hd : closing? left = some right)
    (hc : t.isSymbol right = true) (s : Token) (us : List Token) :
    bracket read ⟨d, s, false⟩ left (ts ++ t :: us) =
      .done (Expr.bracket false left right e).flatten us := by
  have hboundary : (⟨d, s, false⟩ : Context).isBoundary t = true := by
    obtain ⟨-, -, hclosing⟩ := isMark_of_closing hd
    simp only [Token.isSymbol, Bool.and_eq_true, decide_eq_true_eq] at hc
    exact isBoundary_of_isClosing (by simp [Token.isClosing, hc, hclosing])
  simp [Grammar.bracket, read_operand, operand, h s t us hboundary, expect, hd, hc]

theorem isOpening_of_isSymbol (hd : closing? left = some right) (ho : t.isSymbol left = true) :
    t.isOpening = true ∧ t.text = left := by
  simp only [Token.isSymbol, Bool.and_eq_true, decide_eq_true_eq] at ho
  simp [Token.isOpening, Vocabulary.isOpening, ho, hd]

/-- A bracket that is no group comes first as itself. -/
theorem Fills.primary (h : Fills d ts e) (hd : closing? left = some right)
    (ho : t.isSymbol left = true) (hc : u.isSymbol right = true) (s : Token) (us : List Token) :
    primary read ⟨d, s, false⟩ (t :: (ts ++ u :: us)) =
      .done (Expr.bracket false left right e).flatten us := by
  obtain ⟨hopen, htext⟩ := isOpening_of_isSymbol hd ho
  rw [primary_of_isOpening hopen, htext]
  exact h.bracket hd hc s us

theorem Fills.factor (h : Fills d ts e) (hg : IsGroup ts group) (s : Token) (hafter : IsOver after) :
    factor read ⟨d, s, false⟩ (group ++ after) = .done e.grouped after := by
  obtain ⟨ho, hc⟩ := hg
  rw [List.cons_append, List.append_assoc, List.singleton_append, Grammar.factor,
    h.primary rfl ho hc, Reading.bind_done, scripts_of_over hafter]
  rfl

/-- A group is taken off where an argument is read. -/
theorem Fills.latexArgument (h : Fills d ts e) (hg : IsGroup ts group) (s : Token)
    (us : List Token) : latexArgument read ⟨d, s, false⟩ (group ++ us) = .done e.unwrap us := by
  obtain ⟨ho, hc⟩ := hg
  have hread := h s _ us (isBoundary_of_brace hc _)
  simp [Grammar.latexArgument, ho, read_operand, operand, hread, expect, hc]

theorem Fills.argument (h : Fills d ts e) (hg : IsGroup ts group) (s : Token)
    (hafter : IsOver after) :
    argument read ⟨d, s, false⟩ (group ++ after) = .done e.unwrap after := by
  cases d with
  | latex => exact h.latexArgument hg s after
  | legacy => rw [Grammar.argument, h.factor hg s hafter, Reading.map_done, h.unwrap_grouped]

theorem Fills.scriptArgument (h : Fills d ts e) (hg : IsGroup ts group) (s : Token)
    (us : List Token) : scriptArgument read ⟨d, s, false⟩ (group ++ us) = .done e.unwrap us := by
  cases d with
  | latex => exact h.latexArgument hg s us
  | legacy =>
    obtain ⟨ho, hc⟩ := hg
    have hbraces : closing? "\x7b" = some "\x7d" := rfl
    have hread := h.bracket hbraces hc s us
    rw [List.cons_append, List.append_assoc, List.singleton_append, Grammar.scriptArgument]
    simp only [legacyScriptArgument, ho, if_true, (isOpening_of_isSymbol hbraces ho).2, hread,
      Reading.map_done]
    exact congrArg (Reading.done · us) h.unwrap_grouped

end Parts

section Forms

variable {text word : String} {q : ℤ} {group numerator denominator ss : List Token}

theorem exists_of_word (h : t.word? = some word) :
    ∃ text q, t = ⟨.keyword, text, q⟩ ∧ Text.lower text = word := by
  have hk := kind_of_word h
  obtain ⟨kind, text, q⟩ := t
  obtain rfl : kind = .keyword := hk
  exact ⟨text, q, rfl, by simpa [Token.word?] using h⟩

/-- What follows a keyword goes up to the end of a text together with it. -/
theorem sequence_of_keyword (hstop : Text.lower text ∉ tailWords)
    (hafter : IsOver after) (h : keywordForm read c ⟨.keyword, text, q⟩ ts = .done e after) :
    sequence read c (⟨.keyword, text, q⟩ :: ts) = .done e after := by
  refine sequence_of_primary (starts_keyword hstop c q).1 hafter ?_
  rw [primary_of_keyword hstop, h]

theorem Fills.sequence_bracket (h : Fills d ts e) (hd : closing? left = some right)
    (hg : left ≠ "\x7b") (ho : t.isSymbol left = true) (hc : u.isSymbol right = true)
    (hafter : IsOver after) (s : Token) :
    sequence read ⟨d, s, false⟩ (t :: (ts ++ u :: after)) =
      .done (.bracket false left right e) after := by
  have hne : left ≠ "" := by
    rintro rfl
    simp [closing?] at hd
  refine sequence_of_primary (starts_of_isOpening (isOpening_of_isSymbol hd ho).1).1 hafter ?_
  rw [h.primary hd ho hc, Expr.flatten_of_bare hne fun h => absurd h hg]

theorem Fills.sequence_sized {v w : Token} (h : Fills d ts e) (hl : t.word? = some "left")
    (ho : delimiter? d u = some left) (hleft : left ∈ Side.left.delimiters)
    (hr : v.word? = some "right") (hc : delimiter? d w = some right)
    (hright : right ∈ Side.right.delimiters) (hbar : d = .legacy → left ≠ "|")
    (hafter : IsOver after) (s : Token) :
    sequence read ⟨d, s, false⟩ (t :: u :: (ts ++ v :: w :: after)) =
      .done (.bracket true left right e) after := by
  have hsingle (us : List Token) : isDoubleBar d (u :: us) = false := by
    cases d with
    | latex => cases us <;> rfl
    | legacy =>
      have htext : u.text = left := by
        simp only [delimiter?] at ho
        split at ho
        · cases ho
        · simpa using ho
      cases us <;> simp [isDoubleBar, Token.isSymbol, htext, hbar rfl]
  have hopening := sizedDelimiter_of_delimiter (c := ⟨d, s, false⟩) ho hleft
    (hsingle (ts ++ v :: w :: after))
  have hclosing := sizedDelimiter_of_delimiter (c := ⟨d, s, false⟩) hc hright
    (isDoubleBar_before_over hafter)
  have hcontent := h s v (w :: after) (by simp [Context.isBoundary, hr])
  have hne : left ≠ "" := by
    rintro rfl
    exact absurd hleft (by decide)
  refine sequence_of_primary (facts_of_left hl).1 hafter ?_
  rw [primary_of_left hl, sizedBracket, hopening, Reading.bind_done, read_operand, operand, hcontent,
    Reading.bind_done, sizedClosing, if_pos hr, hclosing, Reading.map_done, if_neg (by simp [hne])]

/-- A script is read after its base. -/
theorem Fills.sequence_script (h : Fills d ts e) (side : Script) (hb : ReadsAs d false value t)
    (hm : u.isSymbol (scriptMark side) = true) (hg : IsGroup ts group) (hafter : IsOver after)
    (s : Token) :
    sequence read ⟨d, s, false⟩ (t :: u :: (group ++ after)) =
      .done (.script side (.literal value) e.unwrap) after := by
  obtain ⟨kind, text, q⟩ := u
  obtain ⟨rfl, rfl⟩ : kind = .symbol ∧ text = scriptMark side := by simpa [Token.isSymbol] using hm
  have hbase : Grammar.primary read ⟨d, s, false⟩
      (t :: ⟨.symbol, scriptMark side, q⟩ :: (group ++ after)) =
      .done (.literal value) (⟨.symbol, scriptMark side, q⟩ :: (group ++ after)) := by
    refine primary_of_reads hb rfl rfl fun _ => ?_
    cases side <;> simp [scriptMark, Token.isOpening, Vocabulary.isOpening, closing?, Token.word?]
  rw [sequence_resume (hb.1 _ rfl rfl), hbase, Reading.bind_done]
  simp only [resume, scripts_mark, h.scriptArgument hg, Reading.bind_done, scripts_of_over hafter,
    chain_of_over hafter, juxtaposed_of_over hafter]
  rfl

theorem Fills.sequence_stacked (hs : Fills .latex ss S) (ht : Fills .latex ts T)
    (hw : word ∈ ["frac", "dfrac", "tfrac"]) (hk : t.word? = some word) (hn : IsGroup ss numerator)
    (hm : IsGroup ts denominator) (hafter : IsOver after) (s : Token) :
    sequence read ⟨.latex, s, false⟩ (t :: (numerator ++ (denominator ++ after))) =
      .done (.fraction true S.unwrap T.unwrap) after := by
  obtain ⟨text, q, rfl, rfl⟩ := exists_of_word hk
  have hstop : Text.lower text ∉ tailWords := by
    have hall : ∀ word ∈ ["frac", "dfrac", "tfrac"], word ∉ tailWords := by decide
    exact hall _ hw
  have hnumerator : read .argument ⟨.latex, s, false⟩ (numerator ++ (denominator ++ after)) =
      .done S.unwrap (denominator ++ after) := by
    rw [read_argument]
    exact hs.latexArgument hn s _
  have hdenominator : read .argument ⟨.latex, s, false⟩ (denominator ++ after) =
      .done T.unwrap after := by
    rw [read_argument]
    exact ht.latexArgument hm s after
  apply sequence_of_keyword hstop hafter
  rw [keywordForm_stacked rfl hw, stackedFraction, hnumerator, Reading.bind_done, hdenominator,
    Reading.map_done]

/-- A fraction is read after its numerator. -/
theorem Fills.sequence_divided (hs : Fills d ss S) (ht : Fills d ts T) (hk : t.word? = some "over")
    (hn : IsGroup ss numerator) (hm : IsGroup ts denominator) (hafter : IsOver after) (s : Token) :
    sequence read ⟨d, s, false⟩ (numerator ++ t :: (denominator ++ after)) =
      .done (.fraction true S.unwrap T.unwrap) after := by
  obtain ⟨ho, hc⟩ := hn
  have hstart := starts_of_isOpening (c := ⟨d, s, false⟩) (isOpening_of_isSymbol rfl ho).1
  have hfactor : read (.operand Level.product.next) ⟨d, s, false⟩ (denominator ++ after) =
      .done T.grouped after := by
    rw [read_operand]
    exact ht.factor hm s hafter
  have hkind := kind_of_word hk
  have hscripts (e : Expr) : scripts read ⟨d, s, false⟩ e (t :: (denominator ++ after)) =
      .done e (t :: (denominator ++ after)) :=
    scripts_of_ends (by simp [Token.isScript, Token.isSymbol, hkind]) e
  have hover : operator? .product t = some "over" := by
    simp [operator?, Token.isSymbol, hkind, hk, Option.filter]
  have hchain (e : Expr) : chain read ⟨d, s, false⟩ .product e (t :: (denominator ++ after)) =
      .done (.fraction true e.unwrap T.unwrap) after := by
    rw [chain, hover]
    simp only [hfactor, Reading.bind_done]
    rw [read_chain (by decide), chain_of_over hafter, ← ht.unwrap_grouped]
    rfl
  rw [List.cons_append, List.append_assoc, List.singleton_append, sequence_resume hstart.1,
    hs.primary rfl ho hc, Reading.bind_done, ← hs.unwrap_grouped]
  simp only [resume, hscripts, hchain, Reading.bind_done, chain_of_over hafter,
    juxtaposed_of_over hafter]
  rfl

/-- The form is read as its node up to the end of a text. -/
theorem Encloses.sequence (hs : Fills d ss S) (ht : Fills d ts T)
    (h : Encloses d ss ts S T us e) (hafter : IsOver after) (s : Token) :
    sequence read ⟨d, s, false⟩ (us ++ after) = .done e after := by
  cases h with
  | bracket hd hg ho hc => simpa using ht.sequence_bracket hd hg ho hc hafter s
  | sized hl ho hleft hr hc hright hbar =>
    simpa using ht.sequence_sized hl ho hleft hr hc hright hbar hafter s
  | root hk hg =>
    obtain ⟨text, q, rfl, hlower⟩ := exists_of_word hk
    apply sequence_of_keyword (by simp [hlower, tailWords]) hafter
    rw [keywordForm_sqrt hlower]
    exact congrArg (Reading.map Expr.root) (ht.argument hg s hafter)
  | @decorated keyword group decoration hk hd hg =>
    obtain ⟨hstop, hform, -⟩ := lower_of_decoration hd
    obtain ⟨kind, text, q⟩ := keyword
    obtain rfl : kind = .keyword := hk
    apply sequence_of_keyword hstop hafter
    rw [keywordForm_decoration hform hd]
    exact congrArg (Reading.map (Expr.decorated decoration.name)) (ht.argument hg s hafter)
  | script side hb hm hg => exact ht.sequence_script side hb hm hg hafter s
  | stacked hd hk hn hm =>
    subst hd
    obtain ⟨word, hw, hk⟩ := hk
    simpa using hs.sequence_stacked ht hw hk hn hm hafter s
  | divided hk hn hm => simpa using hs.sequence_divided ht hk hn hm hafter s

end Forms

/-- Parsing is compositional: if two texts parse without a note by themselves, then so does each form
around them, into the node of what they are. -/
theorem parse_of_encloses {ss : List Token} (hs : ∀ t ∈ ss, t.kind ≠ .stop)
    (hS : parse d ss = ⟨S, []⟩) (ht : ∀ t ∈ ts, t.kind ≠ .stop) (hT : parse d ts = ⟨T, []⟩)
    (h : Encloses d (significant ss) (significant ts) S T (significant us) e)
    (hafter : IsOver (significant after)) : parse d (us ++ after) = ⟨e, []⟩ := by
  have hsequence := h.sequence (fills_of_parse hs hS) (fills_of_parse ht hT) hafter
    (impliedStop (significant (us ++ after)))
  have hread := readText_of_sequence hafter hsequence
  rw [← significant_append] at hread
  rw [parse]
  simp only [significant] at hread
  rw [hread]
  rfl

/-- A fraction of a sum and a group. -/
theorem parse_of_encloses_frac :
    let numerator : List Token :=
      [⟨.identifier, "a", 6⟩, ⟨.symbol, "+", 7⟩, ⟨.identifier, "b", 8⟩]
    let denominator : List Token :=
      [⟨.symbol, "\x7b", 11⟩, ⟨.identifier, "c", 12⟩, ⟨.symbol, "\x7d", 13⟩]
    let sum : Expr := .binary "+" (.literal "a") (.literal "b")
    let group : Expr := .bracket false "\x7b" "\x7d" (.literal "c")
    parse .latex numerator = ⟨sum, []⟩ ∧ parse .latex denominator = ⟨group, []⟩ ∧
      parseText .latex "\\frac\x7ba+b\x7d\x7b\x7bc\x7d\x7d" =
        ⟨.fraction true sum (.literal "c"), []⟩ := by
  intro numerator denominator sum group
  have hsum : parse .latex numerator = ⟨sum, []⟩ := by
    rw [parse, Parsed.mk.injEq]
    decide +kernel
  have hgroup : parse .latex denominator = ⟨group, []⟩ := by
    rw [parse, Parsed.mk.injEq]
    decide +kernel
  have htokens : tokenize .latex "\\frac\x7ba+b\x7d\x7b\x7bc\x7d\x7d" =
      (⟨.keyword, "frac", 0⟩ ::
        ((⟨.symbol, "\x7b", 5⟩ :: (numerator ++ [⟨.symbol, "\x7d", 9⟩])) ++
          (⟨.symbol, "\x7b", 10⟩ :: (denominator ++ [⟨.symbol, "\x7d", 14⟩])))) ++
        [⟨.stop, "", 15⟩] := by
    decide +kernel
  refine ⟨hsum, hgroup, ?_⟩
  have hover : IsOver (significant [⟨.stop, "", 15⟩]) := by
    rintro t ⟨⟩
    rfl
  rw [parseText, htokens]
  refine parse_of_encloses (by decide) hsum (by decide) hgroup ?_ hover
  exact .stacked rfl ⟨"frac", by decide, by decide⟩ (.mk (by decide) (by decide))
    (.mk (by decide) (by decide))

end MathMarkup.Grammar
