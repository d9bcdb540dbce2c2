import MathMarkup.Proofs.Rereading.Argument

/-! How the phrases that start with a keyword are read back from their written forms. -/
namespace MathMarkup.Grammar

open Scan
open Reading (Alike)

variable {d : Dialect} {parsed rows : Bool} {a b r s w text word : String}
  {v va vb : Expr} {next na nb : Next} {c : Context} {t : Token} {ts : List Token} {q : ℤ}

section Words

/-- The keywords that no operand starts with: they come between two, or end what one stands in. -/
def tailWords : List String := ["right", "end", "times", "over", "atop"]

/-- The keywords that start a phrase in both dialects. -/
def formWords : List String := ["sqrt", "int", "oint", "sum", "left"]

/-- The text is one keyword. -/
structure IsKeyword (d : Dialect) (w text : String) : Prop where
  forms : Forms d w.toList .keyword text
  solid : Solid d w

theorem keywords_latex : ∀ word ∈ Vocabulary.latexKeywords,
    Expr.IsWord word ∧ Text.lower word = word := by
  decide

theorem isKeyword_latex (hw : w = "\\" ++ word) (h : word ∈ Vocabulary.latexKeywords) :
    IsKeyword .latex w word := by
  subst hw
  obtain ⟨hword, hlower⟩ := keywords_latex word h
  have hne : word.toList ≠ [] := fun hnil => hword.1 (String.toList_inj.1 hnil)
  have hforms : Forms .latex ("\\" ++ word).toList .keyword word := by
    have hkey := Forms.latexKeyword hne hword.2 (by simpa [hlower] using h)
    simpa [hlower] using hkey
  refine ⟨hforms, Solid.of_chars hforms.whole fun c hc => ?_⟩
  have hc' : c = '\\' ∨ c ∈ word.toList := by simpa using hc
  obtain rfl | hc' := hc'
  · decide
  · exact Text.isBlank_of_isAlpha (hword.2 c hc')

theorem isKeyword_legacy (hword : Expr.IsWord word)
    (h : Text.upper word ∈ Vocabulary.legacyKeywords) :
    IsKeyword .legacy word (Text.upper word) := by
  have hne : word.toList ≠ [] := fun hnil => hword.1 (String.toList_inj.1 hnil)
  have hforms : Forms .legacy word.toList .keyword (Text.upper word) := by
    simpa using Forms.legacyKeyword hword.2 hne (by simpa using h)
  exact ⟨hforms, Solid.of_chars hforms.whole fun c hc => Text.isBlank_of_isAlpha (hword.2 c hc)⟩

/-- A keyword that is no operator and ends nothing starts an operand. -/
theorem starts_keyword (h : Text.lower text ∉ tailWords)
    (c : Context) (q : ℤ) :
    c.isBoundary ⟨.keyword, text, q⟩ = false ∧ isProductOperator ⟨.keyword, text, q⟩ = false := by
  simp only [tailWords, List.mem_cons, List.not_mem_nil, or_false, not_or] at h
  simp [Context.isBoundary, Token.isClosing, Token.word?, Token.isSymbol, endsRow,
    isProductOperator, operator?, h]

theorem primary_of_keyword (h : Text.lower text ∉ tailWords)
    (c : Context) (q : ℤ) (ts : List Token) :
    primary read c (⟨.keyword, text, q⟩ :: ts) = keywordForm read c ⟨.keyword, text, q⟩ ts := by
  obtain ⟨hb, hp⟩ := starts_keyword h c q
  simp [primary, hb, hp]

/-- A phrase is its keyword and what is read after it. -/
theorem primary_phrase (h : Text.lower text ∉ tailWords)
    (hs : Solid d s) (hleads : Leads d .keyword text a s)
    (htakes : ∀ q, Takes d parsed rows (fun c => keywordForm read c ⟨.keyword, text, q⟩) a v next) :
    Primary d parsed rows s v next := by
  refine ⟨hs, hleads.starts fun c q _ => starts_keyword h c q, fun c o ts hc ht => ?_⟩
  obtain ⟨q, htokens, hplace⟩ := hleads o
  rw [htokens, List.cons_append, primary_of_keyword h]
  exact htakes o c q ts hc (by rwa [hplace])

end Words

section Arguments

theorem keywordForm_sqrt (h : Text.lower text = "sqrt") (c : Context) (q : ℤ) (ts : List Token) :
    keywordForm read c ⟨.keyword, text, q⟩ ts = (argument read c ts).map .root := by
  simp [keywordForm, Token.word?, h, read_argument]

theorem keywordForm_decoration {decoration : Decoration} (h : Text.lower text ∉ formWords)
    (hd : decoration? c.dialect ⟨.keyword, text, q⟩ = some decoration) (ts : List Token) :
    keywordForm read c ⟨.keyword, text, q⟩ ts =
      (argument read c ts).map (.decorated decoration.name) := by
  simp only [formWords, List.mem_cons, List.not_mem_nil, or_false, not_or] at h
  simp [keywordForm, Token.word?, h, hd, read_argument]

/-- No word for a mark on an operand is a keyword of another kind. -/
theorem lower_of_decoration {decoration : Decoration} (h : decoration? d t = some decoration) :
    Text.lower t.text ∉ tailWords ∧ Text.lower t.text ∉ formWords ∧
      Text.lower t.text ∉ ["begin", "frac", "dfrac", "tfrac"] := by
  have hall : ∀ decoration ∈ Decoration.all, ∀ text ∈ [decoration.latex, decoration.legacy],
      Text.lower text ∉ tailWords ∧ Text.lower text ∉ formWords ∧
        Text.lower text ∉ ["begin", "frac", "dfrac", "tfrac"] := by decide
  cases d with
  | latex =>
    replace h : Decoration.all.find? (·.latex = t.text) = some decoration := h
    have htext : decoration.latex = t.text := by simpa using List.find?_some h
    exact hall _ (List.mem_of_find?_eq_some h) _ (by simp [htext])
  | legacy =>
    replace h : Decoration.all.find? (·.legacy = t.text) = some decoration := h
    have htext : decoration.legacy = t.text := by simpa using List.find?_some h
    exact hall _ (List.mem_of_find?_eq_some h) _ (by simp [htext])

theorem keywordForm_stacked (hc : c.dialect = .latex)
    (h : Text.lower text ∈ ["frac", "dfrac", "tfrac"]) (q : ℤ) :
    keywordForm read c ⟨.keyword, text, q⟩ = stackedFraction read c := by
  funext ts
  have hnone : decoration? .latex ⟨.keyword, text, q⟩ = none := by
    cases hof : decoration? .latex ⟨.keyword, text, q⟩ with
    | none => rfl
    | some decoration =>
      exact absurd (List.mem_cons_of_mem "begin" h) (lower_of_decoration hof).2.2
  simp only [List.mem_cons, List.not_mem_nil, or_false] at h
  obtain h | h | h := h <;> simp [keywordForm, Token.word?, h, hc, hnone, dialectKeyword]

theorem decorations_latex : ∀ decoration ∈ Decoration.all,
    decoration.latex ∈ Vocabulary.latexKeywords ∧
    Text.lower decoration.latex ∉ tailWords ∧
    Text.lower decoration.latex ∉ formWords ∧
    Decoration.ofLatex? decoration.latex = some decoration := by
  decide

theorem decorations_legacy : ∀ decoration ∈ Decoration.all,
    Expr.IsWord (Text.lower decoration.legacy) ∧
    Text.upper (Text.lower decoration.legacy) = decoration.legacy ∧
    decoration.legacy ∈ Vocabulary.legacyKeywords ∧
    Text.lower decoration.legacy ∉ tailWords ∧
    Text.lower decoration.legacy ∉ formWords ∧
    Decoration.ofLegacy? decoration.legacy = some decoration := by
  decide

theorem separate_braced_append (cs : List Char) (s r : String) :
    Separate cs (Expr.braced s ++ r).toList := by
  have hm : IsMark "\x7b" := ⟨'\x7b', by decide, rfl⟩
  rw [Expr.braced, String.append_assoc, String.append_assoc]
  exact hm.separate_right cs _

theorem separate_braced (cs : List Char) (s : String) : Separate cs (Expr.braced s).toList := by
  simpa using separate_braced_append cs s ""

/-- A keyword takes one argument. -/
theorem primary_argument {f : Expr → Expr}
    (hstop : Text.lower text ∉ tailWords)
    (hform : ∀ c q ts, Fits c d rows →
      keywordForm read c ⟨.keyword, text, q⟩ ts = (argument read c ts).map f)
    (hs : Solid d s) (hleads : Leads d .keyword text a s)
    (ha : Takes d parsed rows (argument read) a va na) : Primary d parsed rows s (f va) na := by
  refine primary_phrase hstop hs hleads fun q c o ts hc ht => ?_
  simp only [hform c q _ hc]
  exact (ha c o ts hc ht).map f

/-- In LaTeX a keyword takes a group. -/
theorem primary_group {f : Expr → Expr} (hk : IsKeyword .latex w text)
    (hstop : Text.lower text ∉ tailWords)
    (hform : ∀ c q ts, Fits c .latex rows →
      keywordForm read c ⟨.keyword, text, q⟩ ts = (argument read c ts).map f)
    (hs : Solid .latex s) (ha : Takes .latex parsed rows (latexArgument read) (Expr.braced s) va na) :
    Primary .latex parsed rows (w ++ Expr.braced s) (f va) na :=
  primary_argument hstop hform (hk.solid.append hs.braced (separate_braced _ _))
    (leads_append hk.forms (by simp) (separate_braced _ _)) (takes_argument_latex ha)

/-- In the legacy dialect a keyword takes the factor after it. -/
theorem primary_factor {f : Expr → Expr} (hk : IsKeyword .legacy w text) (hne : w ≠ "")
    (hstop : Text.lower text ∉ tailWords)
    (hform : ∀ c q ts, Fits c .legacy rows →
      keywordForm read c ⟨.keyword, text, q⟩ ts = (argument read c ts).map f)
    (ha : Slot .legacy parsed rows .factor a va na) :
    Primary .legacy parsed rows (w ++ (" " ++ a)) (f va.unwrap) fun c p t =>
      na c p t ∧ t.isScript = false :=
  primary_argument hstop hform (hk.solid.spaced ha.solid.toTrailing hne ha.ne_empty)
    (leads_gap hk.forms (by simp) a) ha.takes_argument

theorem primary_root_latex (hs : Solid .latex s)
    (ha : Takes .latex parsed rows (latexArgument read) (Expr.braced s) va na) :
    Primary .latex parsed rows ("\\sqrt" ++ Expr.braced s) (.root va) na := by
  have hk : IsKeyword .latex "\\sqrt" "sqrt" := isKeyword_latex (by decide) (by decide)
  exact primary_group hk (by decide)
    (fun c q ts _ => keywordForm_sqrt (by decide) c q ts) hs ha

theorem primary_root_legacy (ha : Slot .legacy parsed rows .factor a va na) :
    Primary .legacy parsed rows ("sqrt" ++ (" " ++ a)) (.root va.unwrap) fun c p t =>
      na c p t ∧ t.isScript = false :=
  primary_factor (isKeyword_legacy (by decide) (by decide)) (by decide)
    (by decide) (fun c q ts _ => keywordForm_sqrt (by decide) c q ts) ha

variable {decoration : Decoration}

theorem primary_decorated_latex (hd : decoration ∈ Decoration.all) (hs : Solid .latex s)
    (ha : Takes .latex parsed rows (latexArgument read) (Expr.braced s) va na) :
    Primary .latex parsed rows ("\\" ++ decoration.latex ++ Expr.braced s)
      (.decorated decoration.name va) na := by
  obtain ⟨hmem, hstop, hword, hof⟩ := decorations_latex decoration hd
  exact primary_group (isKeyword_latex rfl hmem) hstop
    (fun c q ts hc => keywordForm_decoration hword (by simp [decoration?, hc.dialect, hof]) ts) hs ha

theorem primary_decorated_legacy (hd : decoration ∈ Decoration.all)
    (ha : Slot .legacy parsed rows .factor a va na) :
    Primary .legacy parsed rows (Text.lower decoration.legacy ++ (" " ++ a))
      (.decorated decoration.name va.unwrap) fun c p t => na c p t ∧ t.isScript = false := by
  obtain ⟨hlower, hupper, hmem, hstop, hword, hof⟩ := decorations_legacy decoration hd
  have hk := isKeyword_legacy hlower (by simpa [hupper] using hmem)
  rw [hupper] at hk
  exact primary_factor hk hlower.1 hstop
    (fun c q ts hc => keywordForm_decoration hword (by simp [decoration?, hc.dialect, hof]) ts) ha

/-- A fraction with a bar is, in LaTeX, a keyword with two groups. -/
theorem primary_fraction (ha : Solid .latex a) (hb : Solid .latex b)
    (hn : Takes .latex parsed rows (latexArgument read) (Expr.braced a) va fun _ _ _ => True)
    (hm : Takes .latex parsed rows (latexArgument read) (Expr.braced b) vb nb) :
    Primary .latex parsed rows ("\\frac" ++ (Expr.braced a ++ Expr.braced b))
      (.fraction true va vb) nb := by
  have hk : IsKeyword .latex "\\frac" "frac" := isKeyword_latex (by decide) (by decide)
  have hseparate := separate_braced (Expr.braced a).toList b
  have hparts := ha.braced.append hb.braced hseparate
  have hfrac := separate_braced_append ("\\frac" : String).toList a (Expr.braced b)
  refine primary_phrase (by decide) (hk.solid.append hparts hfrac)
    (leads_append hk.forms (by simp) hfrac) fun q => ?_
  have htakes := (takes_argument_latex hn).bind
    (f := fun c x us => (argument read c us).map (Expr.fraction true x))
    ((takes_argument_latex hm).map (Expr.fraction true va))
    (splits_append ha.braced.whole hseparate) fun _ _ _ _ _ _ _ _ _ => trivial
  intro c o ts hc ht
  simp only [keywordForm_stacked hc.dialect (by decide : Text.lower "frac" ∈ ["frac", "dfrac", "tfrac"]),
    stackedFraction, read_argument]
  exact htakes c o ts hc ht

end Arguments

section Large

/-- The text of a bound with its mark, or none. -/
inductive BoundText (d : Dialect) (parsed rows : Bool) (mark : String) :
    String → Option Expr → Prop
  | absent : BoundText d parsed rows mark "" none
  | given {x : String} {v : Expr} (hx : Solid d x)
      (h : Takes d parsed rows (scriptArgument read) x v Unbarred) :
      BoundText d parsed rows mark (mark ++ x) (some v)

/-- The text of a body in its group, or none. -/
inductive BodyText (d : Dialect) (parsed rows : Bool) : String → Option Expr → Prop
  | absent : BodyText d parsed rows "" none
  | given {x : String} {v : Expr} (h : Content d parsed rows x v) :
      BodyText d parsed rows (" " ++ Expr.braced x) (some v.grouped.unwrap)

variable {mark : String} {part lower upper whole : Option Expr}

theorem bound_of_ne (h : ∀ t ∈ ts.head?, t.isSymbol mark = false) (c : Context) :
    bound read c mark ts = .done none ts := by
  cases ts with
  | nil => rfl
  | cons t ts => simp [bound, h t rfl]

/-- A bound is taken after its mark; where the mark does not come, there is none. -/
theorem BoundText.takes (hm : IsMark mark) (h : BoundText d parsed rows mark s part) :
    Takes d parsed rows (fun c => bound read c mark) s part fun c p t =>
      Unbarred c p t ∧ t.isSymbol mark = false := by
  intro c o ts hc ht
  cases h with
  | absent => exact .of_eq (bound_of_ne (fun t h' => (ht t h').2) c)
  | @given x v hx h =>
    have hplace : o + 1 + x.length = o + (mark ++ x).length := by
      obtain ⟨y, -, rfl⟩ := hm
      simp
      omega
    rw [tokens_mark hm, List.cons_append]
    simp only [bound, isSymbol_self, if_true, read_scriptArgument]
    exact (h c (o + 1) ts hc fun t h' => hplace ▸ (ht t h').1).map some

theorem BoundText.solid (hm : IsMark mark) (h : BoundText d parsed rows mark s part) :
    Solid d s := by
  cases h with
  | absent => exact Solid.empty d
  | given hx _ => exact Solid.mark_append hm hx

theorem isMark_lower : IsMark "_" := ⟨'_', by decide, rfl⟩

theorem isMark_upper : IsMark "^" := ⟨'^', by decide, rfl⟩

theorem BoundText.separate (hm : IsMark mark) (h : BoundText d parsed rows mark s part)
    {cs : List Char} (hr : Separate cs r.toList) : Separate cs (s ++ r).toList := by
  cases h with
  | absent => simpa using hr
  | given =>
    rw [String.append_assoc]
    exact hm.separate_right cs _

theorem BoundText.separate_self (h : BoundText d parsed rows "^" s part) (cs : List Char) :
    Separate cs s.toList := by
  have hs := h.separate isMark_upper (r := "") (Separate.nil_right cs)
  simpa using hs

theorem BodyText.separate (h : BodyText d parsed rows s whole) (cs : List Char) :
    Separate cs s.toList := by
  cases h with
  | absent => exact Separate.nil_right _
  | given => exact gap_separate_right _ _

/-- What a bound starts with is its mark, or what comes next where there is none. -/
theorem BoundText.head (hm : IsMark mark) (h : BoundText d parsed rows mark s part) (o : ℕ)
    (ts : List Token) : (s = "" ∧ part = none) ∨
      part.isSome = true ∧ ∃ us, tokens d o s ++ ts = ⟨.symbol, mark, o⟩ :: us := by
  cases h with
  | absent => exact .inl ⟨rfl, rfl⟩
  | given => exact .inr ⟨rfl, _, by rw [tokens_mark hm, List.cons_append]⟩

theorem head_isSymbol (hc : Fits c d rows) (h : ∀ t ∈ ts.head?, t.isSymbol mark = false) :
    (c.head ts).isSymbol mark = false := by
  cases ts with
  | nil => simp [Context.head, Token.isSymbol, hc.stop]
  | cons t ts => exact h t rfl

/-- Bounds are taken with the lower one first. -/
theorem takes_bounds (hl : BoundText d parsed rows "_" a lower)
    (hu : BoundText d parsed rows "^" b upper) :
    Takes d parsed rows (bounds read) (a ++ b) (lower, upper) fun c p t =>
      Unbarred c p t ∧ t.isScript = false := by
  have hsplit : Splits d 0 a b (a ++ b) :=
    splits_append (hl.solid isMark_lower).whole (hu.separate_self a.toList)
  intro c o ts hc ht
  obtain ⟨q, hq, htokens, hplace⟩ := hsplit o
  rw [htokens, List.append_assoc]
  have hup : ∀ t ∈ ts.head?, t.isSymbol "^" = false := fun t h' => by
    have := (ht t h').2
    simp only [Token.isScript, Bool.or_eq_false_iff] at this
    exact this.1
  have hdown : ∀ t ∈ ts.head?, t.isSymbol "_" = false := fun t h' => by
    have := (ht t h').2
    simp only [Token.isScript, Bool.or_eq_false_iff] at this
    exact this.2
  have hupper := hu.takes isMark_upper c q ts hc fun t h' =>
    ⟨hplace ▸ (ht t h').1, hup t h'⟩
  obtain ⟨rfl, rfl⟩ | ⟨hsome, us, hus⟩ := hl.head isMark_lower o (tokens d q b ++ ts)
  · obtain ⟨rfl, rfl⟩ | ⟨-, us, hus⟩ := hu.head isMark_upper q ts
    · simp only [tokens_empty, List.nil_append, bounds, head_isSymbol hc hup]
      exact .of_eq (by simp [bound_of_ne hdown])
    · have hhead : (c.head (tokens d q b ++ ts)).isSymbol "^" = true := by
        rw [hus]
        exact isSymbol_self ..
      simp only [tokens_empty, List.nil_append, bounds, hhead, if_true]
      exact hupper.bind_done (.of_eq (by simp [bound_of_ne hdown]))
  · have hnext : ∀ t ∈ (tokens d q b ++ ts).head?,
        Unbarred c (o + a.length : ℕ) t ∧ t.isSymbol "_" = false := by
      obtain ⟨rfl, rfl⟩ | ⟨-, vs, hvs⟩ := hu.head isMark_upper q ts
      · intro t h'
        have hp : o + (a ++ "").length = o + a.length := by simp
        exact ⟨hp ▸ (ht t h').1, hdown t h'⟩
      · rw [hvs]
        rintro t ⟨⟩
        exact ⟨fun h => absurd h (by simp [Token.isSymbol]), by simp [Token.isSymbol]⟩
    have hlower := hl.takes isMark_lower c o (tokens d q b ++ ts) hc hnext
    have hhead : (c.head (tokens d o a ++ (tokens d q b ++ ts))).isSymbol "^" = false := by
      rw [hus]
      simp [Context.head, Token.isSymbol]
    simp only [bounds, hhead, Bool.false_eq_true, if_false]
    refine hlower.bind_done ?_
    simp only [hsome, if_true]
    exact hupper.map _

theorem startsOperand_of_symbol (h : mark = "^" ∨ mark = "_" ∨ mark = "|")
    (ht : t.isSymbol mark = true) (c : Context) : startsOperand c t = true := by
  obtain ⟨kind, text, offset⟩ := t
  simp only [Token.isSymbol, Bool.and_eq_true, decide_eq_true_eq] at ht
  obtain ⟨rfl, rfl⟩ := ht
  rcases h with rfl | rfl | rfl <;>
    simp [startsOperand, Context.isBoundary, Token.isClosing, Vocabulary.isClosing, Token.word?,
      Token.isSymbol, endsRow, isProductOperator, operator?, Token.isRelation,
      Vocabulary.isRelation, Vocabulary.lineBreak]

/-- What no operand starts with is neither a script mark nor a bar. -/
theorem facts_of_startsOperand (h : startsOperand c t = false) (p : ℤ) :
    Unbarred c p t ∧ t.isScript = false := by
  have hne (m : String) (hm : m = "^" ∨ m = "_" ∨ m = "|") : t.isSymbol m = false := by
    by_contra ht
    rw [startsOperand_of_symbol hm (by simpa using ht) c] at h
    contradiction
  refine ⟨fun ht => ?_, ?_⟩
  · rw [hne "|" (by simp)] at ht
    contradiction
  · simp [Token.isScript, hne]

/-- What may come after a large operator: no script, and without a body nothing that could be it. -/
def AfterBody (whole : Option Expr) : Next := fun c _ t =>
  t.isScript = false ∧ (whole = none → startsOperand c t = false)

theorem BodyText.takes (h : BodyText d parsed rows s whole) :
    Takes d parsed rows (body read) s whole (AfterBody whole) := by
  intro c o ts hc ht
  cases h with
  | absent =>
    refine .of_eq ?_
    cases ts with
    | nil => rfl
    | cons t ts => simp [tokens_empty, body, (ht t rfl).2 rfl]
  | @given x v h =>
    have hslot := h.primary_braced.slot
    have hopen : (⟨.symbol, "\x7b", (o + 1 : ℕ)⟩ : Token).isOpening = true := rfl
    have hoperand := startsOperand_of_starts (starts_of_isOpening (c := c) hopen) rfl
    have htakes := hslot.enters c (o + 1) ts hc fun _ _ => trivial
    have hends : resume c .factor v.grouped ts = .done v.grouped ts :=
      scripts_of_ends (fun t h' => (ht t h').1) _
    rw [hends] at htakes
    rw [tokens_gap]
    rw [tokens_braced h.solid.whole, List.cons_append] at htakes ⊢
    simp only [body, hoperand, if_true, read_operand]
    exact htakes.map _

theorem BodyText.head (h : BodyText d parsed rows s whole) (o : ℕ) (ts : List Token) :
    (s = "" ∧ whole = none) ∨
      ∃ q us, tokens d o s ++ ts = ⟨.symbol, "\x7b", q⟩ :: us := by
  cases h with
  | absent => exact .inl ⟨rfl, rfl⟩
  | given h => exact .inr ⟨_, _, by rw [tokens_gap, tokens_braced h.solid.whole, List.cons_append]⟩

/-- After its keyword a large operator is taken with its bounds and its body. -/
theorem takes_large (hl : BoundText d parsed rows "_" a lower)
    (hu : BoundText d parsed rows "^" b upper) (hb : BodyText d parsed rows s whole)
    (operator : LargeOperator) :
    Takes d parsed rows (fun c => large read c operator) (a ++ b ++ s)
      (.large operator lower upper whole) (AfterBody whole) := by
  have hbounds := takes_bounds hl hu
  have hsolid : Solid d (a ++ b) :=
    (hl.solid isMark_lower).append (hu.solid isMark_upper) (hu.separate_self a.toList)
  have hsplit : Splits d 0 (a ++ b) s (a ++ b ++ s) := splits_append hsolid.whole (hb.separate _)
  refine hbounds.bind (f := fun c x us => (body read c us).map (Expr.large operator x.1 x.2))
    (hb.takes.map _) hsplit fun c o q ts hc hq ht => ?_
  obtain ⟨rfl, rfl⟩ | ⟨p, us, hus⟩ := hb.head q ts
  · intro t h'
    exact facts_of_startsOperand ((ht t h').2 rfl) _
  · rw [hus]
    rintro t ⟨⟩
    exact ⟨fun h => absurd h (by simp [Token.isSymbol]), rfl⟩

theorem isKeyword_large (d : Dialect) (operator : LargeOperator) :
    ∃ text, IsKeyword d ((if d = .latex then "\\" else "") ++ operator.name) text ∧
      Text.lower text = operator.name := by
  cases d with
  | latex =>
    refine ⟨operator.name, isKeyword_latex rfl ?_, ?_⟩
    · cases operator <;> decide
    · cases operator <;> decide
  | legacy =>
    have hw : (if Dialect.legacy = .latex then "\\" else "") ++ operator.name = operator.name := by
      simp
    rw [hw]
    refine ⟨Text.upper operator.name, isKeyword_legacy ?_ ?_, ?_⟩
    · cases operator <;> decide
    · cases operator <;> decide
    · cases operator <;> decide

theorem keywordForm_large {operator : LargeOperator} (h : Text.lower text = operator.name)
    (c : Context) (q : ℤ) (ts : List Token) :
    keywordForm read c ⟨.keyword, text, q⟩ ts = large read c operator ts := by
  cases operator <;> simp [keywordForm, Token.word?, h, LargeOperator.name]

theorem primary_large (hl : BoundText d parsed rows "_" a lower)
    (hu : BoundText d parsed rows "^" b upper) (hb : BodyText d parsed rows s whole)
    (operator : LargeOperator) :
    Primary d parsed rows
      ((if d = .latex then "\\" else "") ++ operator.name ++ (a ++ b ++ s))
      (.large operator lower upper whole) (AfterBody whole) := by
  obtain ⟨text, hk, hlower⟩ := isKeyword_large d operator
  generalize hw : (if d = .latex then "\\" else "") ++ operator.name = w at hk
  have hne : w ≠ "" := by
    subst hw
    cases operator <;> simp [LargeOperator.name]
  have hab : Separate w.toList (a ++ b ++ s).toList := by
    rw [String.append_assoc]
    exact hl.separate isMark_lower (hu.separate isMark_upper (hb.separate w.toList))
  have hbounds : Solid d (a ++ b) :=
    (hl.solid isMark_lower).append (hu.solid isMark_upper) (hu.separate_self a.toList)
  have hsolid : Solid d (w ++ (a ++ b ++ s)) := by
    have hfront : Solid d (w ++ (a ++ b)) :=
      hk.solid.append hbounds (hl.separate isMark_lower (hu.separate_self w.toList))
    rw [← String.append_assoc]
    cases hb with
    | absent => simpa using hfront
    | given h =>
      refine hfront.spaced h.solid.braced.toTrailing ?_ ?_
      · simp [hne]
      · simp [Expr.braced]
  refine primary_phrase ?_ hsolid (leads_append hk.forms (by simp) hab) fun q => ?_
  · rw [hlower]
    cases operator <;> decide
  · have hform : (fun c => keywordForm read c ⟨.keyword, text, q⟩) =
        fun c => large read c operator := by
      funext c ts
      exact keywordForm_large hlower c q ts
    rw [hform]
    exact takes_large hl hu hb operator

end Large

end MathMarkup.Grammar
