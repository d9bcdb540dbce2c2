import MathMarkup.Conversion.Canonical
import MathMarkup.Proofs.Expr.Shown
import MathMarkup.Proofs.Grammar.Composition
import MathMarkup.Proofs.Grammar.Course
import MathMarkup.Proofs.Grammar.Formed
import MathMarkup.Proofs.Grammar.Normal
import MathMarkup.Proofs.Grammar.Places
import MathMarkup.Proofs.Rereading.Literal

/-! Texts with an equality sign in front, as the lines of an aligned block have it. Such a text parses
without a note if it does so without the sign, and the sign stands beside what the text is. A text that
starts with a sign of its own is the exception: the equality sign is its first operand then. -/
namespace MathMarkup.Grammar

open MathMarkup.Expr (besideText Formed)
open Scan (tokens)

variable {d : Dialect} {c : Context} {s : String} {t : Token} {ts : List Token}
  {e v left right : Expr} {L : Level} {value : String}

section Operands

/-- What is written as it is, after a blank, when it stands beside something. -/
structure StandsFree (d : Dialect) (v : Expr) : Prop where
  level : .relation ≤ v.level d
  sign : v.isSigned = false
  mark : v.isPunctuation = false
  filled : v.isEmpty = false

theorem StandsFree.besideText (h : StandsFree d v) : besideText d v = v.render d := by
  rw [Expr.besideText, if_neg (by simp [h.sign]), Expr.operand, if_neg (by simp [h.filled]),
    if_pos h.level]

/-- The text that a token stands for as an operand. -/
def spelled (d : Dialect) (t : Token) : String :=
  if t.kind = .identifier then identifierValue d t.text else t.text

/-- Neither a sign nor, quoted or not, a punctuation mark or nothing at all. -/
def StartsFree (d : Dialect) (t : Token) : Prop :=
  t.isSign = false ∧ spelled d t ≠ "" ∧ Vocabulary.isPunctuation (spelled d t) = false

instance (d : Dialect) (t : Token) : Decidable (StartsFree d t) :=
  inferInstanceAs (Decidable (_ ∧ _ ∧ _))

theorem free_literal (h : value ≠ "") (hp : Vocabulary.isPunctuation value = false) :
    StandsFree d (.literal value) :=
  ⟨level_le_factor _, rfl, hp, by simpa [Expr.isEmpty] using h⟩

theorem free_script (side : Script) (base argument : Expr) :
    StandsFree d (.script side base argument) := ⟨level_le_factor _, rfl, rfl, rfl⟩

theorem free_bracket (sized : Bool) (a b : String) (content : Expr) :
    StandsFree d (.bracket sized a b content) := ⟨level_le_factor _, rfl, rfl, rfl⟩

theorem free_apply (left right : Expr) : StandsFree d (.binary "apply" left right) :=
  ⟨level_le_factor _, rfl, rfl, rfl⟩

theorem free_fraction (bar : Bool) (left right : Expr) : StandsFree d (.fraction bar left right) := by
  refine ⟨?_, rfl, rfl, rfl⟩
  simp only [Expr.level]
  split <;> decide

theorem free_keywordNode (h : isKeywordNode v = true) : StandsFree d v := by
  cases v with
  | fraction bar left right => exact free_fraction bar left right
  | bracket sized a b content => exact free_bracket sized a b content
  | root => exact ⟨level_le_factor _, rfl, rfl, rfl⟩
  | large => exact ⟨level_le_factor _, rfl, rfl, rfl⟩
  | decorated => exact ⟨level_le_factor _, rfl, rfl, rfl⟩
  | block => exact ⟨level_le_factor _, rfl, rfl, rfl⟩
  | _ => simp [isKeywordNode] at h

theorem free_combine {operator : String} (ho : operator? L t = some operator)
    (hl : left.isEmpty = false) : StandsFree d (combine operator left right) := by
  unfold combine
  split
  · exact free_fraction ..
  · split
    · exact free_fraction ..
    · next hover hatop =>
      obtain ⟨-, hlevel⟩ | ⟨hword, -⟩ := operator_level ho
      · refine ⟨?_, Expr.isSigned_operation hl .., rfl, rfl⟩
        rw [Expr.level_operation hl, hlevel]
        cases L <;> first | decide | simp [operator?] at ho
      · exact absurd hword (not_or.2 ⟨hover, hatop⟩)

theorem symbolLiteral_free (h : t.text ≠ "") (hp : Vocabulary.isPunctuation t.text = false) :
    StandsFree d (symbolLiteral d t) := by
  unfold symbolLiteral
  split
  · exact free_literal (by decide) (by decide)
  · exact free_literal h hp

theorem bracket_free (opening : String) (ts : List Token) :
    StandsFree d (bracket read c opening ts).value := by
  obtain ⟨content, hflat⟩ := flatten_bracket opening
    (if (expect c ((Vocabulary.closing? opening).getD "") (read (.operand .sequence) c ts).rest).value
      then (Vocabulary.closing? opening).getD "" else "") (read (.operand .sequence) c ts).value
  have hvalue : (bracket read c opening ts).value = _ := hflat
  rw [hvalue]
  exact free_bracket ..

theorem identifier_free (h : identifierValue c.dialect t.text ≠ "")
    (hp : Vocabulary.isPunctuation (identifierValue c.dialect t.text) = false) (ts : List Token) :
    StandsFree c.dialect (identifier read c t ts).value := by
  unfold identifier
  split
  · exact free_literal h hp
  · split_ifs
    · exact free_apply ..
    · exact free_apply ..
    · exact free_literal h hp

/-- The first operand of a text, without its scripts. -/
theorem primary_free (h : (primary read c (t :: ts)).notes = []) (hs : t.isScript = false)
    (hf : StartsFree c.dialect t) : StandsFree c.dialect (primary read c (t :: ts)).value := by
  obtain ⟨hsign, hne, hmark⟩ := hf
  simp only [primary] at h ⊢
  split
  · next hb => simp [hb, miss] at h
  · next hb =>
    rw [if_neg hb] at h
    split
    · next hk =>
      simp only [spelled, hk, if_true] at hne hmark
      exact identifier_free hne hmark ts
    · next hk =>
      rw [spelled, if_neg (by simp [hk])] at hne hmark
      exact free_literal hne hmark
    · next hk =>
      simp only [hk] at h
      exact free_keywordNode (keywordForm_node h)
    · next hi hnum hkey =>
      rw [spelled, if_neg hi] at hne hmark
      split
      · exact bracket_free ..
      · simp only [hs, hsign, Bool.false_eq_true, if_false]
        exact symbolLiteral_free hne hmark

theorem scripts_free (h : StandsFree d e) (ts : List Token) :
    StandsFree d (scripts read c e ts).value := by
  induction hn : ts.length using Nat.strong_induction_on generalizing e ts with
  | _ n ih =>
    subst hn
    cases ts with
    | nil => exact h
    | cons t ts =>
      have hscript (side : Script) : StandsFree d
          ((read .scriptArgument c ts).bind fun a rest =>
            read (.scripts (.script side e.unwrap a)) c rest).value := by
        rw [Reading.value_bind, read_scripts]
        exact ih _ (Nat.lt_succ_of_le (read_suffix ..).length_le) (free_script ..) _ rfl
      simp only [scripts]
      split_ifs
      · exact hscript _
      · exact hscript _
      · exact h

theorem chain_free (h : StandsFree d e) (ts : List Token) :
    StandsFree d (chain read c L e ts).value := by
  induction hn : ts.length using Nat.strong_induction_on generalizing e ts with
  | _ n ih =>
    subst hn
    cases ts with
    | nil => exact h
    | cons t ts =>
      simp only [chain]
      split
      · exact h
      · next operator ho =>
        have hL : L ≠ .sequence := by
          rintro rfl
          simp [operator?] at ho
        rw [Reading.value_bind, read_chain hL]
        exact ih _ (Nat.lt_succ_of_le (read_suffix ..).length_le) (free_combine ho h.filled) _ rfl

theorem relation_free (h : (relation read c (t :: ts)).notes = []) (hs : t.isScript = false)
    (hf : StartsFree c.dialect t) : StandsFree c.dialect (relation read c (t :: ts)).value := by
  simp only [relation, sum, product, factor, Reading.notes_bind, List.append_eq_nil_iff] at h
  exact chain_free (chain_free (chain_free (scripts_free (primary_free h.1.1.1.1 hs hf) _) _) _) _

end Operands

section Beside

/-- What is read beside something does not depend on it. -/
theorem juxtaposed_items (c : Context) (ts : List Token) : ∃ items : List Expr, ∀ left,
    (juxtaposed read c left ts).value = items.foldl (.binary "concat") left := by
  induction hn : ts.length using Nat.strong_induction_on generalizing ts with
  | _ n ih =>
    subst hn
    cases ts with
    | nil => exact ⟨[], fun _ => rfl⟩
    | cons t ts =>
      cases hb : c.isBoundary t with
      | true => exact ⟨[], fun left => by simp [juxtaposed, atBoundary, hb, Reading.done]⟩
      | false =>
        obtain ⟨items, hitems⟩ := ih _ (relation_progress hb ts) _ rfl
        refine ⟨(relation read c (t :: ts)).value :: items, fun left => ?_⟩
        rw [juxtaposed_starts hb, Reading.value_bind, read_sequence_chain, Reading.rest_map, hitems]
        rfl

/-- After the sign alone a sequence is what it is without, with the sign in front of its first part. -/
theorem sequence_items (h : StartsApart (t :: ts)) (hs : t.isSign = false)
    (hb : c.isBoundary t = false) (o : ℤ) : ∃ items : List Expr,
    (sequence read c (t :: ts)).value =
        items.foldl (.binary "concat") (relation read c (t :: ts)).value ∧
      (sequence read c (equality o :: t :: ts)).value =
        items.foldl (.binary "concat")
          (.binary "concat" (.literal "=") (relation read c (t :: ts)).value) := by
  obtain ⟨items, hitems⟩ := juxtaposed_items c (relation read c (t :: ts)).rest
  refine ⟨items, ?_, ?_⟩
  · rw [sequence_starts hb, Reading.value_bind, read_sequence_chain, hitems]
  · rw [sequence_starts (isBoundary_equality c o), relation_equality h (by simpa using hs),
      Reading.bind_done, read_sequence_chain, juxtaposed_starts hb, Reading.value_bind,
      read_sequence_chain, Reading.rest_map, hitems]
    rfl

/-- What stands beside an expression with a text is written after it, whatever the text is. -/
theorem render_after (d : Dialect) (item : Expr) : ∃ after : String, ∀ left : Expr,
    left.render d ≠ "" → (Expr.binary "concat" left item).render d = left.render d ++ after := by
  by_cases hmark : item.isPunctuation = true
  · exact ⟨besideText d item, fun left _ => by rw [Expr.render_beside, if_pos hmark]⟩
  by_cases hitem : besideText d item = ""
  · exact ⟨"", fun left hl => by simp [Expr.render_beside, hmark, hitem, Expr.spaced, hl]⟩
  · refine ⟨" " ++ besideText d item, fun left hl => ?_⟩
    rw [Expr.render_beside, if_neg hmark, spaced_two hl hitem]

theorem render_items {x y : Expr} (hy : y.render d ≠ "") (h : x.render d = "= " ++ y.render d)
    (items : List Expr) : (items.foldl (.binary "concat") x).render d =
      "= " ++ (items.foldl (.binary "concat") y).render d := by
  induction items generalizing x y with
  | nil => exact h
  | cons item items ih =>
    obtain ⟨after, hafter⟩ := render_after d item
    refine ih ?_ ?_
    · simp [hafter y hy, hy]
    · rw [hafter x (by simp [h]), hafter y hy, h, String.append_assoc]

end Beside

section Written

theorem toLegacy_ne_empty (h : value ≠ "") : NamedSymbol.toLegacy value ≠ "" := by
  obtain hsymbol | ⟨-, hsame | ⟨-, hne⟩⟩ := Expr.toLegacy_cases value
  · exact (Expr.symbol_word _ hsymbol).1.1
  · rwa [hsame]
  · exact hne

/-- A literal with a value has a text. -/
theorem renderLiteral_ne_empty (d : Dialect) (h : value ≠ "") : Expr.renderLiteral d value ≠ "" := by
  cases d with
  | latex => exact h
  | legacy =>
    simp only [Expr.renderLiteral, Expr.legacyLiteral]
    split_ifs
    · decide
    · simp
    · exact toLegacy_ne_empty h
    · simp
    · exact h

theorem render_bracket_ne_empty {sized : Bool} {a b : String} {content : Expr}
    (hf : (Expr.bracket sized a b content).Formed d) :
    (Expr.bracket sized a b content).render d ≠ "" := by
  cases sized with
  | false =>
    have hmem : a ∈ ["(", "[", "\x7b"] := hf.self.1
    have hne : a ≠ "" := ne_of_mem_of_not_mem hmem (by decide)
    simp [Expr.render, Expr.renderBracket, hne]
  | true =>
    have hword : Expr.shown (Expr.sizingWord d .left) ≠ [] := by cases d <;> decide
    intro hempty
    have hshown := Expr.shown_bracket d true a b content
    simp [hempty, hword] at hshown

/-- So has every other operand, since the words and marks of its node stand in it. -/
theorem render_ne_empty (hf : e.Formed d) (hl : .relation ≤ e.level d) (he : e.isEmpty = false) :
    e.render d ≠ "" := by
  cases e with
  | literal value => exact renderLiteral_ne_empty d (by simpa [Expr.isEmpty] using he)
  | binary operator left right =>
    obtain ⟨⟨hmem, -⟩, -, hright⟩ := Expr.everywhere_binary.1 hf
    by_cases happly : operator = "apply"
    · subst happly
      cases right with
      | bracket sized a b content =>
        have hbracket := render_bracket_ne_empty hright
        rw [Expr.render, Expr.renderBinary, if_pos rfl]
        simp [hbracket]
      | _ => simp [Expr.render, Expr.renderBinary, Expr.isPlainBracket]
    · have hword : ∀ x ∈ Expr.operators, x ≠ "apply" → x ≠ "concat" →
          Expr.shown (Expr.operatorWord d x) ≠ [] := by
        cases d <;> decide
      have hconcat : operator ≠ "concat" := by
        rintro rfl
        rw [Expr.level_concat] at hl
        exact absurd hl (by decide)
      intro hempty
      have hshown := Expr.shown_binary d operator left right
      simp [hempty, happly, hconcat, hword operator hmem happly hconcat] at hshown
  | fraction bar left right =>
    intro hempty
    have hshown := Expr.shown_fraction d bar left right
    have hword : Expr.shown (Expr.fractionWord d bar) ≠ [] := by cases d <;> cases bar <;> decide
    have hcommand : Expr.shown "\\frac" ≠ [] := by decide
    rw [hempty] at hshown
    split at hshown <;> simp [hword, hcommand] at hshown
  | root e => cases d <;> simp [Expr.render, Expr.renderRoot]
  | script side base e => cases side <;> simp [Expr.render, Expr.scriptMark]
  | large operator lower upper body =>
    cases operator <;> simp [Expr.render, Expr.renderLarge, LargeOperator.name]
  | decorated mark child =>
    have hmark : (Decoration.ofName? mark).isSome = true := by
      simpa [Decoration.ofName?, Expr.IsFormed] using hf.self
    obtain ⟨decoration, hdecoration⟩ := Option.isSome_iff_exists.1 hmark
    cases d <;> simp [Expr.render, Expr.renderDecorated, hdecoration]
  | block name rows =>
    cases d with
    | latex =>
      have hword : Expr.shown "\\begin" ≠ [] := by decide
      intro hempty
      have hshown := Expr.shown_block .latex name rows
      simp [hempty, hword] at hshown
    | legacy => simp [Expr.render, Expr.renderBlock, Expr.braced]
  | bracket sized a b content => exact render_bracket_ne_empty hf

/-- Beside the equality sign an operand stands after a blank. -/
theorem render_equality (h : StandsFree d e) (hne : e.render d ≠ "") :
    (Expr.binary "concat" (.literal "=") e).render d = "= " ++ e.render d := by
  have hsign : (Expr.literal "=").render d = "=" := by cases d <;> decide
  rw [Expr.render_beside, if_neg (by simp [h.mark]), h.besideText, hsign, spaced_two (by decide) hne]
  simp [← String.append_assoc]

end Written

section Texts

/-- The tokens of a text with the sign in front are the sign and those of the text, two places on. -/
theorem significant_equality (d : Dialect) (s : String) :
    (tokenize d ("= " ++ s)).filter Token.isSignificant =
      equality 0 :: moveTokens (· + 2) ((tokenize d s).filter Token.isSignificant) := by
  have hmark : Scan.IsMark "=" := ⟨'=', by decide, rfl⟩
  have hsplit : "= " ++ s = "=" ++ (" " ++ s) := by
    rw [← String.append_assoc]
    rfl
  have htokens : tokens d 0 ("= " ++ s) = equality 0 :: moveTokens (· + 2) (tokens d 0 s) := by
    rw [hsplit, Scan.tokens_mark hmark, Scan.tokens_gap, Scan.tokens_shift]
    rfl
  rw [Scan.significant_eq, Scan.significant_eq, htokens, moveTokens, moveTokens, List.map_append]
  simp [Token.moved]
  omega

/-- Two places on a text is read as it is at its own. -/
theorem readText_shifted (d : Dialect) (s : String) (stop : Token) :
    let reading := readText ⟨d, stop, false⟩
      (moveTokens (· + 2) ((tokenize d s).filter Token.isSignificant))
    reading.value = (parseText d s).expr ∧
      reading.notes = (parseText d s).notes.map (·.moved (· + 2)) := by
  have hover (o : ℤ) : IsOver [(⟨.stop, "", o⟩ : Token)] := by simp [IsOver]
  have htouch : KeepsTouch (· + 2) (tokens d 0 s) := by
    intro t _ u _
    dsimp only
    omega
  have hmoved := readText_moved d (impliedStop ((tokenize d s).filter Token.isSignificant)) stop false
    (hover s.toList.length) (hover (s.toList.length + 2)) rfl (fun _ => Scan.kind_ne_stop) htouch
  rw [parseText, parse, Scan.significant_eq] at *
  rw [moveTokens, List.map_append]
  exact hmoved

/-- Without a note no operator of a product comes first. -/
theorem not_product_of_notes (h : (readText c (t :: ts)).notes = []) :
    isProductOperator t = false := by
  by_contra hp
  rw [Bool.not_eq_false] at hp
  obtain ⟨operator, ho⟩ := Option.isSome_iff_exists.1 hp
  rw [readText, read_operand, operand, sequence_starts (isBoundary_of_operator ho)] at h
  simp only [relation, sum, product, factor_of_isProductOperator hp, Reading.notes_bind,
    List.append_eq_nil_iff] at h
  simp [miss] at h

/-- What comes first in a text may stand after the sign, if nothing is missed in the text. -/
theorem startsApart_of_notes (h : (readText c (t :: ts)).notes = []) (hs : t.isScript = false)
    (hr : t.isRelation = false) : StartsApart (t :: ts) := by
  rintro u ⟨⟩
  exact ⟨hs, hr, not_product_of_notes h⟩

theorem readText_free (h : (readText c (t :: ts)).notes = []) (ha : StartsApart (t :: ts))
    (hk : t.kind ≠ .stop) (hf : StartsFree c.dialect t) (o : ℤ) :
    (readText c (equality o :: t :: ts)).value.render c.dialect =
      "= " ++ (readText c (t :: ts)).value.render c.dialect := by
  obtain ⟨after, hafter, hsequence⟩ := sequence_of_readText h
  have hnotes : (readText c (equality o :: t :: ts)).notes = [] :=
    (readText_equality ha o).notes.trans h
  obtain ⟨after', -, hsequence'⟩ := sequence_of_readText hnotes
  have hb : c.isBoundary t = false := by
    by_contra hb
    have hdone : sequence read c (t :: ts) = .done .empty (t :: ts) :=
      sequence_of_isBoundary (by simpa using hb)
    rw [hdone] at hsequence
    have hrest : t :: ts = after := congrArg Reading.rest hsequence
    exact hk (hafter t (by rw [← hrest]; rfl))
  obtain ⟨items, hitems, hitems'⟩ := sequence_items ha hf.1 hb o
  rw [hsequence] at hitems
  rw [hsequence'] at hitems'
  have hrelation : (relation read c (t :: ts)).notes = [] := by
    have hempty := congrArg Reading.notes hsequence
    rw [sequence_starts hb, Reading.notes_bind] at hempty
    exact (List.append_eq_nil_iff.1 hempty).1
  have hfree := relation_free hrelation (ha t rfl).1 hf
  have hformed : (relation read c (t :: ts)).value.Formed c.dialect := by
    have hformed := read_formed (.operand .relation) c (t :: ts) trivial
    rwa [read_operand] at hformed
  have hne := render_ne_empty hformed hfree.level hfree.filled
  simp only [Reading.done] at hitems hitems'
  rw [hitems, hitems']
  exact render_items hne (render_equality hfree hne) items

/-- What comes first in a text and stands for something is no end. -/
theorem kind_of_first (ht : t ∈ Expr.firstToken? d s) (h : spelled d t ≠ "") : t.kind ≠ .stop := by
  have hmem : t ∈ (tokenize d s).filter Token.isSignificant := List.mem_of_mem_head? ht
  rw [Scan.significant_eq, List.mem_append, List.mem_singleton] at hmem
  obtain hmem | rfl := hmem
  · exact Scan.kind_ne_stop hmem
  · exact absurd rfl h

end Texts

end MathMarkup.Grammar
