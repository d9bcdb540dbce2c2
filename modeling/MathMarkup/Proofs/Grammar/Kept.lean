import MathMarkup.Proofs.Expr.Nodes
import MathMarkup.Proofs.Grammar.Unfolding
import MathMarkup.Proofs.Rereading.Parsed

/-! Properties that the rules of the grammar keep. Each rule makes a node of what the tokens and the
vocabulary give it, also where a token does not fit and is left out or noted. A property of such
nodes, whatever their parts are, holds everywhere in what is read. -/
namespace MathMarkup.Grammar

open MathMarkup.Expr (Everywhere)
open Vocabulary (Side)

variable {α β : Type} {q : Token → Prop} {p : Dialect → Expr → Prop} {r : Reader} {c : Context}
  {t : Token} {ts us : List Token}

/-- All tokens have the property. -/
def Every (q : Token → Prop) (ts : List Token) : Prop := ∀ t ∈ ts, q t

/-- Off tokens with the one property the rules make nodes with the other. -/
structure Keeps (q : Token → Prop) (p : Dialect → Expr → Prop) : Prop where
  empty {d} : p d .empty
  text {d t} : q t → p d (literalOf t)
  identifier {d t} : q t → p d (.literal (identifierValue d t.text))
  symbol {d t} : q t → p d (symbolLiteral d t)
  keyword {d t} : q t → p d (keywordLiteral d t)
  concat {d left right} : p d (.binary "concat" left right)
  apply {d value e} : p d (.binary "apply" (.literal value) e)
  binary {d operator left right} :
    operator ∈ Expr.infixOperators → p d (.binary operator left right)
  fraction {d bar left right} : p d (.fraction bar left right)
  root {d e} : p d (.root e)
  script {d side left right} : p d (.script side left right)
  large {d operator lower upper body} : p d (.large operator lower upper body)
  decorated {d e} {decoration : Decoration} :
    decoration ∈ Decoration.all → p d (.decorated decoration.name e)
  latexBlock {ts rows} :
    Every q ts → (∀ row ∈ rows, row ≠ []) → p .latex (.block (joinTexts ts) rows)
  legacyBlock {rows} {block : Block} :
    block ∈ Block.all → (∀ row ∈ rows, row ≠ []) → p .legacy (.block block.name rows)
  bracket {d opening closing e} : opening ∈ ["(", "[", "\x7b"] →
    Vocabulary.closing? opening = some closing ∨ closing = "" →
      p d (.bracket false opening closing e)
  sized {d left right e} : left ∈ "" :: Side.left.delimiters →
    right ∈ "" :: Side.right.delimiters → ¬(left = "" ∧ right = "") →
      p d (.bracket true left right e)

section Readings

/-- The value is of some kind, and the tokens left are of theirs. -/
structure Held (q : Token → Prop) (P : α → Prop) (a : Reading α) : Prop where
  rest : Every q a.rest
  value : P a.value

variable {P : α → Prop} {Q : β → Prop} {a : Reading α}

theorem Every.suffix (h : Every q ts) (hs : us <:+ ts) : Every q us := fun t ht => h t (hs.mem ht)

theorem Every.head (h : Every q (t :: ts)) : q t := h t List.mem_cons_self

theorem Every.tail (h : Every q (t :: ts)) : Every q ts := h.suffix (List.suffix_cons t ts)

theorem Held.done {value : α} (h : Every q ts) (hv : P value) : Held q P (.done value ts) := ⟨h, hv⟩

theorem Held.missed {value : α} (expected : Expectation) (h : Every q ts) (hv : P value) :
    Held q P (miss c expected value ts) := ⟨h, hv⟩

theorem Held.map {f : α → β} (h : Held q P a) (hf : ∀ value, P value → Q (f value)) :
    Held q Q (a.map f) := ⟨h.rest, hf _ h.value⟩

theorem Held.bind {f : α → List Token → Reading β} (h : Held q P a)
    (hf : ∀ value us, Every q us → P value → Held q Q (f value us)) : Held q Q (a.bind f) := by
  have hnext := hf _ _ h.rest h.value
  exact ⟨hnext.rest, hnext.value⟩

/-- What leaves an end of the tokens leaves such tokens. -/
theorem Settled.held {b : Reading α} (h : Settled a b ts) (hts : Every q ts) (hv : P a.value) :
    Held q P a := ⟨hts.suffix h.2, hv⟩

theorem Settled.passed {b : Reading α} (h : Settled a b ts) (hts : Every q ts) :
    Held q (fun _ => True) a := h.held hts trivial

end Readings

section Values

theorem mem_sizedDelimiter (c : Context) (side : Side) (ts : List Token) :
    (sizedDelimiter c side ts).value ∈ "" :: side.delimiters := by
  unfold sizedDelimiter
  split
  · have hbar : "\\|" ∈ "" :: side.delimiters := by cases side <;> decide
    exact hbar
  · split
    · exact List.mem_cons_self
    · split
      · next delimiter hdelimiter =>
        have hmem : delimiter ∈ side.delimiters := by
          simpa using (Option.filter_eq_some_iff.1 hdelimiter).2
        exact List.mem_cons_of_mem _ hmem
      · exact List.mem_cons_self

theorem mem_sizedClosing (c : Context) (ts : List Token) :
    (sizedClosing c ts).value ∈ "" :: Side.right.delimiters := by
  unfold sizedClosing
  split
  · exact List.mem_cons_self
  · split
    · exact mem_sizedDelimiter c .right _
    · exact List.mem_cons_self

theorem mem_openings {opening : String} (h : Vocabulary.isOpening opening = true) :
    opening ∈ ["(", "[", "\x7b"] := by
  by_contra hmem
  simp only [List.mem_cons, List.not_mem_nil, or_false, not_or] at hmem
  simp [Vocabulary.isOpening, Vocabulary.closing?, hmem] at h

theorem mem_infixOperators_of_isSign (h : t.isSign = true) : t.text ∈ Expr.infixOperators := by
  simp only [Token.isSign, Bool.and_eq_true, Vocabulary.isSign, List.contains_iff_mem] at h
  have hall : ∀ x ∈ ["+", "-"], x ∈ Expr.infixOperators := by decide
  exact hall _ h.2

end Values

section Nodes

variable (k : Keeps q p) {d : Dialect} {left right : Expr}
include k

theorem Keeps.everywhere_empty : Everywhere (p d) .empty := Expr.everywhere_literal.2 k.empty

theorem Keeps.everywhere_concat (hl : Everywhere (p d) left) (hr : Everywhere (p d) right) :
    Everywhere (p d) (.binary "concat" left right) :=
  Expr.everywhere_binary.2 ⟨k.concat, hl, hr⟩

theorem Keeps.everywhere_beside (hl : Everywhere (p d) left) (hr : Everywhere (p d) right) :
    Everywhere (p d) (left.beside right) := by
  unfold Expr.beside
  split_ifs
  · exact hr
  · exact hl
  · exact k.everywhere_concat hl hr

theorem Keeps.everywhere_symbol (ht : q t) : Everywhere (p d) (symbolLiteral d t) := by
  have hliteral := k.symbol (d := d) ht
  unfold symbolLiteral at hliteral ⊢
  split_ifs at hliteral ⊢ <;> exact Expr.everywhere_literal.2 hliteral

theorem Keeps.everywhere_keyword (ht : q t) : Everywhere (p d) (keywordLiteral d t) := by
  cases d <;> exact Expr.everywhere_literal.2 (k.keyword (d := _) ht)

theorem Keeps.everywhere_combine {level : Level} {operator : String}
    (ho : operator? level t = some operator) (hl : Everywhere (p d) left)
    (hr : Everywhere (p d) right) : Everywhere (p d) (combine operator left right) := by
  have hoperator := operator_level ho
  unfold combine
  split_ifs with hover hatop
  · exact Expr.everywhere_fraction.2 ⟨k.fraction, hl.unwrap, hr.unwrap⟩
  · exact Expr.everywhere_fraction.2 ⟨k.fraction, hl.unwrap, hr.unwrap⟩
  · exact Expr.everywhere_binary.2 ⟨k.binary (by tauto), hl, hr⟩

end Nodes

section Phrases

/-- A name of blocks, and rows and cells that may go on. -/
structure Begun (p : Expr → Prop) (name : String) (complete : List (List Expr)) (cells : List Expr) :
    Prop where
  name : ∀ rows, (∀ row ∈ rows, row ≠ []) → p (.block name rows)
  complete : ∀ row ∈ complete, row ≠ [] ∧ ∀ cell ∈ row, Everywhere p cell
  cells : ∀ cell ∈ cells, Everywhere p cell

/-- What is read already has the property. -/
def Phrase.Begun (p : Expr → Prop) : Phrase → Prop
  | .chain _ left | .scripts left | .strays left => Everywhere p left
  | .rows name complete cells _ => Grammar.Begun p name complete cells
  | .operand _ | .scriptArgument | .argument => True

/-- Off tokens with the one property the reader reads what has the other. -/
def Upholds (q : Token → Prop) (p : Dialect → Expr → Prop) (r : Reader) : Prop :=
  ∀ phrase c ts, phrase.Begun (p c.dialect) → Every q ts →
    Held q (Everywhere (p c.dialect)) (r phrase c ts)

namespace Begun

variable {p : Expr → Prop} {name : String} {complete : List (List Expr)} {cells : List Expr}

theorem first (h : ∀ rows, (∀ row ∈ rows, row ≠ []) → p (.block name rows)) :
    Begun p name [] [] :=
  ⟨h, by simp, by simp⟩

theorem concat {cell : Expr} (h : Begun p name complete cells) (hc : Everywhere p cell) :
    Begun p name complete (cells ++ [cell]) :=
  ⟨h.name, h.complete, List.forall_mem_append.2 ⟨h.cells, List.forall_mem_singleton.2 hc⟩⟩

/-- A row without cells is left out. -/
theorem closeRow (h : Begun p name complete cells) :
    Begun p name (closeRow complete cells) [] := by
  refine ⟨h.name, ?_, by simp⟩
  unfold Grammar.closeRow
  split_ifs with hempty
  · exact h.complete
  · have hcells : cells ≠ [] := by simpa using hempty
    exact List.forall_mem_append.2
      ⟨h.complete, List.forall_mem_singleton.2 ⟨hcells, h.cells⟩⟩

theorem block (h : Begun p name complete cells) : Everywhere p (.block name complete) :=
  Expr.everywhere_block.2
    ⟨h.name _ fun row hrow => (h.complete row hrow).1, fun row hrow => (h.complete row hrow).2⟩

end Begun

end Phrases

section Keywords

variable (k : Keeps q p) (h : Upholds q p r)
include k h

theorem bracket_held {opening : String} (ho : Vocabulary.isOpening opening = true)
    (hts : Every q ts) : Held q (Everywhere (p c.dialect)) (bracket r c opening ts) := by
  obtain ⟨closing, hclosing⟩ := Option.isSome_iff_exists.1 ho
  unfold bracket
  refine (h (.operand .sequence) c ts trivial hts).bind fun content us hus hcontent => ?_
  refine ((expect_settled _ us).passed hus).map fun found _ => ?_
  refine (Expr.everywhere_bracket.2 ⟨k.bracket (mem_openings ho) ?_, hcontent⟩).flatten
  rw [hclosing]
  split_ifs
  · exact .inl rfl
  · exact .inr rfl

theorem sizedBracket_held (hts : Every q ts) :
    Held q (Everywhere (p c.dialect)) (sizedBracket r c ts) := by
  refine ((sizedDelimiter_settled .left ts).held hts (mem_sizedDelimiter c .left ts)).bind
    fun left us hus hleft => ?_
  refine (h (.operand .sequence) c us trivial hus).bind fun content vs hvs hcontent => ?_
  refine ((sizedClosing_settled vs).held hvs (mem_sizedClosing c vs)).map fun right hright => ?_
  split_ifs with hnone
  · exact hcontent
  · exact Expr.everywhere_bracket.2 ⟨k.sized hleft hright hnone, hcontent⟩

omit k in
theorem bound_held (mark : String) (hts : Every q ts) :
    Held q (fun part => ∀ e, part = some e → Everywhere (p c.dialect) e) (bound r c mark ts) := by
  unfold bound
  split
  · exact .done hts (by simp)
  · split_ifs
    · exact (h .scriptArgument c _ trivial hts.tail).map (by simp)
    · exact .done hts (by simp)

omit k in
theorem bounds_held (hts : Every q ts) :
    Held q (fun parts => (∀ e, parts.1 = some e → Everywhere (p c.dialect) e) ∧
      ∀ e, parts.2 = some e → Everywhere (p c.dialect) e) (bounds r c ts) := by
  unfold bounds
  split
  · exact (bound_held h "^" hts).bind fun upper us hus hupper =>
      (bound_held h "_" hus).map fun lower hlower => ⟨hlower, hupper⟩
  · refine (bound_held h "_" hts).bind fun lower us hus hlower => ?_
    split_ifs
    · exact (bound_held h "^" hus).map fun upper hupper => ⟨hlower, hupper⟩
    · exact .done hus (by simp)

omit k in
theorem body_held (hts : Every q ts) :
    Held q (fun part => ∀ e, part = some e → Everywhere (p c.dialect) e) (body r c ts) := by
  unfold body
  split
  · exact .done hts (by simp)
  · split_ifs
    · refine (h (.operand .factor) c _ trivial hts).map fun e he => ?_
      rintro _ ⟨rfl⟩
      exact he.unwrap
    · exact .done hts (by simp)

theorem large_held (operator : LargeOperator) (hts : Every q ts) :
    Held q (Everywhere (p c.dialect)) (large r c operator ts) :=
  (bounds_held h hts).bind fun _ _ hus hparts =>
    (body_held h hus).map fun _ hbody =>
      Expr.everywhere_large.2 ⟨k.large, hparts.1, hparts.2, hbody⟩

theorem stackedFraction_held (hts : Every q ts) :
    Held q (Everywhere (p c.dialect)) (stackedFraction r c ts) :=
  (h .argument c ts trivial hts).bind fun _ us hus hnumerator =>
    (h .argument c us trivial hus).map fun _ hdenominator =>
      Expr.everywhere_fraction.2 ⟨k.fraction, hnumerator, hdenominator⟩

theorem latexBlock_held (hd : c.dialect = .latex) (ht : q t) (hts : Every q ts) :
    Held q (Everywhere (p c.dialect)) (latexBlock r c t ts) := by
  have hliteral : Everywhere (p c.dialect) (.literal ("\\" ++ t.text)) := by
    rw [hd]
    exact k.everywhere_keyword (d := .latex) ht
  unfold latexBlock
  split
  · next u rest =>
    split_ifs
    · have htaken : Every q (rest.takeWhile inBlockName) :=
        fun t ht => hts.tail t ((List.takeWhile_sublist _).mem ht)
      have hname : ∀ rows, (∀ row ∈ rows, row ≠ []) →
          p c.dialect (.block (blockName c rest).value rows) := by
        rw [hd]
        exact fun rows hrows => k.latexBlock htaken hrows
      exact ((blockName_settled rest).held hts.tail hname).bind fun name us hus hname =>
        h (.rows name [] [] false) c us (Begun.first hname) hus
    · exact .missed _ hts hliteral
  · exact .missed _ hts hliteral

theorem legacyBlock_held (hd : c.dialect = .legacy) {block : Block} (hb : block ∈ Block.all)
    (ht : q t) (hts : Every q ts) :
    Held q (Everywhere (p c.dialect)) (legacyBlock r c t block.name ts) := by
  have hliteral : Everywhere (p c.dialect) (literalOf t) := Expr.everywhere_literal.2 (k.text ht)
  unfold legacyBlock
  split
  · split_ifs
    · refine h _ c _ (Begun.first ?_) hts.tail
      rw [hd]
      exact fun rows hrows => k.legacyBlock hb hrows
    · exact .missed _ hts hliteral
  · exact .missed _ hts hliteral

theorem dialectKeyword_held (ht : q t) (hts : Every q ts) :
    Held q (Everywhere (p c.dialect)) (dialectKeyword r c t ts) := by
  have hunknown : Held q (Everywhere (p c.dialect)) (unknownKeyword c t ts) :=
    ⟨hts, k.everywhere_keyword ht⟩
  unfold dialectKeyword
  split
  · next hd =>
    split
    all_goals first
      | exact stackedFraction_held k h hts
      | exact latexBlock_held k h hd ht hts
      | exact hunknown
  · next hd =>
    split
    · next block hblock => exact legacyBlock_held k h hd (List.mem_of_find?_eq_some hblock) ht hts
    · exact hunknown

theorem keywordForm_held (ht : q t) (hts : Every q ts) :
    Held q (Everywhere (p c.dialect)) (keywordForm r c t ts) := by
  unfold keywordForm
  split
  · exact (h .argument c ts trivial hts).map fun _ he => Expr.everywhere_root.2 ⟨k.root, he⟩
  · exact large_held k h .int hts
  · exact large_held k h .oint hts
  · exact large_held k h .sum hts
  · exact sizedBracket_held k h hts
  · split
    · next hdecoration =>
      exact (h .argument c ts trivial hts).map fun _ he =>
        Expr.everywhere_decorated.2 ⟨k.decorated (mem_of_decoration hdecoration), he⟩
    · exact dialectKeyword_held k h ht hts

end Keywords

section Operands

variable (k : Keeps q p) (h : Upholds q p r)
include k h

theorem identifier_held (ht : q t) (hts : Every q ts) :
    Held q (Everywhere (p c.dialect)) (identifier r c t ts) := by
  have hname : Everywhere (p c.dialect) (.literal (identifierValue c.dialect t.text)) :=
    Expr.everywhere_literal.2 (k.identifier ht)
  have happly (e : Expr) (he : Everywhere (p c.dialect) e) : Everywhere (p c.dialect)
      (.binary "apply" (.literal (identifierValue c.dialect t.text)) e) :=
    Expr.everywhere_binary.2 ⟨k.apply, hname, he⟩
  unfold identifier
  split
  · exact .done hts hname
  · split_ifs with hopening
    · simp only [Token.isOpening, Bool.and_eq_true] at hopening
      exact (bracket_held k h hopening.2 hts.tail).map happly
    · exact (sizedBracket_held k h hts.tail).map happly
    · exact .done hts hname

theorem primary_held (hts : Every q ts) : Held q (Everywhere (p c.dialect)) (primary r c ts) := by
  unfold primary
  split
  · exact .missed _ hts k.everywhere_empty
  · split
    · exact .missed _ hts k.everywhere_empty
    · split
      · exact identifier_held k h hts.head hts.tail
      · exact .done hts.tail (Expr.everywhere_literal.2 (k.text hts.head))
      · exact keywordForm_held k h hts.head hts.tail
      · split_ifs with hopening hscript hsign
        · simp only [Token.isOpening, Bool.and_eq_true] at hopening
          exact bracket_held k h hopening.2 hts.tail
        · exact .done hts k.everywhere_empty
        · exact (h (.operand .factor) c _ trivial hts.tail).map fun _ he =>
            Expr.everywhere_binary.2
              ⟨k.binary (mem_infixOperators_of_isSign hsign), k.everywhere_empty, he⟩
        · exact .done hts.tail (k.everywhere_symbol hts.head)

theorem scripts_held {base : Expr} (hb : Everywhere (p c.dialect) base) (hts : Every q ts) :
    Held q (Everywhere (p c.dialect)) (scripts r c base ts) := by
  have hscript (side : Script) {us : List Token} (hus : Every q us) :
      Held q (Everywhere (p c.dialect)) ((r .scriptArgument c us).bind fun e rest =>
        r (.scripts (.script side base.unwrap e)) c rest) :=
    (h .scriptArgument c us trivial hus).bind fun _ vs hvs he =>
      h _ c vs (Expr.everywhere_script.2 ⟨k.script, hb.unwrap, he⟩) hvs
  unfold scripts
  split
  · exact .done hts hb
  · split_ifs
    · exact hscript .superscript hts.tail
    · exact hscript .subscript hts.tail
    · exact .done hts hb

theorem factor_held (hts : Every q ts) : Held q (Everywhere (p c.dialect)) (factor r c ts) :=
  (primary_held k h hts).bind fun _ _ hus he => scripts_held k h he hus

theorem chain_held {level : Level} {left : Expr} (hl : Everywhere (p c.dialect) left)
    (hts : Every q ts) : Held q (Everywhere (p c.dialect)) (chain r c level left ts) := by
  unfold chain
  split
  · exact .done hts hl
  · split
    · exact .done hts hl
    · next hoperator =>
      exact (h (.operand level.next) c _ trivial hts.tail).bind fun _ vs hvs hr =>
        h (.chain level _) c vs (k.everywhere_combine hoperator hl hr) hvs

theorem product_held (hts : Every q ts) : Held q (Everywhere (p c.dialect)) (product r c ts) :=
  (factor_held k h hts).bind fun _ _ hus he => chain_held k h he hus

theorem sum_held (hts : Every q ts) : Held q (Everywhere (p c.dialect)) (sum r c ts) :=
  (product_held k h hts).bind fun _ _ hus he => chain_held k h he hus

theorem relation_held (hts : Every q ts) : Held q (Everywhere (p c.dialect)) (relation r c ts) :=
  (sum_held k h hts).bind fun _ _ hus he => chain_held k h he hus

omit k in
theorem onward_held {a : Reading Expr} (ha : Held q (Everywhere (p c.dialect)) a) :
    Held q (Everywhere (p c.dialect)) (onward r c ts a) := by
  unfold onward
  split_ifs
  · exact ha.bind fun _ us hus he => h (.chain .sequence _) c us he hus
  · exact ha

theorem sequence_held (hts : Every q ts) : Held q (Everywhere (p c.dialect)) (sequence r c ts) := by
  unfold sequence
  split_ifs
  · exact .done hts k.everywhere_empty
  · exact onward_held h (relation_held k h hts)

theorem juxtaposed_held {left : Expr} (hl : Everywhere (p c.dialect) left) (hts : Every q ts) :
    Held q (Everywhere (p c.dialect)) (juxtaposed r c left ts) := by
  unfold juxtaposed
  split_ifs
  · exact .done hts hl
  · exact onward_held h ((relation_held k h hts).map fun _ hr => k.everywhere_concat hl hr)

theorem operand_held (level : Level) (hts : Every q ts) :
    Held q (Everywhere (p c.dialect)) (operand r c level ts) := by
  cases level with
  | sequence => exact sequence_held k h hts
  | relation => exact relation_held k h hts
  | sum => exact sum_held k h hts
  | product => exact product_held k h hts
  | factor => exact factor_held k h hts

theorem latexArgument_held (hts : Every q ts) :
    Held q (Everywhere (p c.dialect)) (latexArgument r c ts) := by
  unfold latexArgument
  split
  · exact .missed _ hts k.everywhere_empty
  · split_ifs
    · exact (h (.operand .sequence) c _ trivial hts.tail).bind fun _ us hus he =>
        ((expect_settled _ us).passed hus).map fun _ _ => he.unwrap
    · exact .missed _ hts k.everywhere_empty
    · exact keywordForm_held k h hts.head hts.tail
    · exact .done hts.tail (Expr.everywhere_literal.2 (k.text hts.head))

theorem legacyScriptArgument_held (hd : c.dialect = .legacy) (hts : Every q ts) :
    Held q (Everywhere (p c.dialect)) (legacyScriptArgument r c ts) := by
  unfold legacyScriptArgument
  split
  · exact .missed _ hts k.everywhere_empty
  · split
    · next hbrace =>
      simp only [Token.isSymbol, Bool.and_eq_true, decide_eq_true_eq] at hbrace
      exact (bracket_held k h (by rw [hbrace.2]; decide) hts.tail).map fun _ he => he.unwrap
    · split
      · exact .missed _ hts k.everywhere_empty
      · split
        · exact .done hts.tail (Expr.everywhere_literal.2 (hd ▸ k.identifier hts.head))
        · exact .done hts.tail (Expr.everywhere_literal.2 (k.text hts.head))
        · exact keywordForm_held k h hts.head hts.tail
        · split_ifs with hopening
          · simp only [Token.isOpening, Bool.and_eq_true] at hopening
            exact bracket_held k h hopening.2 hts.tail
          · exact .done hts k.everywhere_empty
          · exact .done hts.tail (hd ▸ k.everywhere_symbol hts.head)

theorem scriptArgument_held (hts : Every q ts) :
    Held q (Everywhere (p c.dialect)) (scriptArgument r c ts) := by
  unfold scriptArgument
  split
  · exact latexArgument_held k h hts
  · next hd => exact legacyScriptArgument_held k h hd hts

theorem argument_held (hts : Every q ts) : Held q (Everywhere (p c.dialect)) (argument r c ts) := by
  unfold argument
  split
  · exact latexArgument_held k h hts
  · exact (factor_held k h hts).map fun _ he => he.unwrap

theorem rows_held {name : String} {complete : List (List Expr)} {cells : List Expr}
    (hb : Begun (p c.dialect) name complete cells) (filled : Bool) (hts : Every q ts) :
    Held q (Everywhere (p c.dialect)) (rows r c name complete cells filled ts) := by
  have hended : Held q (Everywhere (p c.dialect))
      ((blockEnd c name ts).map fun _ => Expr.block name (closeRow complete cells)) :=
    ((blockEnd_settled name ts).passed hts).map fun _ _ => hb.closeRow.block
  unfold rows
  split
  · exact hended
  · next t rest =>
    have hstray := (skipStray_settled (c := c) t rest).passed hts.tail
    split
    · exact hended
    · split
      · exact h _ c _ hb.closeRow hts.tail
      · split
        · refine h _ c _ ?_ hts.tail
          show Begun _ _ _ _
          split_ifs
          · exact hb
          · exact hb.concat k.everywhere_empty
        · split
          · exact hstray.bind fun _ us hus _ => h (.rows ..) c us hb hus
          · dsimp only
            have hcell := sequence_held (c := c.withinRows) k h hts
            split
            · exact hcell.bind fun _ us hus he => h (.rows ..) c us (hb.concat he) hus
            · refine Held.bind (P := fun _ => True) ?_ fun _ us hus _ => h (.rows ..) c us hb hus
              exact hcell.bind fun _ _ _ _ => hstray

theorem strays_held {left : Expr} (hl : Everywhere (p c.dialect) left) (hts : Every q ts) :
    Held q (Everywhere (p c.dialect)) (strays r c left ts) := by
  unfold strays
  split
  · exact .done hts hl
  · next t rest =>
    split
    · exact .done hts hl
    · exact ((skipStray_settled t rest).passed hts.tail).bind fun _ us hus _ =>
        (h (.operand .sequence) c us trivial hus).bind fun _ vs hvs hr =>
          h (.strays _) c vs (k.everywhere_beside hl hr) hvs

/-- One token more keeps the property. -/
theorem Keeps.step : Upholds q p (step r) := by
  intro phrase c ts hp hts
  cases phrase with
  | operand level => exact operand_held k h level hts
  | chain level left =>
    cases level with
    | sequence => exact juxtaposed_held k h hp hts
    | _ =>
      simp only [Grammar.step]
      exact chain_held k h hp hts
  | scripts base => exact scripts_held k h hp hts
  | scriptArgument => exact scriptArgument_held k h hts
  | argument => exact argument_held k h hts
  | rows name complete cells filled => exact rows_held k h hp filled hts
  | strays left => exact strays_held k h hp hts

end Operands

section Texts

variable (k : Keeps q p)
include k

theorem Keeps.upTo (n : ℕ) : Upholds q p (upTo n) := by
  induction n with
  | zero => exact fun _ _ _ _ hts => .done hts k.everywhere_empty
  | succ n ih => exact k.step ih

theorem Keeps.read : Upholds q p read := fun phrase c ts => k.upTo (ts.length + 1) phrase c ts

/-- It holds everywhere in what a list of such tokens is read as. -/
theorem Keeps.parse {tokens : List Token} (d : Dialect) (h : Every q tokens) :
    Everywhere (p d) (parse d tokens).expr := by
  have hts : Every q (tokens.filter Token.isSignificant) :=
    fun t ht => h t (List.mem_of_mem_filter ht)
  have hread (c : Context) :
      Held q (Everywhere (p c.dialect)) (readText c (tokens.filter Token.isSignificant)) :=
    (k.read (.operand .sequence) c _ trivial hts).bind fun e us hus he =>
      k.read (.strays e) c us he hus
  exact (hread _).value

end Texts

end MathMarkup.Grammar
