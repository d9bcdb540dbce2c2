import MathMarkup.Proofs.Grammar.Layout
import MathMarkup.Proofs.Grammar.Stop
import MathMarkup.Proofs.Rereading.Parsed
import MathMarkup.Proofs.Token.Significant

/-! How legacy text nests. What is read without a note takes each token that opens something together
with the one that closes it; any other way to take one of them leaves a note. -/
namespace MathMarkup

open Vocabulary (Side)

/-- What opens, and what closes it. -/
inductive Edge where
  | opens (closer : String)
  | closes (closer : String)
  deriving DecidableEq, Repr

/-- Whatever opens is closed by its own closer, and by no other's. -/
inductive Nested : List Edge → Prop where
  | nil : Nested []
  | append {a b : List Edge} : Nested a → Nested b → Nested (a ++ b)
  | around (closer : String) {a : List Edge} :
      Nested a → Nested (.opens closer :: a ++ [.closes closer])

namespace Nested

/-- Whether all is closed in the end, the closers of `open` before all others. -/
def closesAll : List String → List Edge → Bool
  | pending, [] => pending.isEmpty
  | pending, .opens closer :: edges => closesAll (closer :: pending) edges
  | [], .closes _ :: _ => false
  | closer :: pending, .closes other :: edges => closer = other && closesAll pending edges

/-- Nested edges, the first closer, nested edges again, and so on for all closers. -/
def Closes : List String → List Edge → Prop
  | [], edges => Nested edges
  | closer :: pending, edges =>
    ∃ a b, edges = a ++ .closes closer :: b ∧ Nested a ∧ Closes pending b

variable {a b edges : List Edge} {pending : List String}

theorem Closes.prepend (ha : Nested a) (hb : Closes pending b) : Closes pending (a ++ b) := by
  cases pending with
  | nil => exact ha.append hb
  | cons closer pending =>
    obtain ⟨x, y, rfl, hx, hy⟩ := hb
    exact ⟨a ++ x, y, by rw [List.append_assoc], ha.append hx, hy⟩

theorem closes_of_closesAll (h : closesAll pending edges = true) : Closes pending edges := by
  induction edges generalizing pending with
  | nil =>
    obtain rfl := List.isEmpty_iff.1 h
    exact .nil
  | cons edge edges ih =>
    cases edge with
    | opens closer =>
      have hclosers : closesAll (closer :: pending) edges = true := h
      obtain ⟨a, b, rfl, ha, hb⟩ := ih hclosers
      have hb' := Closes.prepend (ha.around closer) hb
      rwa [List.append_assoc] at hb'
    | closes other =>
      cases pending with
      | nil => cases h
      | cons closer pending =>
        rw [closesAll, Bool.and_eq_true, decide_eq_true_eq] at h
        obtain ⟨rfl, h⟩ := h
        exact ⟨[], edges, rfl, .nil, ih h⟩

theorem closesAll_append (h : Nested a) (pending : List String) (b : List Edge) :
    closesAll pending (a ++ b) = closesAll pending b := by
  induction h generalizing pending b with
  | nil => rfl
  | append _ _ iha ihb => rw [List.append_assoc, iha, ihb]
  | around closer _ ih =>
    rw [List.append_assoc, List.cons_append, closesAll, ih]
    simp [closesAll]

theorem closesAll_iff : closesAll [] edges = true ↔ Nested edges := by
  refine ⟨closes_of_closesAll, fun h => ?_⟩
  rw [← List.append_nil edges, closesAll_append h]
  rfl

instance : DecidablePred Nested := fun _ => decidable_of_iff _ closesAll_iff

example : ¬Nested [.opens ")", .opens "]", .closes ")", .closes "]"] := by decide

end Nested

namespace Token

/-- The side of the keyword of a pair of delimiters. -/
def side? (t : Token) : Option Side :=
  if t.word? = some "left" then some .left
  else if t.word? = some "right" then some .right
  else none

/-- The edge that a bracket is. -/
def edge? (t : Token) : Option Edge :=
  if t.isOpening then (Vocabulary.closing? t.text).map .opens
  else if t.isClosing then some (.closes t.text)
  else none

/-- Whether the token is a delimiter of the side. -/
def isDelimiter (side : Side) (t : Token) : Bool :=
  t.kind = .symbol && side.delimiters.contains t.text

end Token

/-- The edge that the keyword of a side is. -/
def sideEdge : Side → Edge
  | .left => .opens "right"
  | .right => .closes "right"

/-- The edges of a list of tokens. The delimiter right after the keyword of a side is none of them;
there are none at all if there is no such delimiter. -/
def edges? : List Token → Option (List Edge)
  | [] => some []
  | t :: ts =>
    match t.side? with
    | none => (edges? ts).map (t.edge?.toList ++ ·)
    | some side =>
      match ts with
      | [] => none
      | u :: us => if u.isDelimiter side then (edges? us).map (sideEdge side :: ·) else none

namespace Grammar

variable {α β : Type} {c : Context} {r : Reader} {t u : Token} {ts us vs : List Token}
  {side : Side} {closer : String} {es es' last : List Edge}

section Edges

theorem side?_of_kind (h : t.kind ≠ .keyword) : t.side? = none := by
  simp [Token.side?, Token.word?, h]

theorem edge?_of_kind (h : t.kind ≠ .symbol) : t.edge? = none := by
  simp [Token.edge?, Token.isOpening, Token.isClosing, h]

/-- The edges in front of `us` are those given. -/
def Spans (es : List Edge) (ts us : List Token) : Prop := edges? ts = (edges? us).map (es ++ ·)

theorem Spans.refl (ts : List Token) : Spans [] ts ts := by
  simp [Spans]

theorem Spans.trans (h : Spans es ts us) (h' : Spans es' us vs) : Spans (es ++ es') ts vs := by
  rw [Spans, h, h', Option.map_map]
  congr 1
  funext edges
  exact (List.append_assoc es es' edges).symm

theorem spans_plain (hs : t.side? = none) (he : t.edge? = none) (ts : List Token) :
    Spans [] (t :: ts) ts := by
  rw [Spans, edges?, hs, he]
  rfl

/-- A symbol that is no bracket. -/
theorem spans_symbol {text : String} (h : t.isSymbol text = true)
    (ho : Vocabulary.isOpening text = false) (hc : Vocabulary.isClosing text = false)
    (ts : List Token) : Spans [] (t :: ts) ts := by
  simp only [Token.isSymbol, Bool.and_eq_true, decide_eq_true_eq] at h
  obtain ⟨hkind, rfl⟩ := h
  refine spans_plain (side?_of_kind (by simp [hkind])) ?_ ts
  simp [Token.edge?, Token.isOpening, Token.isClosing, hkind, ho, hc]

/-- A token that is neither a keyword nor a symbol. -/
theorem spans_other (hk : t.kind ≠ .keyword) (hs : t.kind ≠ .symbol) (ts : List Token) :
    Spans [] (t :: ts) ts :=
  spans_plain (side?_of_kind hk) (edge?_of_kind hs) ts

/-- A keyword of no side. -/
theorem spans_keyword (hk : t.kind = .keyword) (hl : t.word? ≠ some "left")
    (hr : t.word? ≠ some "right") (ts : List Token) : Spans [] (t :: ts) ts :=
  spans_plain (by simp [Token.side?, hl, hr]) (edge?_of_kind (by simp [hk])) ts

theorem spans_opening {closing : String} (h : t.isOpening = true)
    (hc : Vocabulary.closing? t.text = some closing) (ts : List Token) :
    Spans [.opens closing] (t :: ts) ts := by
  have hkind : t.kind = .symbol := by
    simp only [Token.isOpening, Bool.and_eq_true, decide_eq_true_eq] at h
    exact h.1
  rw [Spans, edges?, side?_of_kind (by simp [hkind])]
  simp [Token.edge?, h, hc]

theorem opening_of_brace (h : t.isSymbol "\x7b" = true) :
    t.isOpening = true ∧ Vocabulary.closing? t.text = some "\x7d" := by
  simp only [Token.isSymbol, Bool.and_eq_true, decide_eq_true_eq] at h
  simp [Token.isOpening, h, Vocabulary.isOpening, Vocabulary.closing?]

theorem spans_closing {closing : String} (h : t.isSymbol closing = true)
    (hc : Vocabulary.isClosing closing = true) (ts : List Token) :
    Spans [.closes closing] (t :: ts) ts := by
  simp only [Token.isSymbol, Bool.and_eq_true, decide_eq_true_eq] at h
  obtain ⟨hkind, rfl⟩ := h
  have hopening : Vocabulary.isOpening t.text = false := by
    simp only [Vocabulary.isClosing, List.contains_iff_mem, List.mem_cons, List.not_mem_nil,
      or_false] at hc
    obtain h | h | h := hc <;> rw [h] <;> decide
  rw [Spans, edges?, side?_of_kind (by simp [hkind])]
  simp [Token.edge?, Token.isOpening, Token.isClosing, hkind, hopening, hc]

theorem spans_side (hs : t.side? = some side) (hu : u.isDelimiter side = true) (ts : List Token) :
    Spans [sideEdge side] (t :: u :: ts) ts := by
  simp [Spans, edges?, hs, hu]

end Edges

section Readings

/-- If the reading of `ts` makes no note, what it takes is nested, with the `last` edges after it. -/
def Balances (last : List Edge) (ts : List Token) (r : Reading α) : Prop :=
  r.notes = [] → ∃ es, Nested es ∧ Spans (es ++ last) ts r.rest

namespace Balances

variable {a : Reading α} {f : α → List Token → Reading β}

theorem noted (h : a.notes ≠ []) : Balances last ts a := fun hnotes => absurd hnotes h

theorem missed (e : Expectation) (x : α) (us : List Token) : Balances last ts (miss c e x us) :=
  noted (by simp [miss])

theorem still (x : α) (ts : List Token) : Balances [] ts (.done x ts) :=
  fun _ => ⟨[], .nil, .refl ts⟩

theorem map (h : Balances last ts a) (f : α → β) : Balances last ts (a.map f) := h

theorem before (hs : Spans [] ts us) (h : Balances last us a) : Balances last ts a := by
  intro hnotes
  obtain ⟨es, hes, hrest⟩ := h hnotes
  exact ⟨es, hes, hs.trans hrest⟩

theorem bind (h : Balances [] ts a) (hf : Balances last a.rest (f a.value a.rest)) :
    Balances last ts (a.bind f) := by
  intro hnotes
  rw [Reading.notes_bind, List.append_eq_nil_iff] at hnotes
  obtain ⟨es, hes, hfirst⟩ := h hnotes.1
  obtain ⟨es', hes', hrest⟩ := hf hnotes.2
  have hspans := hfirst.trans hrest
  rw [List.append_nil, ← List.append_assoc] at hspans
  exact ⟨es ++ es', hes.append hes', hspans⟩

/-- What opens is taken before, and its closer last. -/
theorem enclosed (ho : Spans [.opens closer] ts us) (h : Balances [.closes closer] us a) :
    Balances [] ts a := by
  intro hnotes
  obtain ⟨es, hes, hrest⟩ := h hnotes
  refine ⟨_, hes.around closer, ?_⟩
  rw [List.append_nil]
  exact ho.trans hrest

/-- What opens is taken by the first of two readings. -/
theorem around (ho : a.notes = [] → Spans [.opens closer] ts a.rest)
    (hf : Balances [.closes closer] a.rest (f a.value a.rest)) : Balances [] ts (a.bind f) := by
  intro hnotes
  rw [Reading.notes_bind, List.append_eq_nil_iff] at hnotes
  rw [Reading.rest_bind]
  exact enclosed (ho hnotes.1) hf hnotes.2

end Balances

/-- The rows of a block end with its closing brace, which opened before them. -/
def Phrase.lastEdges : Phrase → List Edge
  | .rows .. => [.closes "\x7d"]
  | _ => []

/-- What the reader reads of legacy tokens is nested, unless it makes a note. -/
def Balanced (r : Reader) : Prop :=
  ∀ phrase c ts, c.dialect = .legacy → Balances phrase.lastEdges ts (r phrase c ts)

end Readings

section Leaves

theorem expect_balances {text : String} (hc : Vocabulary.isClosing text = true) (ts : List Token) :
    Balances [.closes text] ts (expect c text ts) := by
  cases ts with
  | nil => exact .missed _ _ _
  | cons t ts =>
    simp only [expect]
    split
    · next h => exact fun _ => ⟨[], .nil, spans_closing h hc ts⟩
    · exact .missed _ _ _

theorem isDelimiter_of_delimiter? {delimiter : String}
    (h : (delimiter? .legacy t).filter side.delimiters.contains = some delimiter) :
    t.isDelimiter side = true := by
  obtain ⟨htext, hmem⟩ := Option.filter_eq_some_iff.1 h
  have hkind : t.kind = .symbol := by
    by_contra hk
    simp [delimiter?, hk] at htext
  simp only [delimiter?, hkind, ne_eq, not_true_eq_false, reduceCtorEq, false_and, if_false,
    Option.some.injEq] at htext
  subst htext
  simp only [Token.isDelimiter, hkind, decide_true, Bool.true_and]
  exact hmem

theorem spans_sizedDelimiter (hd : c.dialect = .legacy) (hs : t.side? = some side)
    (h : (sizedDelimiter c side ts).notes = []) :
    Spans [sideEdge side] (t :: ts) (sizedDelimiter c side ts).rest := by
  unfold sizedDelimiter at h ⊢
  split
  · next hbar =>
    -- The first of two bars is the delimiter; the second is no edge.
    match ts with
    | [] | [u] => simp [isDoubleBar] at hbar
    | u :: v :: ts =>
      simp only [isDoubleBar, Bool.and_eq_true] at hbar
      obtain ⟨⟨⟨-, hu⟩, hv⟩, -⟩ := hbar
      have hdelimiter : u.isDelimiter side = true := by
        simp only [Token.isSymbol, Bool.and_eq_true, decide_eq_true_eq] at hu
        cases side <;> simp [Token.isDelimiter, hu, Side.delimiters]
      exact (spans_side hs hdelimiter _).trans (spans_symbol hv (by decide) (by decide) ts)
  · next hbar =>
    rw [if_neg hbar] at h
    cases ts with
    | nil => simp [miss] at h
    | cons u ts =>
      dsimp only at h ⊢
      split at h
      · next delimiter hdelimiter =>
        rw [hd] at hdelimiter
        exact spans_side hs (isDelimiter_of_delimiter? hdelimiter) ts
      · simp [miss] at h

theorem sizedClosing_balances (hd : c.dialect = .legacy) (ts : List Token) :
    Balances [.closes "right"] ts (sizedClosing c ts) := by
  cases ts with
  | nil => exact .missed _ _ _
  | cons t ts =>
    simp only [sizedClosing]
    split
    · next h =>
      have hside : t.side? = some .right := by simp [Token.side?, h]
      exact fun hnotes => ⟨[], .nil, spans_sizedDelimiter hd hside hnotes⟩
    · exact .missed _ _ _

theorem blockEnd_balances (hd : c.dialect = .legacy) (name : String) (ts : List Token) :
    Balances [.closes "\x7d"] ts (blockEnd c name ts) := by
  simp only [blockEnd, hd]
  exact (expect_balances (by decide) ts).map _

end Leaves

section Keywords

variable (h : Balanced r) (hd : c.dialect = .legacy)
include h hd

theorem bracket_balances (ht : t.isOpening = true) (ts : List Token) :
    Balances [] (t :: ts) (bracket r c t.text ts) := by
  have hopening : Vocabulary.isOpening t.text = true := by
    simp only [Token.isOpening, Bool.and_eq_true] at ht
    exact ht.2
  obtain ⟨closing, hc⟩ := Option.isSome_iff_exists.1 hopening
  have hclosing : Vocabulary.isClosing closing = true := (isMark_of_closing hc).2.2
  simp only [bracket, hc, Option.getD_some]
  refine Balances.enclosed (spans_opening ht hc ts) ?_
  exact Balances.bind (h (.operand .sequence) c ts hd) ((expect_balances hclosing _).map _)

theorem sizedBracket_balances (ht : t.word? = some "left") (ts : List Token) :
    Balances [] (t :: ts) (sizedBracket r c ts) := by
  have hside : t.side? = some .left := by simp [Token.side?, ht]
  refine Balances.around (fun hnotes => spans_sizedDelimiter hd hside hnotes) ?_
  exact Balances.bind (h (.operand .sequence) c _ hd) ((sizedClosing_balances hd _).map _)

theorem bound_balances (mark : String) (ho : Vocabulary.isOpening mark = false)
    (hc : Vocabulary.isClosing mark = false) (ts : List Token) :
    Balances [] ts (bound r c mark ts) := by
  cases ts with
  | nil => exact .still _ _
  | cons t ts =>
    simp only [bound]
    split
    · next ht => exact .before (spans_symbol ht ho hc ts) ((h .scriptArgument c ts hd).map _)
    · exact .still _ _

theorem bounds_balances (ts : List Token) : Balances [] ts (bounds r c ts) := by
  have hlower := bound_balances h hd "_" (by decide) (by decide)
  have hupper := bound_balances h hd "^" (by decide) (by decide)
  unfold bounds
  split
  · exact .bind (hupper ts) ((hlower _).map _)
  · refine .bind (hlower ts) ?_
    split
    · exact (hupper _).map _
    · exact .still _ _

theorem body_balances (ts : List Token) : Balances [] ts (body r c ts) := by
  cases ts with
  | nil => exact .still _ _
  | cons t ts =>
    simp only [body]
    split
    · exact (h (.operand .factor) c (t :: ts) hd).map _
    · exact .still _ _

theorem large_balances (operator : LargeOperator) (ts : List Token) :
    Balances [] ts (large r c operator ts) :=
  .bind (bounds_balances h hd ts) ((body_balances h hd _).map _)

theorem legacyBlock_balances (name : String) (ts : List Token) :
    Balances [] ts (legacyBlock r c t name ts) := by
  cases ts with
  | nil => exact .missed _ _ _
  | cons u ts =>
    simp only [legacyBlock]
    split
    · next hu =>
      obtain ⟨hopening, hclosing⟩ := opening_of_brace hu
      exact .enclosed (spans_opening hopening hclosing ts) (h (.rows name [] [] false) c ts hd)
    · exact .missed _ _ _

theorem dialectKeyword_balances (t : Token) (ts : List Token) :
    Balances [] ts (dialectKeyword r c t ts) := by
  simp only [dialectKeyword, hd]
  split
  · exact legacyBlock_balances h hd _ ts
  · exact .noted (by simp [unknownKeyword])

theorem keywordForm_balances (hk : t.kind = .keyword) (hr : t.word? ≠ some "right")
    (ts : List Token) : Balances [] (t :: ts) (keywordForm r c t ts) := by
  have hplain (hl : t.word? ≠ some "left") := spans_keyword hk hl hr ts
  unfold keywordForm
  split
  · next hw => exact .before (hplain (by simp [hw])) ((h .argument c ts hd).map _)
  · next hw => exact .before (hplain (by simp [hw])) (large_balances h hd _ ts)
  · next hw => exact .before (hplain (by simp [hw])) (large_balances h hd _ ts)
  · next hw => exact .before (hplain (by simp [hw])) (large_balances h hd _ ts)
  · next hw => exact sizedBracket_balances h hd hw ts
  · next hl =>
    refine .before (hplain hl) ?_
    split
    · exact (h .argument c ts hd).map _
    · exact dialectKeyword_balances h hd t ts

end Keywords

section Operands

theorem boundary_facts (hb : c.isBoundary t = false) :
    t.isClosing = false ∧ t.word? ≠ some "right" := by
  simp only [Context.isBoundary, Bool.or_eq_false_iff, decide_eq_false_iff_not] at hb
  exact ⟨hb.1.1.1.2, hb.1.1.2⟩

/-- A symbol that stands inside of a sequence is a bracket only if it opens one. -/
theorem spans_inside (hb : c.isBoundary t = false) (hk : t.kind ≠ .keyword)
    (ho : t.isOpening = false) (ts : List Token) : Spans [] (t :: ts) ts := by
  refine spans_plain (side?_of_kind hk) ?_ ts
  simp [Token.edge?, ho, (boundary_facts hb).1]

theorem spans_operator {level : Level} {operator : String}
    (h : operator? level t = some operator) (ts : List Token) : Spans [] (t :: ts) ts := by
  obtain ⟨hmark, hmem⟩ | ⟨hword, hmem⟩ := operator_inv h
  · have hall : ∀ x ∈ operatorMarks level,
        Vocabulary.isOpening x = false ∧ Vocabulary.isClosing x = false := by cases level <;> decide
    exact spans_symbol hmark (hall _ hmem).1 (hall _ hmem).2 ts
  · have hall : ∀ x ∈ operatorWords level, x ≠ "left" ∧ x ≠ "right" := by cases level <;> decide
    exact spans_keyword (kind_of_word hword) (by simp [hword, (hall _ hmem).1])
      (by simp [hword, (hall _ hmem).2]) ts

/-- What ends a row is no bracket. -/
theorem spans_endsRow {d : Dialect} (h : endsRow d t = true) (ts : List Token) :
    Spans [] (t :: ts) ts := by
  simp only [endsRow, Bool.or_eq_true, Bool.and_eq_true] at h
  obtain h | h := h
  · exact spans_symbol h (by decide) (by decide) ts
  · exact spans_symbol h.2 (by decide) (by decide) ts

theorem strays_balances (left : Expr) (ts : List Token) : Balances [] ts (strays r c left ts) := by
  cases ts with
  | nil => exact .still _ _
  | cons t ts =>
    simp only [strays]
    split
    · exact .still _ _
    · exact .noted (by simp [notes_skipStray])

variable (h : Balanced r) (hd : c.dialect = .legacy)
include h hd

theorem identifier_balances (t : Token) (ts : List Token) :
    Balances [] ts (identifier r c t ts) := by
  cases ts with
  | nil => exact .still _ _
  | cons u ts =>
    simp only [identifier]
    split
    · next hu => exact (bracket_balances h hd hu ts).map _
    · split
      · next hu => exact (sizedBracket_balances h hd hu ts).map _
      · exact .still _ _

theorem primary_balances (ts : List Token) : Balances [] ts (primary r c ts) := by
  cases ts with
  | nil => exact .missed _ _ _
  | cons t ts =>
    simp only [primary]
    split
    · exact .missed _ _ _
    · next hstart =>
      simp only [Bool.or_eq_true, not_or, Bool.not_eq_true] at hstart
      have hb := hstart.1
      split
      · next hk =>
        exact .before (spans_other (by simp [hk]) (by simp [hk]) ts) (identifier_balances h hd t ts)
      · next hk => exact .before (spans_other (by simp [hk]) (by simp [hk]) ts) (.still _ _)
      · next hk => exact keywordForm_balances h hd hk (boundary_facts hb).2 ts
      · next hk =>
        split
        · next ho => exact bracket_balances h hd ho ts
        · next ho =>
          have hplain := spans_inside hb hk (by simpa using ho) ts
          split
          · exact .still _ _
          · split
            · exact .before hplain ((h (.operand .factor) c ts hd).map _)
            · exact .before hplain (.still _ _)

theorem scripts_balances (base : Expr) (ts : List Token) :
    Balances [] ts (scripts r c base ts) := by
  cases ts with
  | nil => exact .still _ _
  | cons t ts =>
    simp only [scripts]
    split
    · next ht =>
      exact .before (spans_symbol ht (by decide) (by decide) ts)
        (.bind (h .scriptArgument c ts hd) (h (.scripts _) c _ hd))
    · split
      · next ht =>
        exact .before (spans_symbol ht (by decide) (by decide) ts)
          (.bind (h .scriptArgument c ts hd) (h (.scripts _) c _ hd))
      · exact .still _ _

theorem factor_balances (ts : List Token) : Balances [] ts (factor r c ts) :=
  .bind (primary_balances h hd ts) (scripts_balances h hd _ _)

theorem chain_balances (level : Level) (left : Expr) (ts : List Token) :
    Balances [] ts (chain r c level left ts) := by
  cases ts with
  | nil => exact .still _ _
  | cons t ts =>
    simp only [chain]
    split
    · exact .still _ _
    · next ho =>
      exact .before (spans_operator ho ts) (.bind (h (.operand _) c ts hd) (h (.chain _ _) c _ hd))

theorem product_balances (ts : List Token) : Balances [] ts (product r c ts) :=
  .bind (factor_balances h hd ts) (chain_balances h hd _ _ _)

theorem sum_balances (ts : List Token) : Balances [] ts (sum r c ts) :=
  .bind (product_balances h hd ts) (chain_balances h hd _ _ _)

theorem relation_balances (ts : List Token) : Balances [] ts (relation r c ts) :=
  .bind (sum_balances h hd ts) (chain_balances h hd _ _ _)

theorem onward_balances {a : Reading Expr} (ha : Balances [] ts a) :
    Balances [] ts (onward r c us a) := by
  unfold onward
  split
  · exact .bind ha (h (.chain _ _) c _ hd)
  · exact ha

theorem sequence_balances (ts : List Token) : Balances [] ts (sequence r c ts) := by
  unfold sequence
  split
  · exact .still _ _
  · exact onward_balances h hd (relation_balances h hd ts)

theorem juxtaposed_balances (left : Expr) (ts : List Token) :
    Balances [] ts (juxtaposed r c left ts) := by
  unfold juxtaposed
  split
  · exact .still _ _
  · exact onward_balances h hd ((relation_balances h hd ts).map _)

theorem operand_balances (level : Level) (ts : List Token) :
    Balances [] ts (operand r c level ts) := by
  cases level with
  | sequence => exact sequence_balances h hd ts
  | relation => exact relation_balances h hd ts
  | sum => exact sum_balances h hd ts
  | product => exact product_balances h hd ts
  | factor => exact factor_balances h hd ts

theorem legacyScriptArgument_balances (ts : List Token) :
    Balances [] ts (legacyScriptArgument r c ts) := by
  cases ts with
  | nil => exact .missed _ _ _
  | cons t ts =>
    simp only [legacyScriptArgument]
    split
    · next ht =>
      exact (bracket_balances h hd (opening_of_brace ht).1 ts).map _
    · split
      · exact .missed _ _ _
      · next hstart =>
        have hb : c.isBoundary t = false := by
          simp only [startsOperand, Bool.not_not, Bool.or_eq_true, not_or, Bool.not_eq_true] at hstart
          exact hstart.1.1
        split
        · next hk => exact .before (spans_other (by simp [hk]) (by simp [hk]) ts) (.still _ _)
        · next hk => exact .before (spans_other (by simp [hk]) (by simp [hk]) ts) (.still _ _)
        · next hk => exact keywordForm_balances h hd hk (boundary_facts hb).2 ts
        · next hk =>
          split
          · next ho => exact bracket_balances h hd ho ts
          · next ho =>
            split
            · exact .still _ _
            · exact .before (spans_inside hb hk (by simpa using ho) ts) (.still _ _)

theorem scriptArgument_balances (ts : List Token) : Balances [] ts (scriptArgument r c ts) := by
  simp only [scriptArgument, hd]
  exact legacyScriptArgument_balances h hd ts

theorem argument_balances (ts : List Token) : Balances [] ts (argument r c ts) := by
  simp only [argument, hd]
  exact (factor_balances h hd ts).map _

theorem rows_balances (name : String) (complete : List (List Expr)) (cells : List Expr)
    (filled : Bool) (ts : List Token) :
    Balances [.closes "\x7d"] ts (rows r c name complete cells filled ts) := by
  cases ts with
  | nil => exact (blockEnd_balances hd name []).map _
  | cons t ts =>
    have hagain (complete : List (List Expr)) (cells : List Expr) (filled : Bool)
        (us : List Token) := h (.rows name complete cells filled) c us hd
    simp only [rows]
    split_ifs with hend hrow hcell hfilled hb hmoved
    · exact (blockEnd_balances hd name (t :: ts)).map _
    · exact .before (spans_endsRow hrow ts) (hagain _ _ _ ts)
    · exact .before (spans_symbol hcell (by decide) (by decide) ts) (hagain _ _ _ ts)
    · exact .before (spans_symbol hcell (by decide) (by decide) ts) (hagain _ _ _ ts)
    · exact .noted (by simp [notes_skipStray])
    · exact .bind (sequence_balances h (c := c.withinRows) hd (t :: ts)) (hagain _ _ _ _)
    · exact .noted (by simp [notes_skipStray])

end Operands

theorem step_balanced (h : Balanced r) : Balanced (step r) := by
  intro phrase c ts hd
  cases phrase with
  | operand level => exact operand_balances h hd level ts
  | chain level left =>
    cases level with
    | sequence => exact juxtaposed_balances h hd left ts
    | _ => exact chain_balances h hd _ left ts
  | scripts base => exact scripts_balances h hd base ts
  | scriptArgument => exact scriptArgument_balances h hd ts
  | argument => exact argument_balances h hd ts
  | rows name complete cells filled => exact rows_balances h hd name complete cells filled ts
  | strays left => exact strays_balances left ts

section Texts

/-- A reader that takes nothing, and says so. -/
def missing : Reader := fun _ c ts => miss c .operand .empty ts

theorem iterate_balanced (n : ℕ) : Balanced (step^[n] missing) := by
  induction n with
  | zero => exact fun _ _ _ _ => .missed _ _ _
  | succ n ih =>
    rw [Function.iterate_succ_apply']
    exact step_balanced ih

/-- On shorter lists it does not matter which reader the steps begin with. -/
theorem agree_iterate (n : ℕ) : Agree n (step^[n] missing) read := by
  induction n with
  | zero => intro phrase c ts hn; cases hn
  | succ n ih =>
    intro phrase c ts hn
    rw [Function.iterate_succ_apply', read_eq]
    exact step_settled ih phrase (Nat.le_of_lt_succ hn)

theorem read_balanced : Balanced read := by
  intro phrase c ts hd
  rw [← (agree_iterate (ts.length + 1) phrase c ts (Nat.lt_succ_self _)).1]
  exact iterate_balanced _ phrase c ts hd

theorem readText_balances (hd : c.dialect = .legacy) (ts : List Token) :
    Balances [] ts (readText c ts) :=
  .bind (read_balanced (.operand .sequence) c ts hd) (read_balanced (.strays _) c _ hd)

/-- Where the edges can be told, each keyword of a side has its delimiter. -/
theorem delimited_of_edges? (h : edges? ts = some es) (ht : t :: us <:+ ts)
    (hs : t.side? = some side) : ∃ u ∈ us.head?, u.isDelimiter side = true := by
  fun_induction edges? ts generalizing es with
  | case1 => simp at ht
  | case2 v ts hplain ih =>
    obtain ⟨es', hes', -⟩ := Option.map_eq_some_iff.1 h
    obtain ht | ht := List.suffix_cons_iff.1 ht
    · cases ht
      simp [hs] at hplain
    · exact ih hes' ht
  | case3 => cases h
  | case4 v side' hside u ts hu ih =>
    obtain ⟨es', hes', -⟩ := Option.map_eq_some_iff.1 h
    obtain ht | ht := List.suffix_cons_iff.1 ht
    · cases ht
      obtain rfl : side = side' := Option.some.inj (hs.symm.trans hside)
      exact ⟨u, rfl, hu⟩
    · obtain ht | ht := List.suffix_cons_iff.1 ht
      · cases ht
        have hkind : t.kind = .symbol := by
          simp only [Token.isDelimiter, Bool.and_eq_true, decide_eq_true_eq] at hu
          exact hu.1
        rw [side?_of_kind (by simp [hkind])] at hs
        cases hs
      · exact ih hes' ht
  | case5 => cases h

/-- Legacy text that is parsed without a note nests. Blanks and unknown characters apart, a delimiter of
its side follows each LEFT and each RIGHT right away; and apart from those delimiters, whatever opens is
closed by its own closer. -/
theorem nested_of_parseText {s : String} (h : (parseText .legacy s).notes = []) :
    (∀ t us, t :: us <:+ significant (tokenize .legacy s) → ∀ side, t.side? = some side →
      ∃ u ∈ us.head?, u.isDelimiter side = true) ∧
    ∃ es, edges? (significant (tokenize .legacy s)) = some es ∧ Nested es := by
  obtain ⟨es, hes, hspans⟩ := readText_balances rfl _ h
  have hrest : edges? (fromStop (significant (tokenize .legacy s))) = some [] := by
    rw [significant, fromStop_significant]
    rfl
  have hedges : edges? (significant (tokenize .legacy s)) = some es := by
    rw [Spans, readText_rest, List.append_nil] at hspans
    simpa [significant] using hspans.trans (congrArg _ hrest)
  exact ⟨fun t us ht side hs => delimited_of_edges? hedges ht hs, es, hedges, hes⟩

/-- A bracket that is closed by a full stop, and the braces of a block, of a group and of a script. -/
theorem nested_of_parseText_matrix :
    let tokens := significant
      (tokenize .legacy "MATRIX\x7bLEFT ( a RIGHT . & \x7bb\x7d^\x7b2\x7d # c(d)\x7d")
    let es : List Edge :=
      [.opens "\x7d", .opens "right", .closes "right", .opens "\x7d", .closes "\x7d",
        .opens "\x7d", .closes "\x7d", .opens ")", .closes ")", .closes "\x7d"]
    edges? tokens = some es ∧ Nested es := by
  intro tokens es
  obtain ⟨es', hes', hnested⟩ := (nested_of_parseText
    (s := "MATRIX\x7bLEFT ( a RIGHT . & \x7bb\x7d^\x7b2\x7d # c(d)\x7d") (by decide +kernel)).2
  have hedges : edges? tokens = some es := by decide +kernel
  exact ⟨hedges, Option.some.inj (hes'.symm.trans hedges) ▸ hnested⟩

end Texts

end Grammar

end MathMarkup
