import Mathlib.Data.List.Forall2
import MathMarkup.Proofs.Grammar.Progress

/-! Two runs of the grammar side by side. Two lists of tokens that differ in the places of their tokens
only, and in what stands after their ends, are read as the same, with the same notes at places that
belong together, and what is left of them is again such a pair. -/
namespace MathMarkup

/-- The token at another place. -/
def Token.moved (t : Token) (o : ℤ) : Token := { t with offset := o }

namespace Token

variable (t : Token) (o : ℤ)

@[simp] theorem kind_moved : (t.moved o).kind = t.kind := rfl
@[simp] theorem text_moved : (t.moved o).text = t.text := rfl
@[simp] theorem isSymbol_moved (text : String) : (t.moved o).isSymbol text = t.isSymbol text := rfl
@[simp] theorem word?_moved : (t.moved o).word? = t.word? := rfl

end Token

namespace Grammar

section Moved

variable (t : Token) (o : ℤ) (d : Dialect)

@[simp] theorem operator?_moved (level : Level) : operator? level (t.moved o) = operator? level t := by
  cases level <;> rfl
@[simp] theorem keywordLiteral_moved : keywordLiteral d (t.moved o) = keywordLiteral d t := by
  cases d <;> rfl
@[simp] theorem delimiter?_moved : delimiter? d (t.moved o) = delimiter? d t := rfl
@[simp] theorem decoration?_moved : decoration? d (t.moved o) = decoration? d t := by
  cases d <;> rfl
@[simp] theorem inBlockName_moved : inBlockName (t.moved o) = inBlockName t := rfl

end Moved

/-- Two runs of the grammar in one dialect: what stands after the last token of each, how the places in
the one belong to those in the other, and which lists are left where both are at their ends. -/
structure Pairing where
  dialect : Dialect
  stop₁ : Token
  stop₂ : Token
  near : ℤ → ℤ → Prop
  ends : List Token → List Token → Prop
  over₁ : ∀ ts us, ends ts us → IsOver ts
  over₂ : ∀ ts us, ends ts us → IsOver us
  /-- The ends themselves differ in their places only. -/
  head : ∀ ts us, ends ts us →
    ∃ o, us.head?.getD stop₂ = (ts.head?.getD stop₁).moved o ∧ near (ts.head?.getD stop₁).offset o

namespace Pairing

variable (p : Pairing) (inRows : Bool)

def context₁ : Context := ⟨p.dialect, p.stop₁, inRows⟩

def context₂ : Context := ⟨p.dialect, p.stop₂, inRows⟩

@[simp] theorem dialect_context₁ : (p.context₁ inRows).dialect = p.dialect := rfl
@[simp] theorem dialect_context₂ : (p.context₂ inRows).dialect = p.dialect := rfl

/-- Lists of tokens that differ in places only, up to ends of theirs. Two bars make one delimiter in
both or in none. -/
inductive Parallel : List Token → List Token → Prop
  | ends {ts us : List Token} (h : p.ends ts us) : Parallel ts us
  | cons {t : Token} {ts us : List Token} {o : ℤ} (hk : t.kind ≠ .stop) (ho : p.near t.offset o)
      (hbar : isDoubleBar p.dialect (t :: ts) = isDoubleBar p.dialect (t.moved o :: us))
      (h : Parallel ts us) : Parallel (t :: ts) (t.moved o :: us)

structure AlikeNotes (m n : Diagnostic) : Prop where
  expected : m.expected = n.expected
  found : m.found = n.found
  place : p.near m.offset n.offset

/-- The two readings are of the same, and leave lists that go on alike; the first is one of `ts`. -/
structure Paired {α : Type} (ts : List Token) (a b : Reading α) : Prop where
  value : a.value = b.value
  rest : p.Parallel a.rest b.rest
  notes : List.Forall₂ p.AlikeNotes a.notes b.notes
  suffix : a.rest <:+ ts

variable {p inRows} {α β : Type} {name : String} {ts us vs : List Token} {t : Token} {o : ℤ}

namespace Paired

variable {a b : Reading α}

theorem done (x : α) (h : p.Parallel ts us) : p.Paired ts (.done x ts) (.done x us) :=
  ⟨rfl, h, .nil, List.suffix_refl ts⟩

theorem note (expected : Expectation) (x : α) (ho : p.near t.offset o) (h : p.Parallel ts us) :
    p.Paired ts ⟨x, ts, [noteAt expected t]⟩ ⟨x, us, [noteAt expected (t.moved o)]⟩ :=
  ⟨rfl, h, .cons ⟨rfl, rfl, ho⟩ .nil, List.suffix_refl ts⟩

theorem mono (h : p.Paired us a b) (hs : us <:+ ts) : p.Paired ts a b :=
  ⟨h.value, h.rest, h.notes, h.suffix.trans hs⟩

theorem cons (h : p.Paired ts a b) : p.Paired (t :: ts) a b :=
  h.mono (List.suffix_cons t ts)

theorem map (f : α → β) (h : p.Paired ts a b) : p.Paired ts (a.map f) (b.map f) :=
  ⟨congrArg f h.value, h.rest, h.notes, h.suffix⟩

theorem bind {f g : α → List Token → Reading β} (h : p.Paired ts a b)
    (hf : ∀ x us vs, us <:+ ts → p.Parallel us vs → p.Paired us (f x us) (g x vs)) :
    p.Paired ts (a.bind f) (b.bind g) := by
  have hfg := hf a.value _ _ h.suffix h.rest
  refine ⟨?_, ?_, ?_, hfg.suffix.trans h.suffix⟩
  · simpa [← h.value] using hfg.value
  · simpa [← h.value] using hfg.rest
  · simpa [← h.value] using List.rel_append h.notes hfg.notes

/-- Both runs take the same branch. -/
theorem ite {A B : Prop} [Decidable A] [Decidable B] {a' b' : Reading α} (h : A ↔ B)
    (ha : A → p.Paired ts a b) (hb : ¬A → p.Paired ts a' b') :
    p.Paired ts (if A then a else a') (if B then b else b') := by
  by_cases hA : A
  · rw [if_pos hA, if_pos (h.1 hA)]
    exact ha hA
  · rw [if_neg hA, if_neg fun hB => hA (h.2 hB)]
    exact hb hA

end Paired

section Leaves

/-- The tokens that come next differ in their places only. -/
theorem Parallel.head (inRows : Bool) (h : p.Parallel ts us) :
    ∃ o, (p.context₂ inRows).head us = ((p.context₁ inRows).head ts).moved o ∧
      p.near ((p.context₁ inRows).head ts).offset o := by
  cases h with
  | ends h => exact p.head _ _ h
  | cons hk ho hbar h => exact ⟨_, rfl, ho⟩

theorem miss_paired (expected : Expectation) (x : α) (h : p.Parallel ts us) :
    p.Paired ts (miss (p.context₁ inRows) expected x ts)
      (miss (p.context₂ inRows) expected x us) := by
  obtain ⟨o, hhead, ho⟩ := Parallel.head inRows h
  simp only [miss, hhead]
  exact .note expected x ho h

/-- What stands after two bars. -/
theorem Parallel.drop (h : p.Parallel ts us) (hbar : isDoubleBar p.dialect ts = true) :
    p.Parallel (ts.drop 2) (us.drop 2) := by
  cases h with
  | ends h => simp [isDoubleBar_of_over (p.over₁ _ _ h)] at hbar
  | @cons t ts us o hk ho hbar' h =>
    cases h with
    | cons hk' ho' hbar'' h => exact h
    | ends h =>
      have hover := p.over₁ _ _ h
      cases ts with
      | nil => simp [isDoubleBar] at hbar
      | cons u ts => simp [isDoubleBar, isSymbol_of_stop hover.head] at hbar

theorem expect_paired (text : String) (h : p.Parallel ts us) :
    p.Paired ts (expect (p.context₁ inRows) text ts) (expect (p.context₂ inRows) text us) := by
  cases h with
  | ends h =>
    rw [expect_of_over (p.over₁ _ _ h), expect_of_over (p.over₂ _ _ h)]
    exact miss_paired _ _ (.ends h)
  | cons hk ho hbar h =>
    exact .ite Iff.rfl (fun _ => (Paired.done true h).cons) fun _ =>
      miss_paired _ _ (.cons hk ho hbar h)

/-- The name of a block is the same, and what stands after it goes on alike. -/
theorem Parallel.blockName (h : p.Parallel ts us) :
    p.Parallel (ts.dropWhile inBlockName) (us.dropWhile inBlockName) ∧
      joinTexts (ts.takeWhile inBlockName) = joinTexts (us.takeWhile inBlockName) := by
  induction h with
  | ends h =>
    obtain ⟨hd₁, ht₁⟩ := dropWhile_of_over (p.over₁ _ _ h)
    obtain ⟨hd₂, ht₂⟩ := dropWhile_of_over (p.over₂ _ _ h)
    rw [hd₁, hd₂, ht₁, ht₂]
    exact ⟨.ends h, rfl⟩
  | @cons t ts us o hk ho hbar h ih =>
    by_cases hname : inBlockName t = true
    · simp only [List.dropWhile_cons, List.takeWhile_cons, inBlockName_moved, hname, if_true]
      exact ⟨ih.1, by simpa [joinTexts, String.join_cons] using ih.2⟩
    · simp only [List.dropWhile_cons, List.takeWhile_cons, inBlockName_moved, hname]
      exact ⟨.cons hk ho hbar h, rfl⟩

theorem blockName_paired (h : p.Parallel ts us) :
    p.Paired ts (blockName (p.context₁ inRows) ts) (blockName (p.context₂ inRows) us) := by
  obtain ⟨hdrop, htake⟩ := h.blockName
  simp only [blockName, htake]
  exact ((expect_paired _ hdrop).map _).mono (List.dropWhile_suffix _)

/-- Whether a symbol comes next. -/
theorem Parallel.head_isSymbol (h : p.Parallel ts us) (text : String) :
    ts.head?.any (·.isSymbol text) = us.head?.any (·.isSymbol text) := by
  cases h with
  | cons hk ho hbar h => rfl
  | ends h =>
    have hover {ts : List Token} (h : IsOver ts) : ts.head?.any (·.isSymbol text) = false := by
      cases ts with
      | nil => rfl
      | cons t ts => exact isSymbol_of_stop h.head text
    rw [hover (p.over₁ _ _ h), hover (p.over₂ _ _ h)]

theorem Parallel.startsEnd (h : p.Parallel ts us) (name : String) :
    startsEnd name ts = startsEnd name us := by
  cases h with
  | ends h => rw [startsEnd_of_over (p.over₁ _ _ h), startsEnd_of_over (p.over₂ _ _ h)]
  | @cons t ts us o hk ho hbar h =>
    cases h with
    | cons hk' ho' hbar' h =>
      obtain ⟨hdrop, htake⟩ := h.blockName
      simp only [Grammar.startsEnd]
      rw [hdrop.head_isSymbol, htake]
      rfl
    | ends h =>
      have hover {t : Token} {ts : List Token} (h : IsOver ts) :
          Grammar.startsEnd name (t :: ts) = false := by
        cases ts with
        | nil => rfl
        | cons u ts => simp [Grammar.startsEnd, isSymbol_of_stop h.head]
      rw [hover (p.over₁ _ _ h), hover (p.over₂ _ _ h)]

theorem Parallel.endsRows (h : p.Parallel ts us) (name : String) :
    endsRows p.dialect name ts = endsRows p.dialect name us := by
  unfold Grammar.endsRows
  split
  · exact h.startsEnd name
  · have hhead := h.head_isSymbol "\x7d"
    cases ts <;> cases us <;> exact hhead

theorem endName_paired (h : p.Parallel ts us) :
    p.Paired ts (endName (p.context₁ inRows) ts) (endName (p.context₂ inRows) us) := by
  cases h with
  | ends h =>
    rw [endName_of_over (p.over₁ _ _ h), endName_of_over (p.over₂ _ _ h)]
    exact .done () (.ends h)
  | cons hk ho hbar h =>
    exact .ite Iff.rfl (fun _ => ((blockName_paired h).map _).cons) fun _ =>
      .done () (.cons hk ho hbar h)

theorem sizedDelimiter_paired (side : Vocabulary.Side) (h : p.Parallel ts us) :
    p.Paired ts (sizedDelimiter (p.context₁ inRows) side ts)
      (sizedDelimiter (p.context₂ inRows) side us) := by
  cases h with
  | ends h =>
    rw [sizedDelimiter_of_over (p.over₁ _ _ h), sizedDelimiter_of_over (p.over₂ _ _ h)]
    exact miss_paired _ _ (.ends h)
  | @cons t ts us o hk ho hbar h =>
    have hall : p.Parallel (t :: ts) (t.moved o :: us) := .cons hk ho hbar h
    refine .ite (by rw [dialect_context₁, dialect_context₂, hbar]) (fun hbar => ?_) fun _ => ?_
    · exact (Paired.done _ (hall.drop hbar)).mono (List.drop_suffix 2 _)
    · simp only [delimiter?_moved, dialect_context₁, dialect_context₂]
      cases (delimiter? p.dialect t).filter side.delimiters.contains with
      | some delimiter => exact (Paired.done _ h).cons
      | none => exact miss_paired _ _ hall

theorem skipStray_paired (ho : p.near t.offset o) (h : p.Parallel ts us) :
    p.Paired ts (skipStray (p.context₁ inRows) t ts)
      (skipStray (p.context₂ inRows) (t.moved o) us) := by
  refine .ite Iff.rfl (fun _ => ?_) fun _ => .ite Iff.rfl (fun _ => ?_) fun _ => ?_
  · exact (Paired.note _ () ho h).bind fun _ _ _ _ h => endName_paired h
  · exact (Paired.note _ () ho h).bind fun _ _ _ _ h => (sizedDelimiter_paired _ h).map _
  · exact .note _ () ho h

theorem Parallel.tail (h : p.Parallel ts us) (hs : Grammar.startsEnd name ts = true) :
    p.Parallel ts.tail us.tail := by
  cases h with
  | ends h => simp [startsEnd_of_over (p.over₁ _ _ h)] at hs
  | cons hk ho hbar h => exact h

theorem blockEnd_paired (name : String) (h : p.Parallel ts us) :
    p.Paired ts (blockEnd (p.context₁ inRows) name ts) (blockEnd (p.context₂ inRows) name us) := by
  simp only [blockEnd, dialect_context₁, dialect_context₂]
  cases p.dialect with
  | latex =>
    refine .ite (by rw [h.startsEnd name]) (fun hs => ?_) fun _ => miss_paired _ _ h
    exact (endName_paired (h.tail hs)).mono (List.tail_suffix ts)
  | legacy => exact (expect_paired _ h).map _

theorem sizedClosing_paired (h : p.Parallel ts us) :
    p.Paired ts (sizedClosing (p.context₁ inRows) ts) (sizedClosing (p.context₂ inRows) us) := by
  cases h with
  | ends h =>
    rw [sizedClosing_of_over (p.over₁ _ _ h), sizedClosing_of_over (p.over₂ _ _ h)]
    exact miss_paired _ _ (.ends h)
  | cons hk ho hbar h =>
    exact .ite Iff.rfl (fun _ => (sizedDelimiter_paired _ h).cons) fun _ =>
      miss_paired _ _ (.cons hk ho hbar h)

variable (inRows) in
theorem unknownKeyword_paired (ho : p.near t.offset o) (h : p.Parallel ts us) :
    p.Paired ts (unknownKeyword (p.context₁ inRows) t ts)
      (unknownKeyword (p.context₂ inRows) (t.moved o) us) := by
  simp only [unknownKeyword, dialect_context₁, dialect_context₂, keywordLiteral_moved]
  exact .note _ _ ho h

end Leaves

/-- Phrases are read alike off lists with fewer than `n` tokens. -/
def Pairs (n : ℕ) : Prop :=
  ∀ phrase inRows ts us, ts.length < n → p.Parallel ts us →
    p.Paired ts (read phrase (p.context₁ inRows) ts) (read phrase (p.context₂ inRows) us)

section Keywords

variable {n : ℕ} (hr : p.Pairs n)
include hr

theorem bracket_paired (opening : String) (hn : ts.length < n) (h : p.Parallel ts us) :
    p.Paired ts (bracket read (p.context₁ inRows) opening ts)
      (bracket read (p.context₂ inRows) opening us) := by
  unfold bracket
  exact .bind (hr _ _ _ _ hn h) fun _ _ _ _ h => .map _ (expect_paired _ h)

theorem sizedBracket_paired (hn : ts.length < n) (h : p.Parallel ts us) :
    p.Paired ts (sizedBracket read (p.context₁ inRows) ts)
      (sizedBracket read (p.context₂ inRows) us) :=
  (sizedDelimiter_paired _ h).bind fun _ _ _ hs h =>
    (hr _ _ _ _ (Agree.length_le hs hn) h).bind fun _ _ _ _ h => (sizedClosing_paired h).map _

theorem bound_paired (mark : String) (hn : ts.length ≤ n) (h : p.Parallel ts us) :
    p.Paired ts (bound read (p.context₁ inRows) mark ts)
      (bound read (p.context₂ inRows) mark us) := by
  cases h with
  | ends h =>
    rw [bound_of_over (p.over₁ _ _ h), bound_of_over (p.over₂ _ _ h)]
    exact .done none (.ends h)
  | cons hk ho hbar h =>
    exact .ite Iff.rfl (fun _ => ((hr _ _ _ _ hn h).map _).cons) fun _ =>
      .done none (.cons hk ho hbar h)

theorem bounds_paired (hn : ts.length ≤ n) (h : p.Parallel ts us) :
    p.Paired ts (bounds read (p.context₁ inRows) ts) (bounds read (p.context₂ inRows) us) := by
  obtain ⟨o, hhead, -⟩ := Parallel.head inRows h
  refine .ite (by rw [hhead, Token.isSymbol_moved]) (fun _ => ?_) fun _ => ?_
  · exact (bound_paired hr _ hn h).bind fun _ _ _ hs h =>
      (bound_paired hr _ (hs.length_le.trans hn) h).map _
  · refine (bound_paired hr _ hn h).bind fun lower _ _ hs h =>
      .ite Iff.rfl (fun _ => ?_) fun _ => .done _ h
    exact (bound_paired hr _ (hs.length_le.trans hn) h).map _

theorem body_paired (hn : ts.length < n) (h : p.Parallel ts us) :
    p.Paired ts (body read (p.context₁ inRows) ts) (body read (p.context₂ inRows) us) := by
  cases h with
  | ends h =>
    rw [body_of_over (p.over₁ _ _ h), body_of_over (p.over₂ _ _ h)]
    exact .done none (.ends h)
  | cons hk ho hbar h =>
    exact .ite Iff.rfl (fun _ => (hr _ _ _ _ hn (.cons hk ho hbar h)).map _) fun _ =>
      .done none (.cons hk ho hbar h)

theorem large_paired (operator : LargeOperator) (hn : ts.length < n) (h : p.Parallel ts us) :
    p.Paired ts (large read (p.context₁ inRows) operator ts)
      (large read (p.context₂ inRows) operator us) :=
  (bounds_paired hr hn.le h).bind fun _ _ _ hs h =>
    (body_paired hr (Agree.length_le hs hn) h).map _

theorem stackedFraction_paired (hn : ts.length < n) (h : p.Parallel ts us) :
    p.Paired ts (stackedFraction read (p.context₁ inRows) ts)
      (stackedFraction read (p.context₂ inRows) us) :=
  (hr _ _ _ _ hn h).bind fun _ _ _ hs h => (hr _ _ _ _ (Agree.length_le hs hn) h).map _

theorem latexBlock_paired (t : Token) (o : ℤ) (hn : ts.length < n) (h : p.Parallel ts us) :
    p.Paired ts (latexBlock read (p.context₁ inRows) t ts)
      (latexBlock read (p.context₂ inRows) (t.moved o) us) := by
  cases h with
  | ends h =>
    rw [latexBlock_of_over (p.over₁ _ _ h), latexBlock_of_over (p.over₂ _ _ h)]
    exact miss_paired _ _ (.ends h)
  | @cons u ts us o' hk ho hbar h =>
    refine .ite Iff.rfl (fun _ => ?_) fun _ => miss_paired _ _ (.cons hk ho hbar h)
    refine ((blockName_paired h).bind fun _ vs _ hs h => ?_).cons
    exact hr _ _ _ _ (Agree.length_le (hs.trans (List.suffix_cons u ts)) hn) h

theorem legacyBlock_paired (t : Token) (o : ℤ) (name : String) (hn : ts.length < n)
    (h : p.Parallel ts us) :
    p.Paired ts (legacyBlock read (p.context₁ inRows) t name ts)
      (legacyBlock read (p.context₂ inRows) (t.moved o) name us) := by
  cases h with
  | ends h =>
    rw [legacyBlock_of_over (p.over₁ _ _ h), legacyBlock_of_over (p.over₂ _ _ h)]
    exact miss_paired _ _ (.ends h)
  | @cons u ts us o' hk ho hbar h =>
    refine .ite Iff.rfl (fun _ => ?_) fun _ => miss_paired _ _ (.cons hk ho hbar h)
    exact (hr _ _ _ _ (Agree.length_le (List.suffix_cons u ts) hn) h).cons

theorem dialectKeyword_paired (ho : p.near t.offset o) (hn : ts.length < n)
    (h : p.Parallel ts us) :
    p.Paired ts (dialectKeyword read (p.context₁ inRows) t ts)
      (dialectKeyword read (p.context₂ inRows) (t.moved o) us) := by
  have hunknown := unknownKeyword_paired inRows ho h
  unfold dialectKeyword
  simp only [dialect_context₁, dialect_context₂, Token.word?_moved, Token.text_moved]
  cases p.dialect with
  | latex =>
    dsimp only
    split
    · exact stackedFraction_paired hr hn h
    · exact stackedFraction_paired hr hn h
    · exact stackedFraction_paired hr hn h
    · exact latexBlock_paired hr t o hn h
    · exact hunknown
  | legacy =>
    cases Block.ofLegacy? t.text with
    | some block => exact legacyBlock_paired hr t o _ hn h
    | none => exact hunknown

theorem keywordForm_paired (ho : p.near t.offset o) (hn : ts.length < n)
    (h : p.Parallel ts us) :
    p.Paired ts (keywordForm read (p.context₁ inRows) t ts)
      (keywordForm read (p.context₂ inRows) (t.moved o) us) := by
  unfold keywordForm
  simp only [dialect_context₁, dialect_context₂, Token.word?_moved, decoration?_moved]
  split
  · exact (hr _ _ _ _ hn h).map _
  · exact large_paired hr _ hn h
  · exact large_paired hr _ hn h
  · exact large_paired hr _ hn h
  · exact sizedBracket_paired hr hn h
  · cases decoration? p.dialect t with
    | some decoration => exact (hr _ _ _ _ hn h).map _
    | none => exact dialectKeyword_paired hr ho hn h

end Keywords

section Operands

variable {n : ℕ} (hr : p.Pairs n)
include hr

theorem identifier_paired (t : Token) (o : ℤ) (hn : ts.length ≤ n) (h : p.Parallel ts us) :
    p.Paired ts (identifier read (p.context₁ inRows) t ts)
      (identifier read (p.context₂ inRows) (t.moved o) us) := by
  cases h with
  | ends h =>
    rw [identifier_of_over (p.over₁ _ _ h), identifier_of_over (p.over₂ _ _ h)]
    exact .done _ (.ends h)
  | cons hk ho hbar h =>
    refine .ite Iff.rfl (fun _ => ?_) fun _ => .ite Iff.rfl (fun _ => ?_) fun _ => ?_
    · exact ((bracket_paired hr _ hn h).map _).cons
    · exact ((sizedBracket_paired hr hn h).map _).cons
    · exact .done _ (.cons hk ho hbar h)

theorem primary_paired (hn : ts.length ≤ n) (h : p.Parallel ts us) :
    p.Paired ts (primary read (p.context₁ inRows) ts)
      (primary read (p.context₂ inRows) us) := by
  cases h with
  | ends h =>
    rw [primary_of_over (p.over₁ _ _ h), primary_of_over (p.over₂ _ _ h)]
    exact miss_paired _ _ (.ends h)
  | @cons t ts us o hk ho hbar h =>
    have hall : p.Parallel (t :: ts) (t.moved o :: us) := .cons hk ho hbar h
    have hmark : p.Paired (t :: ts)
        (if t.isOpening then bracket read (p.context₁ inRows) t.text ts
          else if t.isScript then .done .empty (t :: ts)
          else if t.isSign then
            (read (.operand .factor) (p.context₁ inRows) ts).map fun e => .binary t.text .empty e
          else .done (symbolLiteral p.dialect t) ts)
        (if t.isOpening then bracket read (p.context₂ inRows) t.text us
          else if t.isScript then .done .empty (t.moved o :: us)
          else if t.isSign then
            (read (.operand .factor) (p.context₂ inRows) us).map fun e => .binary t.text .empty e
          else .done (symbolLiteral p.dialect t) us) := by
      refine .ite Iff.rfl (fun _ => ?_) fun _ => .ite Iff.rfl (fun _ => ?_) fun _ =>
        .ite Iff.rfl (fun _ => ?_) fun _ => ?_
      · exact (bracket_paired hr _ hn h).cons
      · exact .done _ hall
      · exact ((hr _ _ _ _ hn h).map _).cons
      · exact (Paired.done _ h).cons
    refine .ite Iff.rfl (fun _ => miss_paired _ _ hall) fun _ => ?_
    simp only [Token.kind_moved]
    cases t.kind with
    | identifier => exact (identifier_paired hr t o (Nat.le_of_lt hn) h).cons
    | number => exact (Paired.done _ h).cons
    | keyword => exact (keywordForm_paired hr ho hn h).cons
    | symbol | space | stop | unknown => exact hmark

theorem scripts_paired (base : Expr) (hn : ts.length ≤ n) (h : p.Parallel ts us) :
    p.Paired ts (scripts read (p.context₁ inRows) base ts)
      (scripts read (p.context₂ inRows) base us) := by
  cases h with
  | ends h =>
    rw [scripts_of_over (p.over₁ _ _ h), scripts_of_over (p.over₂ _ _ h)]
    exact .done _ (.ends h)
  | cons hk ho hbar h =>
    refine .ite Iff.rfl (fun _ => ?_) fun _ => .ite Iff.rfl (fun _ => ?_) fun _ => ?_
    · exact .cons (.bind (hr _ _ _ _ hn h) fun _ _ _ hs h =>
        hr _ _ _ _ (Agree.length_le hs hn) h)
    · exact .cons (.bind (hr _ _ _ _ hn h) fun _ _ _ hs h =>
        hr _ _ _ _ (Agree.length_le hs hn) h)
    · exact .done _ (.cons hk ho hbar h)

theorem factor_paired (hn : ts.length ≤ n) (h : p.Parallel ts us) :
    p.Paired ts (factor read (p.context₁ inRows) ts) (factor read (p.context₂ inRows) us) :=
  (primary_paired hr hn h).bind fun _ _ _ hs h => scripts_paired hr _ (hs.length_le.trans hn) h

variable (inRows) in
theorem chain_paired (level : Level) (left : Expr) (hn : ts.length ≤ n) (h : p.Parallel ts us) :
    p.Paired ts (chain read (p.context₁ inRows) level left ts)
      (chain read (p.context₂ inRows) level left us) := by
  cases h with
  | ends h =>
    rw [chain_of_over (p.over₁ _ _ h), chain_of_over (p.over₂ _ _ h)]
    exact .done _ (.ends h)
  | @cons t ts us o hk ho hbar h =>
    simp only [chain, operator?_moved]
    cases operator? level t with
    | none => exact .done _ (.cons hk ho hbar h)
    | some operator =>
      exact .cons (.bind (hr _ _ _ _ hn h) fun _ _ _ hs h =>
        hr _ _ _ _ (Agree.length_le hs hn) h)

theorem product_paired (hn : ts.length ≤ n) (h : p.Parallel ts us) :
    p.Paired ts (product read (p.context₁ inRows) ts) (product read (p.context₂ inRows) us) :=
  (factor_paired hr hn h).bind fun _ _ _ hs h => chain_paired _ hr _ _ (hs.length_le.trans hn) h

theorem sum_paired (hn : ts.length ≤ n) (h : p.Parallel ts us) :
    p.Paired ts (sum read (p.context₁ inRows) ts) (sum read (p.context₂ inRows) us) :=
  (product_paired hr hn h).bind fun _ _ _ hs h => chain_paired _ hr _ _ (hs.length_le.trans hn) h

variable (inRows) in
theorem relation_paired (hn : ts.length ≤ n) (h : p.Parallel ts us) :
    p.Paired ts (relation read (p.context₁ inRows) ts)
      (relation read (p.context₂ inRows) us) :=
  (sum_paired hr hn h).bind fun _ _ _ hs h => chain_paired _ hr _ _ (hs.length_le.trans hn) h

/-- A relation that takes a token leaves fewer for what stands beside it. -/
theorem beside_paired (f : Expr → Expr) (hb : (p.context₁ inRows).isBoundary t = false)
    (hn : (t :: ts).length ≤ n) (h : p.Parallel (t :: ts) (t.moved o :: us)) :
    p.Paired (t :: ts)
      (((relation read (p.context₁ inRows) (t :: ts)).map f).bind fun e rest =>
        read (.chain .sequence e) (p.context₁ inRows) rest)
      (((relation read (p.context₂ inRows) (t.moved o :: us)).map f).bind fun e rest =>
        read (.chain .sequence e) (p.context₂ inRows) rest) := by
  have hrel := (relation_paired inRows hr hn h).map f
  have hstart : ((relation read (p.context₁ inRows) (t :: ts)).map f).rest <:+ ts :=
    relation_starts hb
  exact .cons (.bind ⟨hrel.value, hrel.rest, hrel.notes, hstart⟩ fun _ _ _ hs h =>
    hr _ _ _ _ (Agree.length_le hs hn) h)

variable (inRows) in
theorem sequence_paired (hn : ts.length ≤ n) (h : p.Parallel ts us) :
    p.Paired ts (sequence read (p.context₁ inRows) ts)
      (sequence read (p.context₂ inRows) us) := by
  cases h with
  | ends h =>
    rw [sequence_of_over (p.over₁ _ _ h), sequence_of_over (p.over₂ _ _ h)]
    exact .done _ (.ends h)
  | @cons t ts us o hk ho hbar h =>
    have hall : p.Parallel (t :: ts) (t.moved o :: us) := .cons hk ho hbar h
    cases hb : (p.context₁ inRows).isBoundary t with
    | true =>
      have hb' : (p.context₂ inRows).isBoundary (t.moved o) = true := hb
      simp only [sequence, atBoundary, hb, hb', if_true]
      exact .done _ hall
    | false =>
      have hb' : (p.context₂ inRows).isBoundary (t.moved o) = false := hb
      rw [sequence_starts hb, sequence_starts hb']
      exact beside_paired hr id hb hn hall

theorem juxtaposed_paired (left : Expr) (hn : ts.length ≤ n) (h : p.Parallel ts us) :
    p.Paired ts (juxtaposed read (p.context₁ inRows) left ts)
      (juxtaposed read (p.context₂ inRows) left us) := by
  cases h with
  | ends h =>
    rw [juxtaposed_of_over (p.over₁ _ _ h), juxtaposed_of_over (p.over₂ _ _ h)]
    exact .done _ (.ends h)
  | @cons t ts us o hk ho hbar h =>
    have hall : p.Parallel (t :: ts) (t.moved o :: us) := .cons hk ho hbar h
    cases hb : (p.context₁ inRows).isBoundary t with
    | true =>
      have hb' : (p.context₂ inRows).isBoundary (t.moved o) = true := hb
      simp only [juxtaposed, atBoundary, hb, hb', if_true]
      exact .done _ hall
    | false =>
      have hb' : (p.context₂ inRows).isBoundary (t.moved o) = false := hb
      rw [juxtaposed_starts hb, juxtaposed_starts hb']
      exact beside_paired hr _ hb hn hall

theorem operand_paired (level : Level) (hn : ts.length ≤ n) (h : p.Parallel ts us) :
    p.Paired ts (operand read (p.context₁ inRows) level ts)
      (operand read (p.context₂ inRows) level us) := by
  cases level with
  | sequence => exact sequence_paired _ hr hn h
  | relation => exact relation_paired _ hr hn h
  | sum => exact sum_paired hr hn h
  | product => exact product_paired hr hn h
  | factor => exact factor_paired hr hn h

theorem latexArgument_paired (hn : ts.length ≤ n) (h : p.Parallel ts us) :
    p.Paired ts (latexArgument read (p.context₁ inRows) ts)
      (latexArgument read (p.context₂ inRows) us) := by
  cases h with
  | ends h =>
    rw [latexArgument_of_over (p.over₁ _ _ h), latexArgument_of_over (p.over₂ _ _ h)]
    exact miss_paired _ _ (.ends h)
  | cons hk ho hbar h =>
    refine .ite Iff.rfl (fun _ => ?_) fun _ => .ite Iff.rfl (fun _ => ?_) fun _ =>
      .ite Iff.rfl (fun _ => ?_) fun _ => ?_
    · exact .cons (.bind (hr _ _ _ _ hn h) fun _ _ _ _ h => .map _ (expect_paired _ h))
    · exact miss_paired _ _ (.cons hk ho hbar h)
    · exact (keywordForm_paired hr ho hn h).cons
    · exact (Paired.done _ h).cons

theorem legacyScriptArgument_paired (hn : ts.length ≤ n) (h : p.Parallel ts us) :
    p.Paired ts (legacyScriptArgument read (p.context₁ inRows) ts)
      (legacyScriptArgument read (p.context₂ inRows) us) := by
  cases h with
  | ends h =>
    rw [legacyScriptArgument_of_over (p.over₁ _ _ h), legacyScriptArgument_of_over (p.over₂ _ _ h)]
    exact miss_paired _ _ (.ends h)
  | @cons t ts us o hk ho hbar h =>
    have hall : p.Parallel (t :: ts) (t.moved o :: us) := .cons hk ho hbar h
    have hmark : p.Paired (t :: ts)
        (if t.isOpening then bracket read (p.context₁ inRows) t.text ts
          else if t.isScript then .done .empty (t :: ts)
          else .done (symbolLiteral .legacy t) ts)
        (if t.isOpening then bracket read (p.context₂ inRows) t.text us
          else if t.isScript then .done .empty (t.moved o :: us)
          else .done (symbolLiteral .legacy t) us) := by
      refine .ite Iff.rfl (fun _ => ?_) fun _ => .ite Iff.rfl (fun _ => ?_) fun _ => ?_
      · exact (bracket_paired hr _ hn h).cons
      · exact .done _ hall
      · exact (Paired.done _ h).cons
    refine .ite Iff.rfl (fun _ => ?_) fun _ => .ite Iff.rfl (fun _ => ?_) fun _ => ?_
    · exact ((bracket_paired hr _ hn h).map _).cons
    · exact miss_paired _ _ hall
    · simp only [Token.kind_moved]
      cases t.kind with
      | identifier | number => exact (Paired.done _ h).cons
      | keyword => exact (keywordForm_paired hr ho hn h).cons
      | symbol | space | stop | unknown => exact hmark

theorem scriptArgument_paired (hn : ts.length ≤ n) (h : p.Parallel ts us) :
    p.Paired ts (scriptArgument read (p.context₁ inRows) ts)
      (scriptArgument read (p.context₂ inRows) us) := by
  simp only [scriptArgument, dialect_context₁, dialect_context₂]
  cases p.dialect with
  | latex => exact latexArgument_paired hr hn h
  | legacy => exact legacyScriptArgument_paired hr hn h

theorem argument_paired (hn : ts.length ≤ n) (h : p.Parallel ts us) :
    p.Paired ts (argument read (p.context₁ inRows) ts)
      (argument read (p.context₂ inRows) us) := by
  simp only [argument, dialect_context₁, dialect_context₂]
  cases p.dialect with
  | latex => exact latexArgument_paired hr hn h
  | legacy => exact (factor_paired hr hn h).map _

theorem rows_paired (name : String) (complete : List (List Expr)) (cells : List Expr)
    (filled : Bool) (hn : ts.length ≤ n) (h : p.Parallel ts us) :
    p.Paired ts (rows read (p.context₁ inRows) name complete cells filled ts)
      (rows read (p.context₂ inRows) name complete cells filled us) := by
  cases h with
  | ends h =>
    rw [rows_of_over (p.over₁ _ _ h), rows_of_over (p.over₂ _ _ h)]
    exact (blockEnd_paired name (.ends h)).map _
  | @cons t ts us o hk ho hbar h =>
    have hall : p.Parallel (t :: ts) (t.moved o :: us) := .cons hk ho hbar h
    refine .ite (by simp only [hall.endsRows name, dialect_context₁, dialect_context₂,
      Token.kind_moved]) (fun _ => (blockEnd_paired name hall).map _) fun _ =>
      .ite Iff.rfl (fun _ => (hr _ _ _ _ hn h).cons) fun hrow =>
      .ite Iff.rfl (fun _ => (hr _ _ _ _ hn h).cons) fun hcell => .ite Iff.rfl (fun _ => ?_) fun hb => ?_
    · exact .cons (.bind (skipStray_paired ho h) fun _ _ _ hs h =>
        hr _ _ _ _ (Agree.length_le hs hn) h)
    · have hb₁ : (p.context₁ inRows).withinRows.isBoundary t = false :=
        (isBoundary_withinRows_iff (by simpa using hrow) (by simpa using hcell)).trans
          (by simpa using hb)
      have hb₂ : (p.context₂ inRows).withinRows.isBoundary (t.moved o) = false := hb₁
      have hseq := sequence_paired true hr hn hall
      have hstart := sequence_takes hb₁ ts
      dsimp only
      rw [if_pos (sequence_progress hb₁ ts), if_pos (sequence_progress hb₂ us)]
      exact .cons (.bind ⟨hseq.value, hseq.rest, hseq.notes, hstart⟩ fun _ _ _ hs h =>
        hr _ _ _ _ (Agree.length_le hs hn) h)

theorem strays_paired (left : Expr) (hn : ts.length ≤ n) (h : p.Parallel ts us) :
    p.Paired ts (strays read (p.context₁ inRows) left ts)
      (strays read (p.context₂ inRows) left us) := by
  cases h with
  | ends h =>
    rw [strays_of_over (p.over₁ _ _ h), strays_of_over (p.over₂ _ _ h)]
    exact .done _ (.ends h)
  | cons hk ho hbar h =>
    refine .ite Iff.rfl (fun _ => .done _ (.cons hk ho hbar h)) fun _ => ?_
    refine ((skipStray_paired ho h).bind fun _ _ _ hs h => ?_).cons
    refine (hr _ _ _ _ (Agree.length_le hs hn) h).bind fun _ _ _ hs' h => ?_
    exact hr _ _ _ _ (Agree.length_le (hs'.trans hs) hn) h

/-- One step reads alike where its readers do. -/
theorem step_paired (phrase : Phrase) (hn : ts.length ≤ n) (h : p.Parallel ts us) :
    p.Paired ts (step read phrase (p.context₁ inRows) ts)
      (step read phrase (p.context₂ inRows) us) := by
  cases phrase with
  | operand level => exact operand_paired hr level hn h
  | chain level left =>
    cases level with
    | sequence => exact juxtaposed_paired hr left hn h
    | relation => exact chain_paired _ hr .relation left hn h
    | sum => exact chain_paired _ hr .sum left hn h
    | product => exact chain_paired _ hr .product left hn h
    | factor => exact chain_paired inRows hr .factor left hn h
  | scripts base => exact scripts_paired hr base hn h
  | scriptArgument => exact scriptArgument_paired hr hn h
  | argument => exact argument_paired hr hn h
  | rows name complete cells filled => exact rows_paired hr name complete cells filled hn h
  | strays left => exact strays_paired hr left hn h

end Operands

/-- Phrases are read alike off lists of any length. -/
theorem pairs (p : Pairing) (n : ℕ) : p.Pairs n := by
  induction n with
  | zero => intro _ _ ts _ hn; exact absurd hn (Nat.not_lt_zero _)
  | succ n ih =>
    intro phrase inRows ts us hn h
    rw [read_eq, read_eq]
    exact step_paired ih phrase (Nat.le_of_lt_succ hn) h

theorem read_paired (phrase : Phrase) (inRows : Bool) (h : p.Parallel ts us) :
    p.Paired ts (read phrase (p.context₁ inRows) ts) (read phrase (p.context₂ inRows) us) :=
  p.pairs (ts.length + 1) phrase inRows ts us (Nat.lt_succ_self _) h

theorem readText_paired (inRows : Bool) (h : p.Parallel ts us) :
    p.Paired ts (readText (p.context₁ inRows) ts) (readText (p.context₂ inRows) us) :=
  (read_paired _ inRows h).bind fun _ _ _ _ h => read_paired _ inRows h

end Pairing

end Grammar

end MathMarkup
