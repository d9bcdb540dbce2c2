import Mathlib.Data.Int.Order.Basic
import MathMarkup.Proofs.Expr.Cells
import MathMarkup.Proofs.Grammar.Depth
import MathMarkup.Proofs.Grammar.Stop

/-! What is noted and what is begun on the way through a list of tokens. Each note is at the token that
comes first when it is made, so notes are in the order of their tokens. A cell is begun where its block
is, after a mark between cells or rows, and after a token that is left out with a note. -/
namespace MathMarkup.Grammar

open MathMarkup.Expr (excess partExcess rowExcess tableExcess surplus)

variable {α β : Type} {c : Context} {stop t : Token} {ts us vs : List Token} {held held' : ℤ}
  {m n : List Diagnostic} {k : ℕ}

section Notes

/-- The notes are made on the way from `ts` to `us`, each at the token that comes first then, which is
`stop` after the last. -/
inductive Located (stop : Token) : List Token → List Token → List Diagnostic → Prop
  | silent {ts us : List Token} (h : us <:+ ts) : Located stop ts us []
  | note {ts us vs : List Token} {n : List Diagnostic} (e : Expectation) (hs : vs <:+ ts)
      (h : Located stop vs us n) : Located stop ts us (noteAt e (vs.head?.getD stop) :: n)

namespace Located

theorem suffix (h : Located stop ts us n) : us <:+ ts := by
  induction h with
  | silent h => exact h
  | note e hs _ ih => exact ih.trans hs

theorem mono (h : Located stop us vs n) (hs : us <:+ ts) : Located stop ts vs n := by
  cases h with
  | silent h => exact .silent (h.trans hs)
  | note e hs' h => exact .note e (hs'.trans hs) h

theorem trans (h : Located stop ts us m) (h' : Located stop us vs n) :
    Located stop ts vs (m ++ n) := by
  induction h with
  | silent hs => exact h'.mono hs
  | note e hs _ ih => exact .note e hs (ih h')

end Located

/-- Whether the note may tell that a token is left out. -/
def isStray (n : Diagnostic) : Bool := n.expected = .operand || n.expected = .matchingBegin

def strayCount (notes : List Diagnostic) : ℤ := notes.countP isStray

theorem strayCount_append (m n : List Diagnostic) :
    strayCount (m ++ n) = strayCount m + strayCount n := by
  simp [strayCount, List.countP_append]

theorem strayCount_nonneg (n : List Diagnostic) : 0 ≤ strayCount n := Int.natCast_nonneg _

end Notes

section Marks

def markCount (d : Dialect) (ts : List Token) : ℤ := ts.countP (endsCell d)

theorem markCount_cons (d : Dialect) (t : Token) (ts : List Token) :
    markCount d (t :: ts) = markCount d ts + if endsCell d t then 1 else 0 := by
  simp only [markCount, List.countP_cons]
  split <;> simp

theorem markCount_le_of_suffix {d : Dialect} (h : us <:+ ts) : markCount d us ≤ markCount d ts :=
  Int.ofNat_le.2 (h.sublist.countP_le)

end Marks

section Readings

/-- A reading of `ts` locates its notes. With `held` cells before, and what a value weighs after, it
begins no more cells than the marks taken and the notes on tokens left out allow. -/
structure Accounts (c : Context) (held : ℤ) (ts : List Token) (weight : α → ℤ) (r : Reading α) :
    Prop where
  located : Located c.stop ts r.rest r.notes
  paid : weight r.value + markCount c.dialect r.rest ≤
    held + markCount c.dialect ts + strayCount r.notes

namespace Accounts

variable {weight : α → ℤ} {weight' : β → ℤ} {r : Reading α}

theorem suffix (h : Accounts c held ts weight r) : r.rest <:+ ts := h.located.suffix

/-- Nothing is taken. -/
theorem still {a : α} (h : weight a ≤ held) : Accounts c held ts weight (.done a ts) :=
  ⟨.silent (List.suffix_refl ts), by simpa [Reading.done, strayCount] using h⟩

/-- Nothing is taken, and what is there is no expression. -/
theorem idle (a : α) (ts : List Token) : Accounts c 0 ts (fun _ => 0) (.done a ts) := .still le_rfl

/-- Nothing is taken, and a note says what was wanted. -/
theorem missed {a : α} (e : Expectation) (h : weight a ≤ held) :
    Accounts c held ts weight (miss c e a ts) := by
  refine ⟨.note e (List.suffix_refl ts) (.silent (List.suffix_refl ts)), ?_⟩
  have := strayCount_nonneg (miss c e a ts).notes
  simp only [miss] at this ⊢
  omega

/-- A note on the token taken. -/
theorem noted {a : α} (e : Expectation) (h : weight a ≤ held) :
    Accounts c held (t :: ts) weight ⟨a, ts, [noteAt e t]⟩ := by
  refine ⟨.note e (List.suffix_refl (t :: ts)) (.silent (List.suffix_cons t ts)), ?_⟩
  have := strayCount_nonneg [noteAt e t]
  have := markCount_le_of_suffix (d := c.dialect) (List.suffix_cons t ts)
  dsimp only
  omega

/-- The token taken is left out, and one cell more may be begun. -/
theorem left {a : α} (e : Expectation) (he : isStray (noteAt e t) = true) (h : weight a ≤ held + 1) :
    Accounts c held (t :: ts) weight ⟨a, ts, [noteAt e t]⟩ := by
  refine ⟨.note e (List.suffix_refl (t :: ts)) (.silent (List.suffix_cons t ts)), ?_⟩
  have := markCount_le_of_suffix (d := c.dialect) (List.suffix_cons t ts)
  have hcount : strayCount [noteAt e t] = 1 := by simp [strayCount, he]
  dsimp only
  omega

theorem mono (h : Accounts c held us weight r) (hs : us <:+ ts) : Accounts c held ts weight r := by
  refine ⟨h.located.mono hs, ?_⟩
  have := h.paid
  have := markCount_le_of_suffix (d := c.dialect) hs
  omega

theorem skip (h : Accounts c held ts weight r) : Accounts c held (t :: ts) weight r :=
  h.mono (List.suffix_cons t ts)

/-- After a mark one cell more may be begun. -/
theorem mark (h : Accounts c (held + 1) ts weight r) (ht : endsCell c.dialect t = true) :
    Accounts c held (t :: ts) weight r := by
  refine ⟨h.skip.located, ?_⟩
  have := h.paid
  rw [markCount_cons, if_pos ht]
  omega

theorem map {f : α → β} (h : Accounts c held ts weight r)
    (hf : ∀ a, weight' (f a) + held ≤ held' + weight a) : Accounts c held' ts weight' (r.map f) := by
  refine ⟨h.located, ?_⟩
  have := h.paid
  have := hf r.value
  simp only [Reading.value_map, Reading.rest_map, Reading.notes_map]
  omega

theorem forget (h : Accounts c 0 ts (fun _ => 0) r) (f : α → β) :
    Accounts c 0 ts (fun _ => 0) (r.map f) :=
  h.map fun _ => le_rfl

/-- Beside what is read already. -/
theorem beside (h : Accounts c 0 ts weight r) (held : ℤ) :
    Accounts c held ts (fun a => held + weight a) r := by
  refine ⟨h.located, ?_⟩
  have := h.paid
  omega

theorem bind {f : α → List Token → Reading β} (h : Accounts c held ts weight r)
    (hf : r.rest <:+ ts → Accounts c (weight r.value) r.rest weight' (f r.value r.rest)) :
    Accounts c held ts weight' (r.bind f) := by
  have hnext := hf h.suffix
  refine ⟨h.located.trans hnext.located, ?_⟩
  have := h.paid
  have := hnext.paid
  simp only [Reading.value_bind, Reading.rest_bind, Reading.notes_bind, strayCount_append]
  omega

end Accounts

end Readings

section Leaves

theorem expect_accounts (text : String) (ts : List Token) :
    Accounts c 0 ts (fun _ => 0) (expect c text ts) := by
  cases ts with
  | nil => exact .missed _ le_rfl
  | cons t ts =>
    simp only [expect]
    split
    · exact (Accounts.idle true ts).skip
    · exact .missed _ le_rfl

theorem sizedDelimiter_accounts (side : Vocabulary.Side) (ts : List Token) :
    Accounts c 0 ts (fun _ => 0) (sizedDelimiter c side ts) := by
  unfold sizedDelimiter
  split
  · exact (Accounts.idle _ _).mono (List.drop_suffix 2 ts)
  · cases ts with
    | nil => exact .missed _ le_rfl
    | cons t ts =>
      dsimp only
      split
      · exact (Accounts.idle _ _).skip
      · exact .missed _ le_rfl

theorem blockName_accounts (ts : List Token) :
    Accounts c 0 ts (fun _ => 0) (blockName c ts) :=
  ((expect_accounts "\x7d" _).forget _).mono (List.dropWhile_suffix _)

theorem endName_accounts (ts : List Token) : Accounts c 0 ts (fun _ => 0) (endName c ts) := by
  cases ts with
  | nil => exact .still le_rfl
  | cons t ts =>
    simp only [endName]
    split
    · exact ((blockName_accounts ts).forget _).skip
    · exact .still le_rfl

/-- After a token that is left out one cell more may be begun. -/
theorem skipStray_accounts (t : Token) (ts : List Token) :
    Accounts c 0 (t :: ts) (fun _ => 1) (skipStray c t ts) := by
  have hleft (e : Expectation) (he : isStray (noteAt e t) = true) :
      Accounts c 0 (t :: ts) (fun _ => 1) ⟨(), ts, [noteAt e t]⟩ := .left e he le_rfl
  unfold skipStray
  split
  · exact (hleft .matchingBegin rfl).bind fun _ => (endName_accounts ts).beside 1
  · split
    · exact (hleft .operand rfl).bind fun _ =>
        ((sizedDelimiter_accounts .right ts).forget _).beside 1
    · exact hleft .operand rfl

theorem blockEnd_accounts (name : String) (ts : List Token) :
    Accounts c 0 ts (fun _ => 0) (blockEnd c name ts) := by
  unfold blockEnd
  split
  · split
    · exact (endName_accounts _).mono (List.tail_suffix ts)
    · exact .missed _ le_rfl
  · exact (expect_accounts _ ts).forget _

theorem sizedClosing_accounts (ts : List Token) :
    Accounts c 0 ts (fun _ => 0) (sizedClosing c ts) := by
  cases ts with
  | nil => exact .missed _ le_rfl
  | cons t ts =>
    simp only [sizedClosing]
    split
    · exact (sizedDelimiter_accounts _ ts).skip
    · exact .missed _ le_rfl

end Leaves

section Phrases

/-- A cell that is just read is the last: where it ends, none is begun in its place. -/
def lastCell (c : Context) (filled : Bool) (ts : List Token) : ℤ :=
  if filled && atBoundary c.withinRows ts then 1 else 0

/-- What stands in front of `ts` weighs. In rows a first cell may be begun, and one where the last is
not of the place. -/
def weightBefore (c : Context) (ts : List Token) : Phrase → ℤ
  | .chain _ left | .scripts left | .strays left => excess left
  | .rows _ complete cells filled => tableExcess complete + rowExcess cells - lastCell c filled ts
  | .operand _ | .scriptArgument | .argument => 0

/-- All lists with fewer than `k` tokens account for what is read. -/
def Accounted (k : ℕ) : Prop :=
  ∀ phrase c ts, ts.length < k →
    Accounts c (weightBefore c ts phrase) ts excess (read phrase c ts)

theorem Accounted.start (h : Accounted k) (hk : ts.length < k) (phrase : Phrase)
    (hheld : weightBefore c ts phrase ≤ held) : Accounts c held ts excess (read phrase c ts) := by
  refine ⟨(h phrase c ts hk).located, ?_⟩
  have := (h phrase c ts hk).paid
  omega

/-- A phrase that goes on with nothing. -/
theorem Accounted.fresh (h : Accounted k) (hk : ts.length < k) (phrase : Phrase)
    (hheld : weightBefore c ts phrase = 0) : Accounts c 0 ts excess (read phrase c ts) :=
  h.start hk phrase hheld.le

/-- An end of a list that is short enough accounts for what is read. -/
theorem Accounted.suffix (h : Accounted k) (hk : ts.length < k) (hs : us <:+ ts)
    (phrase : Phrase) (hheld : weightBefore c us phrase ≤ held) :
    Accounts c held us excess (read phrase c us) :=
  h.start (hs.length_le.trans_lt hk) phrase hheld

end Phrases

section Keywords

variable (h : Accounted k)
include h

theorem bracket_accounts (opening : String) (hk : ts.length < k) :
    Accounts c 0 ts excess (bracket read c opening ts) := by
  simp only [bracket]
  apply Accounts.bind (h (.operand .sequence) c ts hk)
  intro hs
  exact (expect_accounts _ _).map fun _ => by simp [surplus]

theorem sizedBracket_accounts (hk : ts.length < k) :
    Accounts c 0 ts excess (sizedBracket read c ts) := by
  apply Accounts.bind (sizedDelimiter_accounts _ ts)
  intro hs
  apply Accounts.bind (h.fresh (hs.length_le.trans_lt hk) (.operand .sequence) rfl)
  intro hs'
  apply (sizedClosing_accounts _).map
  intro right
  split <;> simp [surplus]

theorem bound_accounts (mark : String) (hk : ts.length ≤ k) :
    Accounts c 0 ts partExcess (bound read c mark ts) := by
  cases ts with
  | nil => exact .still le_rfl
  | cons t ts =>
    simp only [bound]
    split
    · exact ((h.fresh hk .scriptArgument rfl).map fun _ => by simp [Expr.partTotal]).skip
    · exact .still le_rfl

theorem bounds_accounts (hk : ts.length ≤ k) :
    Accounts c 0 ts (fun p => partExcess p.1 + partExcess p.2) (bounds read c ts) := by
  unfold bounds
  split
  · apply Accounts.bind (bound_accounts h _ hk)
    intro hs
    apply (bound_accounts h _ (hs.length_le.trans hk)).map
    intro lower
    dsimp only
    omega
  · apply Accounts.bind (bound_accounts h _ hk)
    intro hs
    split
    · apply (bound_accounts h _ (hs.length_le.trans hk)).map
      intro upper
      dsimp only
      omega
    · next hlower =>
      apply Accounts.still
      rw [Option.not_isSome_iff_eq_none.1 hlower]
      rfl

theorem body_accounts (hk : ts.length < k) : Accounts c 0 ts partExcess (body read c ts) := by
  cases ts with
  | nil => exact .still le_rfl
  | cons t ts =>
    simp only [body]
    split
    · exact (h.fresh hk (.operand .factor) rfl).map fun _ => by simp [Expr.partTotal]
    · exact .still le_rfl

theorem large_accounts (operator : LargeOperator) (hk : ts.length < k) :
    Accounts c 0 ts excess (large read c operator ts) := by
  apply Accounts.bind (bounds_accounts h hk.le)
  intro hs
  exact (body_accounts h (Agree.length_le hs hk)).map fun _ => by simp [surplus]

theorem stackedFraction_accounts (hk : ts.length < k) :
    Accounts c 0 ts excess (stackedFraction read c ts) := by
  apply Accounts.bind (h.fresh hk .argument rfl)
  intro hs
  have hdenominator := h.fresh (c := c) (hs.length_le.trans_lt hk) .argument rfl
  refine hdenominator.map fun _ => ?_
  simp [surplus, Int.add_comm]

/-- A block without a cell is one cell short. -/
theorem block_accounts (name : String) (hk : ts.length < k) :
    Accounts c 0 ts excess (read (.rows name [] [] false) c ts) :=
  h (.rows name [] [] false) c ts hk

theorem latexBlock_accounts (keyword : Token) (hk : ts.length < k) :
    Accounts c 0 ts excess (latexBlock read c keyword ts) := by
  cases ts with
  | nil => exact .missed _ (by simp [surplus])
  | cons t ts =>
    simp only [latexBlock]
    split
    · refine (Accounts.bind (blockName_accounts ts) fun hs => ?_).skip
      exact block_accounts h _ (hs.length_le.trans_lt (Nat.lt_of_succ_lt hk))
    · exact .missed _ (by simp [surplus])

theorem legacyBlock_accounts (keyword : Token) (name : String) (hk : ts.length < k) :
    Accounts c 0 ts excess (legacyBlock read c keyword name ts) := by
  cases ts with
  | nil => exact .missed _ (by simp [literalOf, surplus])
  | cons t ts =>
    simp only [legacyBlock]
    split
    · exact (block_accounts h _ (Nat.lt_of_succ_lt hk)).skip
    · exact .missed _ (by simp [literalOf, surplus])

theorem dialectKeyword_accounts (t : Token) (hk : ts.length < k) :
    Accounts c 0 (t :: ts) excess (dialectKeyword read c t ts) := by
  have hunknown : Accounts c 0 (t :: ts) excess (unknownKeyword c t ts) := by
    apply Accounts.noted
    unfold keywordLiteral
    split <;> simp [literalOf, surplus]
  unfold dialectKeyword
  split
  · split
    · exact (stackedFraction_accounts h hk).skip
    · exact (stackedFraction_accounts h hk).skip
    · exact (stackedFraction_accounts h hk).skip
    · exact (latexBlock_accounts h t hk).skip
    · exact hunknown
  · split
    · exact (legacyBlock_accounts h t _ hk).skip
    · exact hunknown

theorem keywordForm_accounts (t : Token) (hk : ts.length < k) :
    Accounts c 0 (t :: ts) excess (keywordForm read c t ts) := by
  have hargument : Accounts c 0 ts excess (read .argument c ts) := h.fresh hk .argument rfl
  unfold keywordForm
  split
  · exact (hargument.map fun _ => by simp [surplus]).skip
  · exact (large_accounts h _ hk).skip
  · exact (large_accounts h _ hk).skip
  · exact (large_accounts h _ hk).skip
  · exact (sizedBracket_accounts h hk).skip
  · split
    · exact (hargument.map fun _ => by simp [surplus]).skip
    · exact dialectKeyword_accounts h t hk

end Keywords

section Operands

variable (h : Accounted k)
include h

theorem identifier_accounts (t : Token) (hk : ts.length ≤ k) :
    Accounts c 0 ts excess (identifier read c t ts) := by
  cases ts with
  | nil => exact .still (by simp [surplus])
  | cons u ts =>
    simp only [identifier]
    split
    · exact ((bracket_accounts h _ hk).map fun _ => by simp [surplus]).skip
    · split
      · exact ((sizedBracket_accounts h hk).map fun _ => by simp [surplus]).skip
      · exact .still (by simp [surplus])

theorem scripts_accounts (base : Expr) (hk : ts.length ≤ k) :
    Accounts c (excess base) ts excess (scripts read c base ts) := by
  cases ts with
  | nil => exact .still le_rfl
  | cons t ts =>
    have hscript (side : Script) : Accounts c (excess base) ts excess
        ((read .scriptArgument c ts).bind fun e rest =>
          read (.scripts (.script side base.unwrap e)) c rest) := by
      apply Accounts.bind ((h.fresh hk .scriptArgument rfl).beside (excess base))
      intro hs
      refine h.suffix hk hs _ ?_
      simp [weightBefore, surplus]
    simp only [scripts]
    split
    · exact (hscript _).skip
    · split
      · exact (hscript _).skip
      · exact .still le_rfl

theorem chain_accounts (level : Level) (left : Expr) (hk : ts.length ≤ k) :
    Accounts c (excess left) ts excess (chain read c level left ts) := by
  cases ts with
  | nil => exact .still le_rfl
  | cons t ts =>
    simp only [chain]
    split
    · exact .still le_rfl
    · next operator _ =>
      refine Accounts.skip ?_
      apply Accounts.bind ((h.fresh hk (.operand level.next) rfl).beside (excess left))
      intro hs
      exact h.suffix hk hs _ (Expr.excess_combine operator left _).le

omit h in
theorem symbolLiteral_excess (d : Dialect) (t : Token) : excess (symbolLiteral d t) = 0 := by
  unfold symbolLiteral
  split <;> simp [literalOf, surplus]

theorem primary_accounts (hk : ts.length ≤ k) : Accounts c 0 ts excess (primary read c ts) := by
  have hempty : excess .empty ≤ 0 := Expr.excess_empty.le
  cases ts with
  | nil => exact .missed _ hempty
  | cons t ts =>
    simp only [primary]
    split
    · exact .missed _ hempty
    · split
      · exact (identifier_accounts h t (Nat.le_of_lt hk)).skip
      · exact (Accounts.still (by simp [literalOf, surplus])).skip
      · exact keywordForm_accounts h t hk
      · split
        · exact (bracket_accounts h _ hk).skip
        · split
          · exact .still hempty
          · split
            · exact ((h.fresh hk (.operand .factor) rfl).map fun _ => by simp [surplus]).skip
            · exact (Accounts.still (symbolLiteral_excess _ _).le).skip

theorem factor_accounts (hk : ts.length ≤ k) : Accounts c 0 ts excess (factor read c ts) :=
  .bind (primary_accounts h hk) fun hs => scripts_accounts h _ (hs.length_le.trans hk)

theorem product_accounts (hk : ts.length ≤ k) : Accounts c 0 ts excess (product read c ts) :=
  .bind (factor_accounts h hk) fun hs => chain_accounts h _ _ (hs.length_le.trans hk)

theorem sum_accounts (hk : ts.length ≤ k) : Accounts c 0 ts excess (sum read c ts) :=
  .bind (product_accounts h hk) fun hs => chain_accounts h _ _ (hs.length_le.trans hk)

theorem relation_accounts (hk : ts.length ≤ k) : Accounts c 0 ts excess (relation read c ts) :=
  .bind (sum_accounts h hk) fun hs => chain_accounts h _ _ (hs.length_le.trans hk)

theorem sequence_accounts (hk : ts.length ≤ k) : Accounts c 0 ts excess (sequence read c ts) := by
  cases ts with
  | nil => exact .still Expr.excess_empty.le
  | cons t ts =>
    cases hb : c.isBoundary t with
    | true =>
      simp only [sequence, atBoundary, hb, if_true]
      exact .still Expr.excess_empty.le
    | false =>
      rw [sequence_starts hb]
      apply Accounts.bind (relation_accounts h hk)
      intro hs
      exact h (.chain .sequence _) c _ (Agree.length_le (relation_starts hb) hk)

theorem juxtaposed_accounts (left : Expr) (hk : ts.length ≤ k) :
    Accounts c (excess left) ts excess (juxtaposed read c left ts) := by
  cases ts with
  | nil => exact .still le_rfl
  | cons t ts =>
    cases hb : c.isBoundary t with
    | true =>
      simp only [juxtaposed, atBoundary, hb, if_true]
      exact .still le_rfl
    | false =>
      rw [juxtaposed_starts hb]
      have hright : Accounts c (excess left) (t :: ts) excess
          ((relation read c (t :: ts)).map (.binary "concat" left)) :=
        (relation_accounts h hk).map fun _ => by simp [surplus]
      apply Accounts.bind hright
      intro hs
      exact h (.chain .sequence _) c _ (Agree.length_le (relation_starts hb) hk)

theorem operand_accounts (level : Level) (hk : ts.length ≤ k) :
    Accounts c 0 ts excess (operand read c level ts) := by
  cases level with
  | sequence => exact sequence_accounts h hk
  | relation => exact relation_accounts h hk
  | sum => exact sum_accounts h hk
  | product => exact product_accounts h hk
  | factor => exact factor_accounts h hk

theorem latexArgument_accounts (hk : ts.length ≤ k) :
    Accounts c 0 ts excess (latexArgument read c ts) := by
  have hempty : excess .empty ≤ 0 := Expr.excess_empty.le
  cases ts with
  | nil => exact .missed _ hempty
  | cons t ts =>
    simp only [latexArgument]
    split
    · refine Accounts.skip ?_
      apply Accounts.bind (h (.operand .sequence) c ts hk)
      intro hs
      exact (expect_accounts _ _).map fun _ => by simp
    · split
      · exact .missed _ hempty
      · split
        · exact keywordForm_accounts h t hk
        · exact (Accounts.still (by simp [literalOf, surplus])).skip

theorem legacyScriptArgument_accounts (hk : ts.length ≤ k) :
    Accounts c 0 ts excess (legacyScriptArgument read c ts) := by
  have hempty : excess .empty ≤ 0 := Expr.excess_empty.le
  cases ts with
  | nil => exact .missed _ hempty
  | cons t ts =>
    simp only [legacyScriptArgument]
    split
    · exact ((bracket_accounts h _ hk).map fun _ => by simp).skip
    · split
      · exact .missed _ hempty
      · split
        · exact (Accounts.still (by simp [surplus])).skip
        · exact (Accounts.still (by simp [literalOf, surplus])).skip
        · exact keywordForm_accounts h t hk
        · split
          · exact (bracket_accounts h _ hk).skip
          · split
            · exact .still hempty
            · exact (Accounts.still (symbolLiteral_excess _ _).le).skip

theorem scriptArgument_accounts (hk : ts.length ≤ k) :
    Accounts c 0 ts excess (scriptArgument read c ts) := by
  unfold scriptArgument
  split
  · exact latexArgument_accounts h hk
  · exact legacyScriptArgument_accounts h hk

theorem argument_accounts (hk : ts.length ≤ k) : Accounts c 0 ts excess (argument read c ts) := by
  unfold argument
  split
  · exact latexArgument_accounts h hk
  · exact (factor_accounts h hk).map fun _ => by simp

end Operands

section Rows

/-- Where the last cell is that of the place, one is begun only after a mark or a token left out. -/
theorem lastCell_nonneg (filled : Bool) (ts : List Token) : 0 ≤ lastCell c filled ts := by
  unfold lastCell
  split <;> decide

theorem lastCell_le_one (filled : Bool) (ts : List Token) : lastCell c filled ts ≤ 1 := by
  unfold lastCell
  split <;> decide

theorem rows_end_accounts (name : String) (complete : List (List Expr)) (cells : List Expr)
    (filled : Bool) (ts : List Token) :
    Accounts c (tableExcess complete + rowExcess cells - lastCell c filled ts) ts excess
      ((blockEnd c name ts).map fun _ => .block name (closeRow complete cells)) := by
  refine (blockEnd_accounts name ts).map fun _ => ?_
  rw [Expr.excess_block, Expr.tableExcess_closeRow]
  have := lastCell_le_one (c := c) filled ts
  omega

variable (h : Accounted k)
include h

/-- A mark between rows closes a row, and a cell may be begun in the next. -/
theorem rows_break_accounts (name : String) (complete : List (List Expr)) (cells : List Expr)
    (filled : Bool) (ht : endsRow c.dialect t = true) (hk : ts.length < k) :
    Accounts c (tableExcess complete + rowExcess cells - lastCell c filled (t :: ts)) (t :: ts) excess
      (read (.rows name (closeRow complete cells) [] false) c ts) := by
  refine Accounts.mark (h.start hk _ ?_) (by simp [endsCell, ht])
  have hlast := lastCell_le_one (c := c) filled (t :: ts)
  have hopen : lastCell c false ts = 0 := rfl
  simp only [weightBefore, Expr.tableExcess_closeRow, hopen, rowExcess, List.map_nil, List.sum_nil]
  omega

/-- After a mark between cells the next is begun; the cell in front of it may be empty. -/
theorem rows_mark_accounts (name : String) (complete : List (List Expr)) (cells : List Expr)
    (filled : Bool) (ht : t.isSymbol "&" = true) (hk : ts.length < k) :
    Accounts c (tableExcess complete + rowExcess cells - lastCell c filled (t :: ts)) (t :: ts) excess
      (read (.rows name complete (if filled then cells else cells ++ [.empty]) false) c ts) := by
  refine Accounts.mark (h.start hk _ ?_) (by simp [endsCell, ht])
  have hlast := lastCell_le_one (c := c) filled (t :: ts)
  have hopen : lastCell c false ts = 0 := rfl
  simp only [weightBefore, hopen]
  cases filled with
  | true =>
    simp only [if_true]
    omega
  | false =>
    have hopen' : lastCell c false (t :: ts) = 0 := rfl
    simp only [Bool.false_eq_true, if_false, Expr.rowExcess_append, Expr.excess_empty, hopen']
    omega

/-- A cell that is read ends at a boundary, so it is the last of its place. -/
theorem rows_cell_accounts (name : String) (complete : List (List Expr)) (cells : List Expr)
    (filled : Bool) (ht : c.withinRows.isBoundary t = false) (hk : (t :: ts).length ≤ k) :
    Accounts c (tableExcess complete + rowExcess cells - lastCell c filled (t :: ts)) (t :: ts) excess
      ((sequence read c.withinRows (t :: ts)).bind fun e rest =>
        read (.rows name complete (cells ++ [e]) true) c rest) := by
  have hcontent := sequence_accounts (c := c.withinRows) h hk
  have hcell : Accounts c 0 (t :: ts) excess (sequence read c.withinRows (t :: ts)) :=
    ⟨hcontent.located, hcontent.paid⟩
  apply Accounts.bind (hcell.beside _)
  intro hs
  refine h.suffix hk (sequence_takes ht ts) _ ?_
  have hopen : lastCell c filled (t :: ts) = 0 := by simp [lastCell, atBoundary, ht]
  have hlast : lastCell c true (sequence read c.withinRows (t :: ts)).rest = 1 := by
    simp [lastCell, sequence_ends]
  simp only [weightBefore, Expr.rowExcess_append, hopen, hlast]
  omega

theorem rows_accounts (name : String) (complete : List (List Expr)) (cells : List Expr)
    (filled : Bool) (hk : ts.length ≤ k) :
    Accounts c (tableExcess complete + rowExcess cells - lastCell c filled ts) ts excess
      (rows read c name complete cells filled ts) := by
  cases ts with
  | nil => exact rows_end_accounts name complete cells filled []
  | cons t ts =>
    simp only [rows]
    split
    · exact rows_end_accounts name complete cells filled (t :: ts)
    · split
      · next hrow => exact rows_break_accounts h name complete cells filled hrow hk
      · next hrow =>
        split
        · next hcell => exact rows_mark_accounts h name complete cells filled hcell hk
        · next hcell =>
          split
          · apply Accounts.bind ((skipStray_accounts t ts).beside _)
            intro hs
            refine h.suffix hk (skipStray_settled t ts).2 _ ?_
            have := lastCell_le_one (c := c) filled (t :: ts)
            have := lastCell_nonneg (c := c) filled (skipStray c t ts).rest
            simp only [weightBefore]
            omega
          · next hb =>
            have hb' : c.withinRows.isBoundary t = false :=
              (isBoundary_withinRows_iff (by simpa using hrow) (by simpa using hcell)).trans
                (by simpa using hb)
            rw [if_pos (sequence_progress hb' ts)]
            exact rows_cell_accounts h name complete cells filled hb' hk

theorem strays_accounts (left : Expr) (hk : ts.length ≤ k) :
    Accounts c (excess left) ts excess (strays read c left ts) := by
  cases ts with
  | nil => exact .still le_rfl
  | cons t ts =>
    simp only [strays]
    split
    · exact .still le_rfl
    · apply Accounts.bind ((skipStray_accounts t ts).beside (excess left))
      intro hs
      have hs' := (skipStray_settled (c := c) t ts).2
      have hright := h.fresh (c := c) (hs'.length_le.trans_lt hk) (.operand .sequence) rfl
      apply Accounts.bind (hright.beside _)
      intro hs''
      refine h.suffix hk (hs''.trans hs') _ ?_
      simp only [weightBefore, Expr.excess_beside]
      omega

theorem step_accounts (phrase : Phrase) (hk : ts.length ≤ k) :
    Accounts c (weightBefore c ts phrase) ts excess (step read phrase c ts) := by
  cases phrase with
  | operand level => exact operand_accounts h level hk
  | chain level left =>
    cases level with
    | sequence => exact juxtaposed_accounts h left hk
    | relation => exact chain_accounts h .relation left hk
    | sum => exact chain_accounts h .sum left hk
    | product => exact chain_accounts h .product left hk
    | factor => exact chain_accounts h .factor left hk
  | scripts base => exact scripts_accounts h base hk
  | scriptArgument => exact scriptArgument_accounts h hk
  | argument => exact argument_accounts h hk
  | rows name complete cells filled => exact rows_accounts h name complete cells filled hk
  | strays left => exact strays_accounts h left hk

end Rows

section Texts

/-- Lists of any length account for what is read. -/
theorem accounted (k : ℕ) : Accounted k :=
  read_below (fun phrase c ts => Accounts c (weightBefore c ts phrase) ts excess)
    (fun _ ih phrase _ _ hk => step_accounts ih phrase hk) k

theorem read_accounts (phrase : Phrase) (c : Context) (ts : List Token) :
    Accounts c (weightBefore c ts phrase) ts excess (read phrase c ts) :=
  accounted (ts.length + 1) phrase c ts (Nat.lt_succ_self _)

theorem readText_accounts (c : Context) (ts : List Token) :
    Accounts c 0 ts excess (readText c ts) := by
  apply Accounts.bind (read_accounts (.operand .sequence) c ts)
  intro hs
  exact read_accounts (.strays _) c _

end Texts

end MathMarkup.Grammar
