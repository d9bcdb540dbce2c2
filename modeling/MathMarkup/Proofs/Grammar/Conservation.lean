import MathMarkup.Proofs.Expr.Occurrences
import MathMarkup.Proofs.Grammar.Stop
import MathMarkup.Proofs.Grammar.Tally

/-! No identifier and no number is lost or doubled on the way to an expression, whatever does not fit.
Each reading leaves as many literals of a value as there were: those in what is read already, and those
that the tokens ahead are. -/
namespace MathMarkup.Grammar

open MathMarkup.Expr (occurrences partOccurrences rowOccurrences tableOccurrences)

variable {α β : Type} {d : Dialect} {c : Context} {w : String} {t : Token} {ts us : List Token}
  {held held' n : ℕ}

section Readings

/-- With those `held` before, a reading of `ts` keeps the number of literals of the value. -/
structure Tallies (d : Dialect) (w : String) (held : ℕ) (ts : List Token) (count : α → ℕ)
    (r : Reading α) : Prop where
  suffix : r.rest <:+ ts
  total : count r.value + tally d w r.rest = held + tally d w ts

namespace Tallies

variable {count : α → ℕ} {count' : β → ℕ} {r : Reading α}

/-- Nothing is taken. -/
theorem still {a : α} (h : count a = held) (notes : List Diagnostic) :
    Tallies d w held ts count ⟨a, ts, notes⟩ :=
  ⟨List.suffix_refl ts, by rw [h]⟩

/-- Nothing is taken, and what is there is no expression. -/
theorem idle (a : α) (ts : List Token) (notes : List Diagnostic) :
    Tallies d w 0 ts (fun _ => 0) ⟨a, ts, notes⟩ :=
  ⟨List.suffix_refl ts, rfl⟩

theorem mono (h : Tallies d w held us count r) (hs : us <:+ ts)
    (ht : tally d w us = tally d w ts) : Tallies d w held ts count r :=
  ⟨h.suffix.trans hs, ht ▸ h.total⟩

theorem skip (h : Tallies d w held ts count r) (ht : tally d w (t :: ts) = tally d w ts) :
    Tallies d w held (t :: ts) count r :=
  h.mono (List.suffix_cons t ts) ht.symm

/-- A token that is a literal itself. -/
theorem take {k : ℕ} (h : Tallies d w (held + k) ts count r)
    (ht : tally d w (t :: ts) = k + tally d w ts) : Tallies d w held (t :: ts) count r :=
  ⟨h.suffix.trans (List.suffix_cons t ts), by rw [h.total, ht, Nat.add_assoc]⟩

theorem map {f : α → β} (h : Tallies d w held ts count r)
    (hf : ∀ a, count' (f a) + held = held' + count a) : Tallies d w held' ts count' (r.map f) := by
  have htotal := h.total
  have hvalue := hf r.value
  refine ⟨h.suffix, ?_⟩
  rw [Reading.value_map, Reading.rest_map]
  omega

theorem forget (h : Tallies d w 0 ts (fun _ => 0) r) (f : α → β) :
    Tallies d w 0 ts (fun _ => 0) (r.map f) :=
  ⟨h.suffix, h.total⟩

/-- What is read already may hold more. -/
theorem beside (h : Tallies d w held ts count r) (k : ℕ) :
    Tallies d w (k + held) ts (fun a => k + count a) r :=
  ⟨h.suffix, by rw [Nat.add_assoc, h.total, Nat.add_assoc]⟩

theorem bind {f : α → List Token → Reading β} (h : Tallies d w held ts count r)
    (hf : r.rest <:+ ts → Tallies d w (count r.value) r.rest count' (f r.value r.rest)) :
    Tallies d w held ts count' (r.bind f) := by
  have hnext := hf h.suffix
  exact ⟨hnext.suffix.trans h.suffix, hnext.total.trans h.total⟩

end Tallies

def AllOrdinary (d : Dialect) (w : String) (ts : List Token) : Prop := ∀ t ∈ ts, Ordinary d w t

theorem AllOrdinary.suffix (h : AllOrdinary d w ts) (hs : us <:+ ts) : AllOrdinary d w us :=
  fun t ht => h t (hs.subset ht)

theorem AllOrdinary.tail (h : AllOrdinary d w (t :: ts)) : AllOrdinary d w ts :=
  h.suffix (List.suffix_cons t ts)

theorem AllOrdinary.head (h : AllOrdinary d w (t :: ts)) : Ordinary d w t := h t (by simp)

end Readings

section Leaves

theorem expect_tallies (text : String) (ts : List Token) :
    Tallies d w 0 ts (fun _ => 0) (expect c text ts) := by
  cases ts with
  | nil => exact .idle _ _ _
  | cons t ts =>
    simp only [expect]
    split
    · next h => exact (Tallies.idle _ _ _).skip (tally_isSymbol h)
    · exact .idle _ _ _

theorem sizedDelimiter_tallies (side : Vocabulary.Side) (ts : List Token) :
    Tallies d w 0 ts (fun _ => 0) (sizedDelimiter c side ts) := by
  unfold sizedDelimiter
  split
  · next h =>
    match ts with
    | [] | [t] => simp [isDoubleBar] at h
    | t :: u :: ts =>
      simp only [isDoubleBar, Bool.and_eq_true] at h
      obtain ⟨⟨⟨-, ht⟩, hu⟩, -⟩ := h
      exact ((Tallies.idle _ _ _).skip (tally_isSymbol hu)).skip (tally_isSymbol ht)
  · cases ts with
    | nil => exact .idle _ _ _
    | cons t ts =>
      dsimp only
      split
      · next h =>
        have hk : t.kind = .symbol := by
          by_contra hk
          simp [delimiter?, hk] at h
        exact (Tallies.idle _ _ _).skip (tally_symbol hk)
      · exact .idle _ _ _

/-- The name of a block goes with the keyword in front of it. -/
theorem blockName_tallies {u : Token} (hd : d = .latex)
    (ht : t.word? = some "begin" ∨ t.word? = some "end") (hu : u.isSymbol "\x7b" = true)
    (ts : List Token) : Tallies d w 0 (t :: u :: ts) (fun _ => 0) (blockName c ts) := by
  have hname := expect_tallies (d := d) (w := w) (c := c) "\x7d" (ts.dropWhile inBlockName)
  have hs : ts.dropWhile inBlockName <:+ t :: u :: ts :=
    ((List.dropWhile_suffix _).trans (List.suffix_cons u ts)).trans (List.suffix_cons t _)
  exact (hname.forget _).mono hs (tally_named hd ht hu).symm

theorem endName_tallies (hd : d = .latex) (ht : t.word? = some "end") (ts : List Token) :
    Tallies d w 0 (t :: ts) (fun _ => 0) (endName c ts) := by
  obtain ⟨hk, -⟩ := lower_of_word ht
  have hliteral : tokenLiteral? d t ts = none := by simp [tokenLiteral?, hk, blockLiteral?, hd, ht]
  cases ts with
  | nil => exact (Tallies.idle _ _ _).skip (tally_of_plain hliteral (by simp [namesBlock, startsGroup]))
  | cons u ts =>
    simp only [endName]
    split
    · next hu => exact (blockName_tallies hd (.inr ht) hu ts).forget _
    · next hu =>
      exact (Tallies.idle _ _ _).skip
        (tally_of_plain hliteral (by simp [namesBlock, startsGroup_cons, hu]))

theorem skipStray_tallies (ho : Ordinary c.dialect w t) (hb : c.isBoundary t = true)
    (ts : List Token) : Tallies c.dialect w 0 (t :: ts) (fun _ => 0) (skipStray c t ts) := by
  unfold skipStray
  split
  · next h =>
    have hend := endName_tallies (c := c) (w := w) h.1 h.2 ts
    exact ⟨hend.suffix, hend.total⟩
  · next h =>
    have ht : tally c.dialect w (t :: ts) = tally c.dialect w ts := tally_boundary ho hb h
    split
    · have hdelimiter := sizedDelimiter_tallies (d := c.dialect) (w := w) (c := c) .right ts
      exact (Tallies.bind (.idle _ _ _) fun _ => hdelimiter.forget _).skip ht
    · exact (Tallies.idle _ _ _).skip ht

theorem blockEnd_tallies (name : String) (ts : List Token) :
    Tallies c.dialect w 0 ts (fun _ => 0) (blockEnd c name ts) := by
  unfold blockEnd
  split
  · next hd =>
    split
    · next h =>
      match ts with
      | [] | [t] => simp [startsEnd] at h
      | t :: u :: ts =>
        simp only [startsEnd, Bool.and_eq_true, decide_eq_true_eq] at h
        exact endName_tallies hd h.1.1.1 (u :: ts)
    · exact .idle _ _ _
  · exact (expect_tallies _ ts).forget _

theorem sizedClosing_tallies (hg : AllOrdinary d w ts) :
    Tallies d w 0 ts (fun _ => 0) (sizedClosing c ts) := by
  cases ts with
  | nil => exact .idle _ _ _
  | cons t ts =>
    simp only [sizedClosing]
    split
    · next h =>
      exact (sizedDelimiter_tallies _ ts).skip (tally_word hg.head h (by decide) (by decide))
    · exact .idle _ _ _

end Leaves

section Phrases

/-- The literals in what is read already. -/
def heldBy (w : String) : Phrase → ℕ
  | .chain _ left | .scripts left | .strays left => occurrences w left
  | .rows _ complete cells _ => tableOccurrences w complete + rowOccurrences w cells
  | .operand _ | .scriptArgument | .argument => 0

/-- Left over are only tokens that a sequence stops in front of. -/
def Phrase.Fits (c : Context) (ts : List Token) : Phrase → Prop
  | .strays _ => atBoundary c ts = true
  | _ => True

/-- All lists with fewer than `n` tokens keep their literals. -/
def Counted (w : String) (n : ℕ) : Prop :=
  ∀ phrase c ts, ts.length < n → AllOrdinary c.dialect w ts → phrase.Fits c ts →
    Tallies c.dialect w (heldBy w phrase) ts (occurrences w) (read phrase c ts)

/-- An end of a list that is short enough keeps its literals. -/
theorem Counted.suffix (h : Counted w n) (hg : AllOrdinary c.dialect w ts) (hn : ts.length < n)
    (hs : us <:+ ts) (phrase : Phrase) (hf : phrase.Fits c us) :
    Tallies c.dialect w (heldBy w phrase) us (occurrences w) (read phrase c us) :=
  h phrase c us (hs.length_le.trans_lt hn) (hg.suffix hs) hf

theorem Counted.resume (h : Counted w n) (hg : AllOrdinary c.dialect w ts) (hn : ts.length < n)
    (hs : us <:+ ts) {phrase : Phrase} (hf : phrase.Fits c us) (hheld : heldBy w phrase = held) :
    Tallies c.dialect w held us (occurrences w) (read phrase c us) :=
  hheld ▸ h.suffix hg hn hs phrase hf

end Phrases

section Keywords

variable (h : Counted w n)
include h

theorem bracket_tallies (hg : AllOrdinary c.dialect w ts) (opening : String) (hn : ts.length < n) :
    Tallies c.dialect w 0 ts (occurrences w) (bracket read c opening ts) := by
  simp only [bracket]
  apply Tallies.bind (h (.operand .sequence) c ts hn hg trivial)
  intro hs
  exact (expect_tallies _ _).map fun _ => by simp

theorem sizedBracket_tallies (hg : AllOrdinary c.dialect w ts) (hn : ts.length < n) :
    Tallies c.dialect w 0 ts (occurrences w) (sizedBracket read c ts) := by
  apply Tallies.bind (sizedDelimiter_tallies _ ts)
  intro hs
  apply Tallies.bind (h.suffix hg hn hs (.operand .sequence) trivial)
  intro hs'
  apply (sizedClosing_tallies (hg.suffix (hs'.trans hs))).map
  intro right
  split <;> simp

theorem bound_tallies (hg : AllOrdinary c.dialect w ts) (mark : String) (hn : ts.length ≤ n) :
    Tallies c.dialect w 0 ts (partOccurrences w) (bound read c mark ts) := by
  cases ts with
  | nil => exact .still (by rfl) _
  | cons t ts =>
    simp only [bound]
    split
    · next hmark =>
      have hargument := h .scriptArgument c ts hn hg.tail trivial
      exact (hargument.map fun _ => by simp [heldBy, partOccurrences]).skip (tally_isSymbol hmark)
    · exact .still (by rfl) _

theorem bounds_tallies (hg : AllOrdinary c.dialect w ts) (hn : ts.length ≤ n) :
    Tallies c.dialect w 0 ts (fun p => partOccurrences w p.1 + partOccurrences w p.2)
      (bounds read c ts) := by
  unfold bounds
  split
  · apply Tallies.bind (bound_tallies h hg _ hn)
    intro hs
    apply (bound_tallies h (hg.suffix hs) _ (hs.length_le.trans hn)).map
    intro lower
    dsimp only
    omega
  · apply Tallies.bind (bound_tallies h hg _ hn)
    intro hs
    split
    · apply (bound_tallies h (hg.suffix hs) _ (hs.length_le.trans hn)).map
      intro upper
      dsimp only
      omega
    · next hlower =>
      apply Tallies.still
      rw [Option.not_isSome_iff_eq_none.1 hlower]
      rfl

theorem body_tallies (hg : AllOrdinary c.dialect w ts) (hn : ts.length < n) :
    Tallies c.dialect w 0 ts (partOccurrences w) (body read c ts) := by
  cases ts with
  | nil => exact .still (by rfl) _
  | cons t ts =>
    simp only [body]
    split
    · have hoperand := h (.operand .factor) c _ hn hg trivial
      exact hoperand.map fun _ => by simp [partOccurrences, heldBy]
    · exact .still (by rfl) _

theorem large_tallies (hg : AllOrdinary c.dialect w ts) (operator : LargeOperator)
    (hn : ts.length < n) :
    Tallies c.dialect w 0 ts (occurrences w) (large read c operator ts) := by
  apply Tallies.bind (bounds_tallies h hg hn.le)
  intro hs
  exact (body_tallies h (hg.suffix hs) (Agree.length_le hs hn)).map fun _ => by simp

theorem stackedFraction_tallies (hg : AllOrdinary c.dialect w ts) (hn : ts.length < n) :
    Tallies c.dialect w 0 ts (occurrences w) (stackedFraction read c ts) := by
  apply Tallies.bind (h .argument c ts hn hg trivial)
  intro hs
  exact (h.suffix hg hn hs .argument trivial).map fun _ => by simp [heldBy]

theorem latexBlock_tallies (hd : c.dialect = .latex) (ht : t.word? = some "begin")
    (hg : AllOrdinary c.dialect w ts) (hn : ts.length < n) :
    Tallies c.dialect w 0 (t :: ts) (occurrences w) (latexBlock read c t ts) := by
  obtain ⟨hk, -⟩ := lower_of_word ht
  have hliteral (hgroup : startsGroup ts = false) : tally c.dialect w (t :: ts) =
      (if "\\" ++ t.text = w then 1 else 0) + tally c.dialect w ts := by
    simp [tally, tokenLiterals, tokenLiteral?, namesBlock, hk, hgroup, blockLiteral?, hd, ht,
      List.count_cons, Nat.add_comm]
  cases ts with
  | nil => exact (Tallies.still (by simp) _).take (hliteral rfl)
  | cons u ts =>
    simp only [latexBlock]
    split
    · next hu =>
      apply Tallies.bind (blockName_tallies hd (.inl ht) hu ts)
      intro hs
      have hs' := (blockName_settled (c := c) ts).2.trans (List.suffix_cons u ts)
      exact h.suffix hg hn hs' (.rows _ [] [] false) trivial
    · next hu =>
      exact (Tallies.still (by simp) _).take (hliteral (by simpa [startsGroup_cons] using hu))

theorem legacyBlock_tallies (hd : c.dialect = .legacy) (ht : t.kind = .keyword) {block : Block}
    (hblock : Block.ofLegacy? t.text = some block) (hg : AllOrdinary c.dialect w ts)
    (hn : ts.length < n) (name : String) :
    Tallies c.dialect w 0 (t :: ts) (occurrences w) (legacyBlock read c t name ts) := by
  have hnames : namesBlock c.dialect t ts = false := by simp [namesBlock, hd]
  have hliteral (hgroup : startsGroup ts = false) : tally c.dialect w (t :: ts) =
      (if t.text = w then 1 else 0) + tally c.dialect w ts := by
    simp [tally, tokenLiterals, tokenLiteral?, namesBlock, ht, hgroup, blockLiteral?, hd, hblock,
      List.count_cons, Nat.add_comm]
  cases ts with
  | nil => exact (Tallies.still (by simp [literalOf]) _).take (hliteral rfl)
  | cons u ts =>
    simp only [legacyBlock]
    split
    · next hu =>
      have hrows := h.suffix hg hn (List.suffix_cons u ts) (.rows name [] [] false) trivial
      refine (hrows.skip (tally_isSymbol hu)).skip (tally_of_plain ?_ hnames)
      simp [tokenLiteral?, ht, startsGroup_cons, hu]
    · next hu =>
      exact (Tallies.still (by simp [literalOf]) _).take
        (hliteral (by simpa [startsGroup_cons] using hu))

theorem dialectKeyword_tallies (ho : Ordinary c.dialect w t) (hk : t.kind = .keyword)
    (hdecoration : decoration? c.dialect t = none) (hshared : Text.lower t.text ∉ sharedWords)
    (hg : AllOrdinary c.dialect w ts) (hn : ts.length < n) :
    Tallies c.dialect w 0 (t :: ts) (occurrences w) (dialectKeyword read c t ts) := by
  have hfacts := keyword_facts c.dialect t.text (ho.keyword hk) hshared
  rw [decoration?_congr] at hfacts
  have hkeyword := hfacts hdecoration
  have hword : t.word? = some (Text.lower t.text) := by simp [Token.word?, hk]
  unfold dialectKeyword
  cases hd : c.dialect with
  | latex =>
    rw [hd] at hkeyword
    have hfraction (hmem : Text.lower t.text ∈ fractionWords) :
        Tallies c.dialect w 0 (t :: ts) (occurrences w) (stackedFraction read c ts) := by
      have hmem' := List.mem_append_right sharedWords hmem
      refine (stackedFraction_tallies h hg hn).skip (tally_word ho hword hmem' ?_)
      rintro hend
      rw [hend] at hmem
      exact absurd hmem (by decide)
    rcases List.mem_cons.1 hkeyword with hbegin | hmem
    · rw [hbegin] at hword
      simp only [hword]
      exact hd ▸ latexBlock_tallies h hd hword hg hn
    · have hcases : Text.lower t.text = "frac" ∨ Text.lower t.text = "dfrac" ∨
          Text.lower t.text = "tfrac" := by simpa [fractionWords] using hmem
      rcases hcases with hx | hx | hx <;>
      · rw [hx] at hword
        simp only [hword]
        exact hd ▸ hfraction hmem
  | legacy =>
    rw [hd] at hkeyword
    obtain ⟨block, hblock⟩ := Option.isSome_iff_exists.1 hkeyword
    simp only [hblock]
    exact hd ▸ legacyBlock_tallies h hd hk hblock hg hn block.name

/-- A phrase that starts with a keyword keeps its literals, and the keyword is none of them. -/
theorem keywordForm_tallies (ho : Ordinary c.dialect w t) (hk : t.kind = .keyword)
    (hb : c.isBoundary t = false) (hp : isProductOperator t = false)
    (hg : AllOrdinary c.dialect w ts) (hn : ts.length < n) :
    Tallies c.dialect w 0 (t :: ts) (occurrences w) (keywordForm read c t ts) := by
  have hword : t.word? = some (Text.lower t.text) := by simp [Token.word?, hk]
  have hplain {word : String} (hw : t.word? = some word) (hmem : word ∈ sharedWords)
      (hend : word ≠ "end") : tally c.dialect w (t :: ts) = tally c.dialect w ts :=
    tally_word ho hw (List.mem_append_left _ hmem) hend
  have hargument := h .argument c ts hn hg trivial
  unfold keywordForm
  split
  · next hw => exact (hargument.map fun _ => by simp [heldBy]).skip (hplain hw (by decide) (by decide))
  · next hw => exact (large_tallies h hg _ hn).skip (hplain hw (by decide) (by decide))
  · next hw => exact (large_tallies h hg _ hn).skip (hplain hw (by decide) (by decide))
  · next hw => exact (large_tallies h hg _ hn).skip (hplain hw (by decide) (by decide))
  · next hw => exact (sizedBracket_tallies h hg hn).skip (hplain hw (by decide) (by decide))
  · next hsqrt hint hoint hsum hleft =>
    have hboundary : Text.lower t.text ≠ "right" ∧ Text.lower t.text ≠ "end" := by
      simpa [Context.isBoundary, Token.isClosing, endsRow, Token.isSymbol, hk, hword] using hb
    split
    · next decoration hdecoration =>
      refine (hargument.map fun _ => by simp [heldBy]).skip (tally_keyword ho hk (.inr ?_) ?_)
      · simp [hdecoration]
      · simp [hword, hboundary.2]
    · next hdecoration =>
      refine dialectKeyword_tallies h ho hk hdecoration ?_ hg hn
      have hproduct : Text.lower t.text ≠ "times" ∧ Text.lower t.text ≠ "over" ∧
          Text.lower t.text ≠ "atop" := by
        simpa [isProductOperator, operator?, Token.isSymbol, hk, hword] using hp
      rw [hword] at hsqrt hint hoint hsum hleft
      simp only [Option.some.injEq] at hsqrt hint hoint hsum hleft
      simp only [sharedWords, List.mem_cons, List.not_mem_nil, or_false, not_or]
      exact ⟨hsqrt, hint, hoint, hsum, hleft, hboundary.1, hboundary.2, hproduct⟩

end Keywords

section Operators

theorem tally_operator {level : Level} {operator : String} (ho : Ordinary d w t)
    (h : operator? level t = some operator) : tally d w (t :: ts) = tally d w ts := by
  obtain ⟨hmark, -⟩ | ⟨hword, hmem⟩ := operator_inv h
  · exact tally_isSymbol hmark
  · have hall : ∀ x ∈ operatorWords level, x ∈ sharedWords ++ fractionWords ∧ x ≠ "end" := by
      cases level <;> decide
    exact tally_word ho hword (hall _ hmem).1 (hall _ hmem).2

variable (h : Counted w n)
include h

theorem identifier_tallies (hk : t.kind = .identifier) (hg : AllOrdinary c.dialect w ts)
    (hn : ts.length ≤ n) :
    Tallies c.dialect w 0 (t :: ts) (occurrences w) (identifier read c t ts) := by
  have htake : tally c.dialect w (t :: ts) =
      (if identifierValue c.dialect t.text = w then 1 else 0) + tally c.dialect w ts :=
    tally_identifier hk
  cases ts with
  | nil => exact (Tallies.still (by simp) _).take htake
  | cons u ts =>
    simp only [identifier]
    split
    · next hopen =>
      have hu : u.kind = .symbol := by
        simp only [Token.isOpening, Bool.and_eq_true, decide_eq_true_eq] at hopen
        exact hopen.1
      have hbracket := (bracket_tallies h hg.tail u.text hn).skip (tally_symbol hu)
      exact (hbracket.map fun _ => by simp [Nat.add_comm]).take htake
    · split
      · next hleft =>
        have hbracket := (sizedBracket_tallies h hg.tail hn).skip
          (tally_word hg.head hleft (by decide) (by decide))
        exact (hbracket.map fun _ => by simp [Nat.add_comm]).take htake
      · exact (Tallies.still (by simp) _).take htake

theorem scripts_tallies (hg : AllOrdinary c.dialect w ts) (base : Expr) (hn : ts.length ≤ n) :
    Tallies c.dialect w (occurrences w base) ts (occurrences w) (scripts read c base ts) := by
  cases ts with
  | nil => exact .still rfl _
  | cons t ts =>
    have hscript (side : Script) : Tallies c.dialect w (occurrences w base) ts (occurrences w)
        ((read .scriptArgument c ts).bind fun e rest =>
          read (.scripts (.script side base.unwrap e)) c rest) := by
      apply Tallies.bind ((h .scriptArgument c ts hn hg.tail trivial).beside (occurrences w base))
      intro hs
      exact h.resume hg.tail hn hs trivial (by simp [heldBy])
    simp only [scripts]
    split
    · next hmark => exact (hscript _).skip (tally_isSymbol hmark)
    · split
      · next hmark => exact (hscript _).skip (tally_isSymbol hmark)
      · exact .still rfl _

theorem chain_tallies (hg : AllOrdinary c.dialect w ts) (level : Level) (left : Expr)
    (hn : ts.length ≤ n) :
    Tallies c.dialect w (occurrences w left) ts (occurrences w) (chain read c level left ts) := by
  cases ts with
  | nil => exact .still rfl _
  | cons t ts =>
    simp only [chain]
    split
    · exact .still rfl _
    · next operator hoperator =>
      refine Tallies.skip ?_ (tally_operator hg.head hoperator)
      have hright := h (.operand level.next) c ts hn hg.tail trivial
      apply Tallies.bind (hright.beside (occurrences w left))
      intro hs
      exact h.resume hg.tail hn hs trivial (Expr.occurrences_combine w operator left _)

end Operators

section Operands

/-- A token that is read, and neither a word nor a number nor a keyword, is a symbol. -/
theorem kind_of_others (ho : Ordinary d w t) (hb : c.isBoundary t = false)
    (hi : t.kind ≠ .identifier) (hn : t.kind ≠ .number) (hk : t.kind ≠ .keyword) :
    t.kind = .symbol := by
  have hsignificant := ho.significant
  cases hkind : t.kind with
  | symbol => rfl
  | identifier | number | keyword => contradiction
  | space | unknown => simp [Token.isSignificant, hkind] at hsignificant
  | stop => simp [isBoundary_of_stop hkind] at hb

/-- The literal that a symbol is does not have the value. -/
theorem occurrences_symbolLiteral (hl : Vocabulary.lineBreak ≠ w) (ho : Ordinary d w t)
    (hk : t.kind = .symbol) : occurrences w (symbolLiteral c.dialect t) = 0 := by
  have htext := ho.symbol hk
  unfold symbolLiteral
  split <;> simp [literalOf, hl, htext]

theorem occurrences_literalOf (ho : Ordinary d w t) (hk : t.kind = .symbol) :
    occurrences w (literalOf t) = 0 := by
  simp [literalOf, ho.symbol hk]

variable (h : Counted w n) (hw : w ≠ "") (hl : Vocabulary.lineBreak ≠ w)
include h hw hl

theorem primary_tallies (hg : AllOrdinary c.dialect w ts) (hn : ts.length ≤ n) :
    Tallies c.dialect w 0 ts (occurrences w) (primary read c ts) := by
  have hempty := Expr.occurrences_empty hw
  cases ts with
  | nil => exact .still hempty _
  | cons t ts =>
    simp only [primary]
    split
    · exact .still hempty _
    · next hstart =>
      rw [Bool.or_eq_true, not_or, Bool.not_eq_true, Bool.not_eq_true] at hstart
      split
      · next hk => exact identifier_tallies h hk hg.tail (Nat.le_of_lt hn)
      · next hk => exact (Tallies.still (by simp [literalOf]) _).take (tally_number hk)
      · next hk => exact keywordForm_tallies h hg.head hk hstart.1 hstart.2 hg.tail hn
      · next hi hnumber hkeyword =>
        have hk := kind_of_others hg.head hstart.1 hi hnumber hkeyword
        have hskip : tally c.dialect w (t :: ts) = tally c.dialect w ts := tally_symbol hk
        split
        · exact (bracket_tallies h hg.tail _ hn).skip hskip
        · split
          · exact .still hempty _
          · split
            · have hoperand := h (.operand .factor) c ts hn hg.tail trivial
              exact (hoperand.map fun _ => by simp [heldBy, hempty]).skip hskip
            · exact (Tallies.still (occurrences_symbolLiteral hl hg.head hk) _).skip hskip

theorem factor_tallies (hg : AllOrdinary c.dialect w ts) (hn : ts.length ≤ n) :
    Tallies c.dialect w 0 ts (occurrences w) (factor read c ts) :=
  .bind (primary_tallies h hw hl hg hn) fun hs =>
    scripts_tallies h (hg.suffix hs) _ (hs.length_le.trans hn)

theorem product_tallies (hg : AllOrdinary c.dialect w ts) (hn : ts.length ≤ n) :
    Tallies c.dialect w 0 ts (occurrences w) (product read c ts) :=
  .bind (factor_tallies h hw hl hg hn) fun hs =>
    chain_tallies h (hg.suffix hs) _ _ (hs.length_le.trans hn)

theorem sum_tallies (hg : AllOrdinary c.dialect w ts) (hn : ts.length ≤ n) :
    Tallies c.dialect w 0 ts (occurrences w) (sum read c ts) :=
  .bind (product_tallies h hw hl hg hn) fun hs =>
    chain_tallies h (hg.suffix hs) _ _ (hs.length_le.trans hn)

theorem relation_tallies (hg : AllOrdinary c.dialect w ts) (hn : ts.length ≤ n) :
    Tallies c.dialect w 0 ts (occurrences w) (relation read c ts) :=
  .bind (sum_tallies h hw hl hg hn) fun hs =>
    chain_tallies h (hg.suffix hs) _ _ (hs.length_le.trans hn)

theorem sequence_tallies (hg : AllOrdinary c.dialect w ts) (hn : ts.length ≤ n) :
    Tallies c.dialect w 0 ts (occurrences w) (sequence read c ts) := by
  cases ts with
  | nil => exact .still (Expr.occurrences_empty hw) _
  | cons t ts =>
    cases hb : c.isBoundary t with
    | true =>
      simp only [sequence, atBoundary, hb, if_true]
      exact .still (Expr.occurrences_empty hw) _
    | false =>
      rw [sequence_starts hb]
      apply Tallies.bind (relation_tallies h hw hl hg hn)
      intro hs
      exact h (.chain .sequence _) c _ (Agree.length_le (relation_starts hb) hn) (hg.suffix hs) trivial

theorem juxtaposed_tallies (hg : AllOrdinary c.dialect w ts) (left : Expr) (hn : ts.length ≤ n) :
    Tallies c.dialect w (occurrences w left) ts (occurrences w) (juxtaposed read c left ts) := by
  cases ts with
  | nil => exact .still rfl _
  | cons t ts =>
    cases hb : c.isBoundary t with
    | true =>
      simp only [juxtaposed, atBoundary, hb, if_true]
      exact .still rfl _
    | false =>
      rw [juxtaposed_starts hb]
      have hright : Tallies c.dialect w (occurrences w left) (t :: ts) (occurrences w)
          ((relation read c (t :: ts)).map (.binary "concat" left)) :=
        (relation_tallies h hw hl hg hn).map fun _ => by simp
      apply Tallies.bind hright
      intro hs
      exact h (.chain .sequence _) c _ (Agree.length_le (relation_starts hb) hn) (hg.suffix hs) trivial

theorem operand_tallies (hg : AllOrdinary c.dialect w ts) (level : Level) (hn : ts.length ≤ n) :
    Tallies c.dialect w 0 ts (occurrences w) (operand read c level ts) := by
  cases level with
  | sequence => exact sequence_tallies h hw hl hg hn
  | relation => exact relation_tallies h hw hl hg hn
  | sum => exact sum_tallies h hw hl hg hn
  | product => exact product_tallies h hw hl hg hn
  | factor => exact factor_tallies h hw hl hg hn

omit hl in
theorem latexArgument_tallies (hd : c.dialect = .latex) (hg : AllOrdinary c.dialect w ts)
    (hn : ts.length ≤ n) : Tallies c.dialect w 0 ts (occurrences w) (latexArgument read c ts) := by
  have hempty := Expr.occurrences_empty hw
  cases ts with
  | nil => exact .still hempty _
  | cons t ts =>
    simp only [latexArgument]
    split
    · next hbrace =>
      refine Tallies.skip ?_ (tally_isSymbol hbrace)
      apply Tallies.bind (h (.operand .sequence) c ts hn hg.tail trivial)
      intro hs
      exact (expect_tallies _ _).map fun _ => by simp
    · split
      · exact .still hempty _
      · next hstart =>
        have hstart' : c.isBoundary t = false ∧ isProductOperator t = false := by
          simp only [startsOperand, Bool.not_not, Bool.or_eq_true, not_or, Bool.not_eq_true]
            at hstart
          exact hstart.1
        split
        · next hk => exact keywordForm_tallies h hg.head hk hstart'.1 hstart'.2 hg.tail hn
        · next hk =>
          cases hkind : t.kind with
          | identifier =>
            refine (Tallies.still ?_ _).take (tally_identifier hkind)
            simp [literalOf, hd, identifierValue]
          | number => exact (Tallies.still (by simp [literalOf]) _).take (tally_number hkind)
          | symbol =>
            exact (Tallies.still (occurrences_literalOf hg.head hkind) _).skip (tally_symbol hkind)
          | keyword => exact absurd hkind hk
          | space | unknown => exact absurd hg.head.significant (by simp [Token.isSignificant, hkind])
          | stop => simp [isBoundary_of_stop hkind] at hstart'

theorem legacyScriptArgument_tallies (hd : c.dialect = .legacy) (hg : AllOrdinary c.dialect w ts)
    (hn : ts.length ≤ n) :
    Tallies c.dialect w 0 ts (occurrences w) (legacyScriptArgument read c ts) := by
  have hempty := Expr.occurrences_empty hw
  cases ts with
  | nil => exact .still hempty _
  | cons t ts =>
    simp only [legacyScriptArgument]
    split
    · next hbrace =>
      have hbracket := bracket_tallies h hg.tail t.text hn
      exact (hbracket.map fun _ => by simp).skip (tally_isSymbol hbrace)
    · split
      · exact .still hempty _
      · next hstart =>
        have hstart' : c.isBoundary t = false ∧ isProductOperator t = false := by
          simp only [startsOperand, Bool.not_not, Bool.or_eq_true, not_or, Bool.not_eq_true]
            at hstart
          exact hstart.1
        split
        · next hk =>
          refine (Tallies.still ?_ _).take (tally_identifier hk)
          simp [hd]
        · next hk => exact (Tallies.still (by simp [literalOf]) _).take (tally_number hk)
        · next hk => exact keywordForm_tallies h hg.head hk hstart'.1 hstart'.2 hg.tail hn
        · next hi hnumber hkeyword =>
          have hk := kind_of_others hg.head hstart'.1 hi hnumber hkeyword
          have hskip : tally c.dialect w (t :: ts) = tally c.dialect w ts := tally_symbol hk
          split
          · exact (bracket_tallies h hg.tail _ hn).skip hskip
          · split
            · exact .still hempty _
            · refine (Tallies.still ?_ _).skip hskip
              rw [← hd]
              exact occurrences_symbolLiteral hl hg.head hk

theorem scriptArgument_tallies (hg : AllOrdinary c.dialect w ts) (hn : ts.length ≤ n) :
    Tallies c.dialect w 0 ts (occurrences w) (scriptArgument read c ts) := by
  unfold scriptArgument
  split
  · next hd => exact latexArgument_tallies h hw hd hg hn
  · next hd => exact legacyScriptArgument_tallies h hw hl hd hg hn

theorem argument_tallies (hg : AllOrdinary c.dialect w ts) (hn : ts.length ≤ n) :
    Tallies c.dialect w 0 ts (occurrences w) (argument read c ts) := by
  unfold argument
  split
  · next hd => exact latexArgument_tallies h hw hd hg hn
  · exact (factor_tallies h hw hl hg hn).map fun _ => by simp

theorem rows_tallies (hg : AllOrdinary c.dialect w ts) (name : String)
    (complete : List (List Expr)) (cells : List Expr) (filled : Bool) (hn : ts.length ≤ n) :
    Tallies c.dialect w (tableOccurrences w complete + rowOccurrences w cells) ts (occurrences w)
      (rows read c name complete cells filled ts) := by
  have hend (ts : List Token) : Tallies c.dialect w
      (tableOccurrences w complete + rowOccurrences w cells) ts (occurrences w)
      ((blockEnd c name ts).map fun _ => .block name (closeRow complete cells)) :=
    (blockEnd_tallies name ts).map fun _ => by simp [Expr.tableOccurrences_closeRow]
  cases ts with
  | nil => exact hend []
  | cons t ts =>
    simp only [rows]
    split
    · exact hend _
    · split
      · next hrow =>
        have hk : t.kind = .symbol := by
          simp only [endsRow, Token.isSymbol, Bool.or_eq_true, Bool.and_eq_true,
            decide_eq_true_eq] at hrow
          exact hrow.elim And.left fun h => h.2.1
        refine Tallies.skip ?_ (tally_symbol hk)
        refine h.resume hg.tail hn (List.suffix_refl ts) trivial ?_
        simp [heldBy, Expr.tableOccurrences_closeRow, rowOccurrences]
      · next hrow =>
        split
        · next hcell =>
          refine Tallies.skip ?_ (tally_isSymbol hcell)
          refine h.resume hg.tail hn (List.suffix_refl ts) trivial ?_
          cases filled <;> simp [heldBy, Expr.occurrences_empty hw]
        · next hcell =>
          split
          · next hb =>
            apply Tallies.bind ((skipStray_tallies hg.head hb ts).beside _)
            intro hs
            have hs' := (skipStray_settled (c := c) t ts).2
            exact h.resume hg.tail hn hs' trivial (by simp [heldBy])
          · next hb =>
            have hb' : c.withinRows.isBoundary t = false :=
              (isBoundary_withinRows_iff (by simpa using hrow) (by simpa using hcell)).trans
                (by simpa using hb)
            rw [if_pos (sequence_progress hb' ts)]
            have hcontent : Tallies c.dialect w 0 (t :: ts) (occurrences w)
                (sequence read c.withinRows (t :: ts)) :=
              sequence_tallies (c := c.withinRows) h hw hl hg hn
            apply Tallies.bind (hcontent.beside _)
            intro hs
            refine h.resume hg.tail hn (sequence_takes hb' ts) trivial ?_
            simp [heldBy, Nat.add_assoc]

omit hl in
theorem strays_tallies (hg : AllOrdinary c.dialect w ts) (hb : atBoundary c ts = true)
    (left : Expr) (hn : ts.length ≤ n) :
    Tallies c.dialect w (occurrences w left) ts (occurrences w) (strays read c left ts) := by
  cases ts with
  | nil => exact .still rfl _
  | cons t ts =>
    simp only [strays]
    split
    · exact .still rfl _
    · apply Tallies.bind ((skipStray_tallies hg.head hb ts).beside (occurrences w left))
      intro hs
      have hs' := (skipStray_settled (c := c) t ts).2
      have hright := h.suffix hg.tail hn hs' (.operand .sequence) trivial
      apply Tallies.bind (hright.beside (occurrences w left))
      intro hs''
      refine h.resume hg.tail hn (hs''.trans hs') ?_ ?_
      · rw [Phrase.Fits, read_operand]
        exact sequence_ends c _
      · simp [heldBy, Expr.occurrences_beside hw]

theorem step_tallies (phrase : Phrase) (hg : AllOrdinary c.dialect w ts) (hf : phrase.Fits c ts)
    (hn : ts.length ≤ n) :
    Tallies c.dialect w (heldBy w phrase) ts (occurrences w) (step read phrase c ts) := by
  cases phrase with
  | operand level => exact operand_tallies h hw hl hg level hn
  | chain level left =>
    cases level with
    | sequence => exact juxtaposed_tallies h hw hl hg left hn
    | relation => exact chain_tallies h hg .relation left hn
    | sum => exact chain_tallies h hg .sum left hn
    | product => exact chain_tallies h hg .product left hn
    | factor => exact chain_tallies h hg .factor left hn
  | scripts base => exact scripts_tallies h hg base hn
  | scriptArgument => exact scriptArgument_tallies h hw hl hg hn
  | argument => exact argument_tallies h hw hl hg hn
  | rows name complete cells filled => exact rows_tallies h hw hl hg name complete cells filled hn
  | strays left => exact strays_tallies h hw hg hf left hn

end Operands

section Texts

variable (hw : w ≠ "") (hl : Vocabulary.lineBreak ≠ w)
include hw hl

/-- Literals are kept over lists of any length. -/
theorem counted (n : ℕ) : Counted w n :=
  read_below
    (fun phrase c ts a => AllOrdinary c.dialect w ts → phrase.Fits c ts →
      Tallies c.dialect w (heldBy w phrase) ts (occurrences w) a)
    (fun _ ih phrase _ _ hn hg hf => step_tallies ih hw hl phrase hg hf hn) n

theorem read_tallies (phrase : Phrase) (hg : AllOrdinary c.dialect w ts) (hf : phrase.Fits c ts) :
    Tallies c.dialect w (heldBy w phrase) ts (occurrences w) (read phrase c ts) :=
  counted hw hl (ts.length + 1) phrase c ts (Nat.lt_succ_self _) hg hf

theorem readText_tallies (hg : AllOrdinary c.dialect w ts) :
    Tallies c.dialect w 0 ts (occurrences w) (readText c ts) := by
  apply Tallies.bind (read_tallies hw hl (.operand .sequence) hg trivial)
  intro hs
  refine read_tallies hw hl (.strays _) (hg.suffix hs) ?_
  rw [Phrase.Fits, read_operand]
  exact sequence_ends c ts

end Texts

section Conserved

variable {s : String}

theorem lineBreak_ne (hsymbol : ∀ s, ∀ t ∈ tokenize d s, t.kind = .symbol → t.text ≠ w) :
    Vocabulary.lineBreak ≠ w := by
  have hmem : ⟨.symbol, Vocabulary.lineBreak, 0⟩ ∈ tokenize d Vocabulary.lineBreak := by
    cases d <;> decide
  exact hsymbol _ _ hmem rfl

theorem allOrdinary_significant (hsymbol : ∀ t ∈ tokenize d s, t.kind = .symbol → t.text ≠ w) :
    AllOrdinary d w ((tokenize d s).filter Token.isSignificant) := by
  intro t ht
  obtain ⟨hmem, hsignificant⟩ := List.mem_filter.1 ht
  refine ⟨fun hk => ?_, hsymbol t hmem, hsignificant⟩
  rcases Scan.first_of_mem_scan hmem with hstop | ⟨x, xs, hkind, htext, -⟩
  · simp [hstop] at hk
  · rw [htext]
    exact Scan.keyword_of_first (hkind.symm.trans hk)

/-- A text is parsed into as many literals of a value as its identifiers, its numbers and its lone
keywords of blocks have, whatever does not fit: none is lost, and none is doubled. -/
theorem occurrences_parseText (d : Dialect) (s : String) (hw : w ≠ "")
    (hsymbol : ∀ s, ∀ t ∈ tokenize d s, t.kind = .symbol → t.text ≠ w) :
    (parseText d s).expr.occurrences w =
      (tokenLiterals d .outside ((tokenize d s).filter Token.isSignificant)).count w := by
  have htallies := readText_tallies hw (lineBreak_ne hsymbol)
    (c := ⟨d, impliedStop ((tokenize d s).filter Token.isSignificant), false⟩)
    (allOrdinary_significant (hsymbol s))
  have htotal := htallies.total
  have hnone : tally d w [⟨.stop, "", s.toList.length⟩] = 0 := by
    simp [tally, tokenLiterals, tokenLiteral?]
  rw [readText_rest, fromStop_significant, hnone, Nat.add_zero, Nat.zero_add] at htotal
  exact htotal

/-- The end of a block that does not begin, and a beginning without a name, take no word away. -/
theorem occurrences_parseText_stray :
    (parseText .latex "x) \\end\x7bx\x7d \\begin x").expr.occurrences "x" = 2 := by
  have hsymbol : ∀ s, ∀ t ∈ tokenize .latex s, t.kind = .symbol → t.text ≠ "x" := by
    intro s t ht hk hx
    have hmem : t ∈ Scan.tokens .latex 0 s ++ [⟨.stop, "", s.toList.length⟩] := by
      rw [← Scan.significant_eq]
      exact List.mem_filter.2 ⟨ht, by simp [Token.isSignificant, hk]⟩
    rcases List.mem_append.1 hmem with htoken | hstop
    · have hgenuine := Scan.genuine_of_mem_tokens (by simp) htoken
      simp only [Scan.Genuine, hk, hx] at hgenuine
      exact absurd hgenuine (by decide)
    · rw [List.mem_singleton.1 hstop] at hk
      exact absurd hk (by simp)
  rw [occurrences_parseText .latex _ (by decide) hsymbol]
  decide +kernel

end Conserved

end MathMarkup.Grammar
