import MathMarkup.Proofs.Grammar.Progress
import MathMarkup.Proofs.Token.Genuine

/-! The literals that tokens are by themselves: identifiers, numbers, and the keywords of blocks that no
group follows. The tokens of the name of a block are none. -/
namespace MathMarkup.Grammar

open Scan (keywords)

variable {d : Dialect} {c : Context} {w : String} {t : Token} {ts us : List Token}

section Tokens

/-- Whether a group comes next. -/
def startsGroup (ts : List Token) : Bool := ts.head?.any (·.isSymbol "\x7b")

/-- What the keyword of a block is by itself. -/
def blockLiteral? (d : Dialect) (t : Token) : Option String :=
  match d with
  | .latex => if t.word? = some "begin" then some ("\\" ++ t.text) else none
  | .legacy => (Block.ofLegacy? t.text).map fun _ => t.text

/-- The value of the literal that a token in front of others is by itself. A block has no literal of its
own, only a keyword of one that no group follows has. -/
def tokenLiteral? (d : Dialect) (t : Token) (ts : List Token) : Option String :=
  match t.kind with
  | .identifier => some (identifierValue d t.text)
  | .number => some t.text
  | .keyword => if startsGroup ts then none else blockLiteral? d t
  | _ => none

/-- Whether the name of a block comes next, between braces. -/
def namesBlock (d : Dialect) (t : Token) (ts : List Token) : Bool :=
  d = .latex && (t.word? = some "begin" || t.word? = some "end") && startsGroup ts

/-- Where a token stands: in front of the name of a block, in it, or outside of all names. -/
inductive Place where
  | outside | brace | name

/-- The values of the literals that tokens are by themselves. The names of blocks hold none. -/
def tokenLiterals (d : Dialect) : Place → List Token → List String
  | _, [] => []
  | .outside, t :: ts =>
    (tokenLiteral? d t ts).toList ++
      tokenLiterals d (if namesBlock d t ts then .brace else .outside) ts
  | .brace, _ :: ts => tokenLiterals d .name ts
  | .name, t :: ts => tokenLiterals d (if inBlockName t then .name else .outside) ts

/-- How often the tokens ahead are a literal of the value. -/
def tally (d : Dialect) (w : String) (ts : List Token) : ℕ :=
  (tokenLiterals d .outside ts).count w

theorem tally_of_plain (h : tokenLiteral? d t ts = none) (hn : namesBlock d t ts = false) :
    tally d w (t :: ts) = tally d w ts := by
  simp [tally, tokenLiterals, h, hn]

theorem namesBlock_of_ne_keyword (hk : t.kind ≠ .keyword) : namesBlock d t ts = false := by
  simp [namesBlock, Token.word?, hk]

theorem tally_symbol (hk : t.kind = .symbol) : tally d w (t :: ts) = tally d w ts :=
  tally_of_plain (by simp [tokenLiteral?, hk]) (namesBlock_of_ne_keyword (by simp [hk]))

theorem tally_isSymbol {text : String} (h : t.isSymbol text = true) :
    tally d w (t :: ts) = tally d w ts := by
  simp only [Token.isSymbol, Bool.and_eq_true, decide_eq_true_eq] at h
  exact tally_symbol h.1

theorem tally_identifier (hk : t.kind = .identifier) :
    tally d w (t :: ts) = (if identifierValue d t.text = w then 1 else 0) + tally d w ts := by
  have hn : namesBlock d t ts = false := namesBlock_of_ne_keyword (by simp [hk])
  simp [tally, tokenLiterals, tokenLiteral?, hk, hn, List.count_cons, Nat.add_comm]

theorem tally_number (hk : t.kind = .number) :
    tally d w (t :: ts) = (if t.text = w then 1 else 0) + tally d w ts := by
  have hn : namesBlock d t ts = false := namesBlock_of_ne_keyword (by simp [hk])
  simp [tally, tokenLiterals, tokenLiteral?, hk, hn, List.count_cons, Nat.add_comm]

/-- In a name all tokens are skipped up to the brace that ends it. -/
theorem tokenLiterals_name (d : Dialect) (ts : List Token) :
    tokenLiterals d .name ts = tokenLiterals d .outside (ts.dropWhile inBlockName) := by
  induction ts with
  | nil => rfl
  | cons t ts ih =>
    cases hname : inBlockName t with
    | true => simpa [tokenLiterals, hname] using ih
    | false =>
      have hk : t.kind = .stop ∨ t.kind = .symbol := by
        simp only [inBlockName, Bool.and_eq_false_iff, Token.isSymbol, Bool.not_eq_false',
          Bool.and_eq_true, decide_eq_false_iff_not, decide_eq_true_eq, not_not] at hname
        exact hname.imp id And.left
      have hn : namesBlock d t ts = false := by
        apply namesBlock_of_ne_keyword
        rcases hk with hk | hk <;> simp [hk]
      have hliteral : tokenLiteral? d t ts = none := by
        rcases hk with hk | hk <;> simp [tokenLiteral?, hk]
      simp [tokenLiterals, hname, hn, hliteral]

theorem startsGroup_cons {u : Token} : startsGroup (u :: ts) = u.isSymbol "\x7b" := rfl

/-- The name of a block, and the braces around it, are no literals. -/
theorem tally_named {u : Token} (hd : d = .latex)
    (ht : t.word? = some "begin" ∨ t.word? = some "end") (hu : u.isSymbol "\x7b" = true) :
    tally d w (t :: u :: ts) = tally d w (ts.dropWhile inBlockName) := by
  have hk : t.kind = .keyword := by
    by_contra hk
    simp [Token.word?, hk] at ht
  have hn : namesBlock d t (u :: ts) = true := by
    rcases ht with ht | ht <;> simp [namesBlock, hd, ht, startsGroup_cons, hu]
  have hliteral : tokenLiteral? d t (u :: ts) = none := by
    simp [tokenLiteral?, hk, startsGroup_cons, hu]
  simp [tally, tokenLiterals, hn, hliteral, tokenLiterals_name]

end Tokens

section Keywords

/-- A token as a text has it, and no symbol of the spelling. -/
structure Ordinary (d : Dialect) (w : String) (t : Token) : Prop where
  keyword : t.kind = .keyword → t.text ∈ keywords d
  symbol : t.kind = .symbol → t.text ≠ w
  significant : t.isSignificant = true

/-- The words that are no phrase by themselves, or the keyword of one in both dialects. -/
def sharedWords : List String :=
  ["sqrt", "int", "oint", "sum", "left", "right", "end", "times", "over", "atop"]

def fractionWords : List String := ["frac", "dfrac", "tfrac"]

/-- Only the keywords of blocks are literals by themselves. -/
theorem blockLiteral_facts : ∀ d, ∀ x ∈ keywords d,
    Text.lower x ∈ sharedWords ++ fractionWords ∨
        (decoration? d ⟨.keyword, x, 0⟩).isSome = true →
      blockLiteral? d ⟨.keyword, x, 0⟩ = none := by
  intro d
  cases d <;> decide

/-- Other keywords are those of fractions and of blocks. -/
theorem keyword_facts : ∀ d, ∀ x ∈ keywords d, Text.lower x ∉ sharedWords →
    decoration? d ⟨.keyword, x, 0⟩ = none →
      match d with
      | .latex => Text.lower x ∈ "begin" :: fractionWords
      | .legacy => (Block.ofLegacy? x).isSome = true := by
  intro d
  cases d <;> decide

theorem lower_of_word {word : String} (h : t.word? = some word) :
    t.kind = .keyword ∧ Text.lower t.text = word := by
  by_cases hk : t.kind = .keyword
  · simpa [Token.word?, hk] using h
  · simp [Token.word?, hk] at h

theorem decoration?_congr (d : Dialect) (t : Token) :
    decoration? d ⟨.keyword, t.text, 0⟩ = decoration? d t := by
  cases d <;> rfl

theorem blockLiteral?_congr (hk : t.kind = .keyword) :
    blockLiteral? d ⟨.keyword, t.text, 0⟩ = blockLiteral? d t := by
  cases d with
  | latex => simp [blockLiteral?, Token.word?, hk]
  | legacy => rfl

/-- The keyword of a phrase that is no block, and names none, is no literal. -/
theorem tally_keyword (ho : Ordinary d w t) (hk : t.kind = .keyword)
    (h : Text.lower t.text ∈ sharedWords ++ fractionWords ∨ (decoration? d t).isSome = true)
    (hend : d = .latex → t.word? ≠ some "end") : tally d w (t :: ts) = tally d w ts := by
  have hfacts := blockLiteral_facts d t.text (ho.keyword hk) (by rwa [decoration?_congr])
  rw [blockLiteral?_congr hk] at hfacts
  apply tally_of_plain
  · simp [tokenLiteral?, hk, hfacts]
  · by_cases hd : d = .latex
    · subst hd
      have hbegin : t.word? ≠ some "begin" := by
        intro hb
        simp [blockLiteral?, hb] at hfacts
      simp [namesBlock, hbegin, hend rfl]
    · simp [namesBlock, hd]

theorem tally_word {word : String} (ho : Ordinary d w t) (h : t.word? = some word)
    (hword : word ∈ sharedWords ++ fractionWords) (hend : word ≠ "end") : tally d w (t :: ts) = tally d w ts := by
  obtain ⟨hk, hlower⟩ := lower_of_word h
  refine tally_keyword ho hk (.inl (hlower ▸ hword)) fun _ he => hend ?_
  rw [h] at he
  exact Option.some.inj he

/-- In front of a boundary stands no literal. -/
theorem tally_boundary (ho : Ordinary c.dialect w t) (hb : c.isBoundary t = true)
    (hend : ¬(c.dialect = .latex ∧ t.word? = some "end")) :
    tally c.dialect w (t :: ts) = tally c.dialect w ts := by
  cases hk : t.kind with
  | symbol => exact tally_symbol hk
  | keyword =>
    have hword : t.word? = some "right" ∨ t.word? = some "end" := by
      simpa [Context.isBoundary, Token.isClosing, endsRow, Token.isSymbol, hk] using hb
    refine tally_keyword ho hk (.inl ?_) fun hd he => hend ⟨hd, he⟩
    rcases hword with h | h <;> rw [(lower_of_word h).2] <;> decide
  | stop => exact tally_of_plain (by simp [tokenLiteral?, hk]) (namesBlock_of_ne_keyword (by simp [hk]))
  | space | unknown => exact absurd ho.significant (by simp [Token.isSignificant, hk])
  | identifier | number =>
    simp [Context.isBoundary, Token.isClosing, Token.word?, endsRow, Token.isSymbol, hk] at hb

end Keywords

end MathMarkup.Grammar
