import MathMarkup.Proofs.Grammar.Unfolding

/-! How the reading of an operand goes on after a part that is read: with its scripts, then with the
operators of each level from the tightest, then with what stands beside it. -/
namespace MathMarkup.Grammar

variable {α β : Type} {tidy : Prop} {c : Context} {L M : Level} {e : Expr} {t : Token}
  {ts us : List Token}

namespace Reading

/-- Readings of the same, with the same notes where those count. -/
structure Alike (tidy : Prop) (a b : Reading α) : Prop where
  value : a.value = b.value
  rest : a.rest = b.rest
  notes : tidy → a.notes = b.notes

namespace Alike

variable {a b r : Reading α}

theorem refl (a : Reading α) : Alike tidy a a := ⟨rfl, rfl, fun _ => rfl⟩

theorem of_eq (h : a = b) : Alike tidy a b := h ▸ refl a

theorem trans (h : Alike tidy a b) (h' : Alike tidy b r) : Alike tidy a r :=
  ⟨h.value.trans h'.value, h.rest.trans h'.rest, fun ht => (h.notes ht).trans (h'.notes ht)⟩

theorem bind (h : Alike tidy a b) (f : α → List Token → Reading β) :
    Alike tidy (a.bind f) (b.bind f) := by
  refine ⟨?_, ?_, fun ht => ?_⟩
  · simp [h.value, h.rest]
  · simp [h.value, h.rest]
  · simp [h.value, h.rest, h.notes ht]

theorem map (h : Alike tidy a b) (f : α → β) : Alike tidy (a.map f) (b.map f) :=
  ⟨congrArg f h.value, h.rest, h.notes⟩

theorem bind_done {x : α} {f : α → List Token → Reading β} {b : Reading β}
    (h : Alike tidy a (.done x ts)) (hf : Alike tidy (f x ts) b) : Alike tidy (a.bind f) b :=
  (h.bind f).trans hf

end Alike

end Reading

open Reading (Alike)

section Chains

theorem read_operand (L : Level) (c : Context) (ts : List Token) :
    read (.operand L) c ts = operand read c L ts := by
  rw [read_eq]
  rfl

theorem read_chain (hL : L ≠ .sequence) (e : Expr) (c : Context) (ts : List Token) :
    read (.chain L e) c ts = chain read c L e ts := by
  rw [read_eq]
  cases L <;> first | rfl | contradiction

theorem read_sequence_chain (e : Expr) (c : Context) (ts : List Token) :
    read (.chain .sequence e) c ts = juxtaposed read c e ts := by
  rw [read_eq]
  rfl

theorem read_scripts (e : Expr) (c : Context) (ts : List Token) :
    read (.scripts e) c ts = scripts read c e ts := by
  rw [read_eq]
  rfl

theorem read_argument (c : Context) (ts : List Token) :
    read .argument c ts = argument read c ts := by
  rw [read_eq]
  rfl

theorem read_scriptArgument (c : Context) (ts : List Token) :
    read .scriptArgument c ts = scriptArgument read c ts := by
  rw [read_eq]
  rfl

theorem read_rows (name : String) (complete : List (List Expr)) (cells : List Expr) (filled : Bool)
    (c : Context) (ts : List Token) :
    read (.rows name complete cells filled) c ts = rows read c name complete cells filled ts := by
  rw [read_eq]
  rfl

theorem read_strays (e : Expr) (c : Context) (ts : List Token) :
    read (.strays e) c ts = strays read c e ts := by
  rw [read_eq]
  rfl

/-- The reading of an operand of a level whose part up to `ts` is `e`. -/
def resume (c : Context) (level : Level) (e : Expr) (ts : List Token) : Reading Expr :=
  let product := (scripts read c e ts).bind (chain read c .product)
  let sum := product.bind (chain read c .sum)
  let relation := sum.bind (chain read c .relation)
  match level with
  | .factor => scripts read c e ts
  | .product => product
  | .sum => sum
  | .relation => relation
  | .sequence => relation.bind (juxtaposed read c)

theorem resume_succ (hL : L ≠ .factor) (c : Context) (e : Expr) (ts : List Token) :
    resume c L e ts = (resume c L.next e ts).bind fun e us => read (.chain L e) c us := by
  cases L with
  | factor => contradiction
  | sequence => simp [resume, Level.next, read_sequence_chain]
  | _ => simp [resume, Level.next, read_chain]

theorem operand_succ (hL : L ≠ .factor) (hL' : L ≠ .sequence) (c : Context) (ts : List Token) :
    operand read c L ts = (operand read c L.next ts).bind fun e us => read (.chain L e) c us := by
  cases L with
  | factor => contradiction
  | sequence => contradiction
  | _ => simp [operand, Level.next, read_chain]; rfl

/-- What holds at a level, and at each level if at the next tighter one, holds at all looser ones. -/
theorem level_descent (P : Level → Prop) (hML : M ≤ L) (h : P L)
    (hstep : ∀ N ≠ .factor, P N.next → P N) : P M := by
  have hfactor (h : P .factor) : P .product := hstep .product (by decide) h
  have hproduct (h : P .product) : P .sum := hstep .sum (by decide) h
  have hsum (h : P .sum) : P .relation := hstep .relation (by decide) h
  have hrelation (h : P .relation) : P .sequence := hstep .sequence (by decide) h
  cases L <;> cases M <;> first | exact absurd hML (by decide) | tauto

theorem resume_suffix (c : Context) (L : Level) (e : Expr) (ts : List Token) :
    (resume c L e ts).rest <:+ ts := by
  have hfactor : (resume c .factor e ts).rest <:+ ts :=
    (scripts_settled (read_settled ts.length) e le_rfl).2
  have hle : L ≤ .factor := by cases L <;> decide
  refine level_descent (fun N => (resume c N e ts).rest <:+ ts) hle hfactor fun N hN h => ?_
  rw [resume_succ hN]
  exact (read_suffix ..).trans h

end Chains

section Ends

/-- No operand of the level goes on with the token: it is no script mark, and no operator of the
level or of a tighter one. -/
def EndsOperand (L : Level) (t : Token) : Prop :=
  t.isScript = false ∧ ∀ M, L ≤ M → operator? M t = none

theorem scripts_of_ends (h : ∀ t ∈ ts.head?, t.isScript = false) (e : Expr) :
    scripts read c e ts = .done e ts := by
  cases ts with
  | nil => rfl
  | cons t ts =>
    have ht := h t rfl
    simp only [Token.isScript, Bool.or_eq_false_iff] at ht
    simp [scripts, ht]

theorem chain_of_ends (h : ∀ t ∈ ts.head?, operator? L t = none) (e : Expr) :
    chain read c L e ts = .done e ts := by
  cases ts with
  | nil => rfl
  | cons t ts => simp [chain, h t rfl]

/-- Nothing goes on where the next token ends the operand. -/
theorem resume_of_ends (hL : L ≠ .sequence) (h : ∀ t ∈ ts.head?, EndsOperand L t) (e : Expr) :
    resume c L e ts = .done e ts := by
  have hscripts : scripts read c e ts = .done e ts := scripts_of_ends (fun t ht => (h t ht).1) e
  have hchain (M : Level) (hM : L ≤ M) : chain read c M e ts = .done e ts :=
    chain_of_ends (fun t ht => (h t ht).2 M hM) e
  cases L with
  | sequence => contradiction
  | factor => simp [resume, hscripts]
  | product => simp [resume, hscripts, hchain .product (by decide)]
  | sum => simp [resume, hscripts, hchain .product (by decide), hchain .sum (by decide)]
  | relation =>
    simp [resume, hscripts, hchain .product (by decide), hchain .sum (by decide),
      hchain .relation (by decide)]

theorem next_ne_sequence (L : Level) : L.next ≠ .sequence := by
  cases L <;> simp [Level.next]

/-- Where the next token ends the operands that are tighter, only the level itself goes on. -/
theorem resume_of_ends_next (hL : L ≠ .factor) (h : ∀ t ∈ ts.head?, EndsOperand L.next t)
    (e : Expr) : resume c L e ts = read (.chain L e) c ts := by
  rw [resume_succ hL, resume_of_ends (next_ne_sequence L) h, Reading.bind_done]

end Ends

section Boundaries

theorem EndsOperand.of_stop (h : t.kind = .stop) (L : Level) : EndsOperand L t := by
  refine ⟨by simp [Token.isScript, Token.isSymbol, h], fun M _ => ?_⟩
  cases M <;> simp [operator?, Token.isRelation, Token.isSign, Token.isSymbol, Token.word?, h]

theorem kind_of_word {w : String} (h : t.word? = some w) : t.kind = .keyword := by
  by_contra hk
  simp [Token.word?, hk] at h

/-- The marks between the operands of a level. -/
def operatorMarks : Level → List String
  | .relation => ["=", "<", ">"]
  | .sum => ["+", "-"]
  | .product => ["/", "*"]
  | .sequence | .factor => []

def operatorWords : Level → List String
  | .product => ["times", "over", "atop"]
  | .sequence | .relation | .sum | .factor => []

/-- Between two operands stands a mark or a word. -/
theorem operator_inv {operator : String} (h : operator? L t = some operator) :
    t.isSymbol operator = true ∧ operator ∈ operatorMarks L ∨
      t.word? = some operator ∧ operator ∈ operatorWords L := by
  cases L with
  | sequence | factor => cases h
  | relation =>
    simp only [operator?, Option.ite_none_right_eq_some, Token.isRelation, Vocabulary.isRelation,
      Bool.and_eq_true, decide_eq_true_eq, List.contains_iff_mem] at h
    obtain ⟨⟨hk, hmem⟩, ⟨⟩⟩ := h
    exact .inl ⟨by simp [Token.isSymbol, hk], hmem⟩
  | sum =>
    simp only [operator?, Option.ite_none_right_eq_some, Token.isSign, Vocabulary.isSign,
      Bool.and_eq_true, decide_eq_true_eq, List.contains_iff_mem] at h
    obtain ⟨⟨hk, hmem⟩, ⟨⟩⟩ := h
    exact .inl ⟨by simp [Token.isSymbol, hk], hmem⟩
  | product =>
    simp only [operator?] at h
    split at h
    · next hx =>
      obtain ⟨⟩ := h
      simp only [Token.isSymbol, Bool.or_eq_true, Bool.and_eq_true, decide_eq_true_eq] at hx
      obtain ⟨hk, hx⟩ | ⟨hk, hx⟩ := hx <;>
        exact .inl ⟨by simp [Token.isSymbol, hk], by simp [operatorMarks, hx]⟩
    · obtain ⟨hword, hmem⟩ := Option.filter_eq_some_iff.1 h
      exact .inr ⟨hword, List.contains_iff_mem.1 hmem⟩

/-- A boundary ends the text, closes a bracket, stands between cells or rows, or is a keyword. -/
theorem boundary_cases (h : c.isBoundary t = true) : t.kind = .stop ∨
    t.kind = .symbol ∧ t.text ∈ [")", "]", "\x7d", "&", "#", Vocabulary.lineBreak] ∨
    t.word? = some "right" ∨ t.word? = some "end" := by
  simp only [Context.isBoundary, Token.isClosing, Vocabulary.isClosing, Token.isSymbol, endsRow,
    Bool.or_eq_true, Bool.and_eq_true, decide_eq_true_eq, List.contains_iff_mem, List.mem_cons,
    List.not_mem_nil, or_false] at h
  rcases h with (((h | h) | h) | h) | ⟨-, h | h | ⟨-, h⟩⟩
  · exact .inl h
  · exact .inr (.inl ⟨h.1, by rcases h.2 with h | h | h <;> simp [h]⟩)
  · exact .inr (.inr (.inl h))
  · exact .inr (.inr (.inr h))
  · exact .inr (.inl ⟨h.1, by simp [h.2]⟩)
  · exact .inr (.inl ⟨h.1, by simp [h.2]⟩)
  · exact .inr (.inl ⟨h.1, by simp [h.2]⟩)

theorem EndsOperand.of_isBoundary (h : c.isBoundary t = true) (L : Level) : EndsOperand L t := by
  have hall : ∀ u ∈ [")", "]", "\x7d", "&", "#", Vocabulary.lineBreak],
      (u ≠ "^" ∧ u ≠ "_") ∧ Vocabulary.isRelation u = false ∧ Vocabulary.isSign u = false ∧
      u ≠ "/" ∧ u ≠ "*" := by
    decide
  have hword {w : String} (hw : t.word? = some w) (hlast : w = "right" ∨ w = "end") :
      EndsOperand L t := by
    have hk := kind_of_word hw
    refine ⟨by simp [Token.isScript, Token.isSymbol, hk], fun M _ => ?_⟩
    cases M with
    | product => rcases hlast with rfl | rfl <;> simp [operator?, Token.isSymbol, hk, hw]
    | _ => simp [operator?, Token.isRelation, Token.isSign, hk]
  obtain hstop | ⟨hk, ht⟩ | hw | hw := boundary_cases h
  · exact .of_stop hstop L
  · obtain ⟨hscript, hrelation, hsign, hproduct⟩ := hall _ ht
    refine ⟨by simp [Token.isScript, Token.isSymbol, hscript], fun M _ => ?_⟩
    cases M <;> simp [operator?, Token.isRelation, Token.isSign, Token.isSymbol, Token.word?, hk,
      hrelation, hsign, hproduct]
  · exact hword hw (.inl rfl)
  · exact hword hw (.inr rfl)

/-- Nothing goes on in front of a boundary. -/
theorem resume_of_isBoundary (h : ∀ t ∈ ts.head?, c.isBoundary t = true) (L : Level) (e : Expr) :
    resume c L e ts = .done e ts := by
  have hends (M : Level) : ∀ t ∈ ts.head?, EndsOperand M t := fun t ht =>
    .of_isBoundary (h t ht) M
  by_cases hL : L = .sequence
  · subst hL
    rw [resume_of_ends_next (by decide) (hends _), read_sequence_chain, juxtaposed]
    cases ts with
    | nil => rfl
    | cons t ts => simp [atBoundary, h t rfl]
  · exact resume_of_ends hL (hends L) e

theorem sequence_of_isBoundary (h : ∀ t ∈ ts.head?, c.isBoundary t = true) :
    operand read c .sequence ts = .done .empty ts := by
  cases ts with
  | nil => rfl
  | cons t ts => simp [operand, sequence, atBoundary, h t rfl]

theorem factor_of_isBoundary (h : ∀ t ∈ ts.head?, c.isBoundary t = true) :
    operand read c .factor ts = miss c .operand .empty ts := by
  have hprimary : primary read c ts = miss c .operand .empty ts := by
    cases ts with
    | nil => rfl
    | cons t ts => simp [primary, h t rfl]
  have hscripts : scripts read c .empty ts = .done .empty ts :=
    scripts_of_ends (fun t ht => (EndsOperand.of_isBoundary (h t ht) .factor).1) .empty
  simp [operand, factor, hprimary, Reading.bind, miss, hscripts, Reading.done]

end Boundaries

section Lowering

/-- A sequence starts with an operand of a relation unless a boundary comes first. -/
theorem sequence_eq (ht : c.isBoundary t = false)
    (h : (relation read c (t :: ts)).rest.length < (t :: ts).length) :
    operand read c .sequence (t :: ts) =
      (operand read c .relation (t :: ts)).bind fun e us => read (.chain .sequence e) c us := by
  simp only [operand, sequence, atBoundary, ht, onward, if_pos h]
  rfl

theorem onward_eq {r : Reading Expr} (h : r.rest.length < ts.length) :
    onward read c ts r = r.bind fun e us => read (.chain .sequence e) c us := by
  rw [onward, if_pos h]

/-- What can be read as an operand of a level can be read as one of any looser level. -/
theorem Alike.lower (hML : M ≤ L) (ht : c.isBoundary t = false) (hu : us <:+ ts)
    (h : Alike tidy (operand read c L (t :: ts)) (resume c L e us)) :
    Alike tidy (operand read c M (t :: ts)) (resume c M e us) := by
  refine level_descent (fun N => Alike tidy (operand read c N (t :: ts)) (resume c N e us)) hML h
    fun N hN h => ?_
  rw [resume_succ hN]
  by_cases hN' : N = .sequence
  · subst hN'
    rw [sequence_eq ht]
    · exact h.bind _
    · have hrest := h.rest
      simp only [operand, Level.next] at hrest
      rw [hrest]
      exact Nat.lt_succ_of_le ((resume_suffix c _ e us).trans hu).length_le
  · rw [operand_succ hN hN']
    exact h.bind _

end Lowering

end MathMarkup.Grammar
