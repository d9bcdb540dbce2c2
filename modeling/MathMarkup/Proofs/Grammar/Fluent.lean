import MathMarkup.Proofs.Grammar.Progress
import MathMarkup.Proofs.Rereading.Rows

/-! Lists of tokens that are read without a note. What has to come next is told by what stands before
it, whatever is read together with what: an operand where one is wanted, and after an operand the end,
an operator with an operand, or another operand. -/
namespace MathMarkup.Grammar

/-- What is wanted next: an operand, what goes on after one, what stands between delimiters, the
argument of a script mark or of a keyword, or the rows of a block. -/
inductive Wanted where
  | operand | onward | content | script
  | argument (next : Wanted)
  | rows (name : String)

/-- A token that is an operand by itself. -/
structure IsAtom (c : Context) (t : Token) : Prop where
  kind : t.kind = .identifier ∨ t.kind = .number ∨ t.kind = .symbol
  boundary : c.isBoundary t = false
  operator : isProductOperator t = false
  opening : t.isOpening = false
  script : t.isScript = false
  sign : t.isSign = false

/-- A keyword, and what is read after it. -/
structure Introduces (c : Context) (t : Token) (form : List Token → Reading Expr) : Prop where
  kind : t.kind = .keyword
  boundary : c.isBoundary t = false
  operator : isProductOperator t = false
  form : keywordForm read c t = form

/-- The tokens are those that are wanted, up to `us`, in front of which the sequence stops. -/
inductive Flows : Context → List Token → Wanted → List Token → Prop
  | stop {c us} (h : atBoundary c us = true) : Flows c us .onward us
  | beside {c us t ts} (h : Flows c us .operand (t :: ts)) (ht : t.isRelation = false) :
      Flows c us .onward (t :: ts)
  | operator {c us t ts} (ht : t.isRelation = true ∨ isProductOperator t = true)
      (h : Flows c us .operand ts) : Flows c us .onward (t :: ts)
  | empty {c us} (h : atBoundary c us = true) : Flows c us .content us
  | filled {c us ts} (h : Flows c us .operand ts) : Flows c us .content ts
  | atom {c us t ts} (ht : IsAtom c t) (h : Flows c us .onward ts) : Flows c us .operand (t :: ts)
  | sign {c us t ts} (ht : t.isSign = true) (h : Flows c us .operand ts) :
      Flows c us .operand (t :: ts)
  | mark {c us t ts} (ht : t.isScript = true) (h : Flows c us .script ts) :
      Flows c us .operand (t :: ts)
  | bracket {c us t ts u vs closing} (ht : t.kind = .symbol)
      (hd : Vocabulary.closing? t.text = some closing) (h : Flows c (u :: vs) .content ts)
      (hu : u.isSymbol closing = true) (hv : Flows c us .onward vs) : Flows c us .operand (t :: ts)
  | keyword {c us t ts f} (ht : Introduces c t fun ts => (argument read c ts).map f)
      (h : Flows c us (.argument .onward) ts) : Flows c us .operand (t :: ts)
  | fraction {c us t ts} (ht : Introduces c t (stackedFraction read c))
      (h : Flows c us (.argument (.argument .onward)) ts) : Flows c us .operand (t :: ts)
  | large {c us t ts operator} (ht : Introduces c t (large read c operator))
      (h : Flows c us .onward ts) : Flows c us .operand (t :: ts)
  | sized {c us t ts left vs u ws right xs} (ht : Introduces c t (sizedBracket read c))
      (hl : sizedDelimiter c .left ts = .done left vs) (h : Flows c (u :: ws) .content vs)
      (hu : u.word? = some "right") (hr : sizedDelimiter c .right ws = .done right xs)
      (hx : Flows c us .onward xs) : Flows c us .operand (t :: ts)
  | block {c us t ts name vs} (ht : t.kind = .keyword) (hb : c.isBoundary t = false)
      (hp : isProductOperator t = false)
      (hr : keywordForm read c t ts = rows read c name [] [] false vs) (hvs : vs <:+ ts)
      (h : Flows c us (.rows name) vs) : Flows c us .operand (t :: ts)
  | group {c us t ts u vs next} (hd : c.dialect = .latex) (ht : t.isSymbol "\x7b" = true)
      (h : Flows c (u :: vs) .content ts) (hu : u.isSymbol "\x7d" = true)
      (hv : Flows c us next vs) : Flows c us (.argument next) (t :: ts)
  | factor {c us ts} (hd : c.dialect = .legacy) (h : Flows c us .operand ts) :
      Flows c us (.argument .onward) ts
  | scriptGroup {c us ts} (hd : c.dialect = .latex) (h : Flows c us (.argument .onward) ts) :
      Flows c us .script ts
  | scriptSign {c us t ts} (hd : c.dialect = .legacy) (ht : t.isSign = true)
      (h : Flows c us .onward ts) : Flows c us .script (t :: ts)
  | scriptOperand {c us t ts} (hd : c.dialect = .legacy) (h : Flows c us .operand (t :: ts))
      (hr : t.isRelation = false) (hs : t.isSign = false) : Flows c us .script (t :: ts)
  | blockEnd {c us name t ts vs} (h : endsRows c.dialect name (t :: ts) = true)
      (he : Grammar.blockEnd c name (t :: ts) = .done () vs) (hv : Flows c us .onward vs) :
      Flows c us (.rows name) (t :: ts)
  | blockMark {c us name t ts} (ht : endsRow c.dialect t = true ∨ t.isSymbol "&" = true)
      (h : Flows c us (.rows name) ts) : Flows c us (.rows name) (t :: ts)
  | cell {c us name ts vs} (h : Flows c.withinRows vs .operand ts) (hv : Flows c us (.rows name) vs) :
      Flows c us (.rows name) ts

variable {α β : Type} {c : Context} {t : Token} {ts us vs : List Token} {e : Expr} {L : Level}
  {w : Wanted} {n : ℕ} {name : String}

section Heads

theorem isBoundary_of_operator {operator : String} (h : operator? L t = some operator) :
    c.isBoundary t = false := by
  by_contra hb
  have hends := EndsOperand.of_isBoundary (c := c) (by simpa using hb) L
  simp [hends.2 L (Nat.le_refl _)] at h

theorem operator_of_isRelation (h : t.isRelation = true) : operator? .relation t = some t.text := by
  simp [operator?, h]

theorem operator_of_isSign (h : t.isSign = true) : operator? .sum t = some t.text := by
  simp [operator?, h]

theorem isScript_facts (h : t.isScript = true) : c.isBoundary t = false ∧ t.isRelation = false := by
  refine ⟨?_, ?_⟩
  · by_contra hb
    have hends := EndsOperand.of_isBoundary (c := c) (by simpa using hb) .factor
    simp [hends.1] at h
  · obtain ⟨kind, text, offset⟩ := t
    simp only [Token.isScript, Token.isSymbol, Bool.or_eq_true, Bool.and_eq_true,
      decide_eq_true_eq] at h
    obtain ⟨rfl, rfl⟩ | ⟨rfl, rfl⟩ := h <;> rfl

theorem isSign_facts (h : t.isSign = true) :
    t.kind = .symbol ∧ isProductOperator t = false ∧ t.isScript = false ∧ t.isOpening = false ∧
      t.isRelation = false := by
  obtain ⟨kind, text, offset⟩ := t
  simp only [Token.isSign, Vocabulary.isSign, Bool.and_eq_true, decide_eq_true_eq,
    List.contains_iff_mem, List.mem_cons, List.not_mem_nil, or_false] at h
  obtain ⟨rfl, rfl | rfl⟩ := h <;> exact ⟨rfl, rfl, rfl, rfl, rfl⟩

theorem isOpening_facts (h : t.isOpening = true) : t.kind = .symbol ∧ t.isRelation = false ∧
    t.isSign = false ∧ t.isScript = false := by
  obtain ⟨kind, text, offset⟩ := t
  simp only [Token.isOpening, Bool.and_eq_true, decide_eq_true_eq] at h
  obtain ⟨rfl, hopen⟩ := h
  obtain rfl | rfl | rfl : text = "(" ∨ text = "[" ∨ text = "\x7b" := by
    unfold Vocabulary.isOpening Vocabulary.closing? at hopen
    split at hopen <;> simp_all
  all_goals exact ⟨rfl, rfl, rfl, rfl⟩

theorem isOpening_of_brace (h : t.isSymbol "\x7b" = true) : t.isOpening = true := by
  simp only [Token.isSymbol, Bool.and_eq_true, decide_eq_true_eq] at h
  simp [Token.isOpening, Vocabulary.isOpening, Vocabulary.closing?, h]

/-- A keyword is no mark. -/
theorem not_mark_of_keyword (h : t.kind = .keyword) : t.isRelation = false ∧ t.isSign = false ∧
    t.isScript = false ∧ t.isOpening = false := by
  simp [Token.isRelation, Token.isSign, Token.isScript, Token.isSymbol, Token.isOpening, h]

end Heads

section Inversions

theorem Flows.ne_nil (h : Flows c us .operand ts) : ts ≠ [] := by
  cases h <;> simp

/-- What is wanted as an operand starts with a token that can be one. -/
theorem Flows.starts (h : Flows c us .operand (t :: ts)) :
    c.isBoundary t = false ∧ isProductOperator t = false := by
  cases h with
  | atom ht => exact ⟨ht.boundary, ht.operator⟩
  | sign ht => exact ⟨isBoundary_of_operator (operator_of_isSign ht), (isSign_facts ht).2.1⟩
  | mark ht => exact ⟨(isScript_facts ht).1, (isScript_symbol ht).2.2⟩
  | bracket ht hd =>
    exact starts_of_isOpening (by simp [Token.isOpening, ht, Vocabulary.isOpening, hd])
  | keyword ht | fraction ht | large ht | sized ht => exact ⟨ht.boundary, ht.operator⟩
  | block ht hb hp => exact ⟨hb, hp⟩

/-- After an operand another one starts with a token that no operator is. -/
theorem Flows.operand (h : Flows c us .onward (t :: ts)) (hb : c.isBoundary t = false)
    (hr : t.isRelation = false) (hp : isProductOperator t = false) :
    Flows c us .operand (t :: ts) := by
  cases h with
  | stop h => simp [atBoundary, hb] at h
  | beside h => exact h
  | operator ht => simp [hr, hp] at ht

theorem Flows.of_startsOperand (h : Flows c us .onward (t :: ts))
    (ht : startsOperand c t = true) : Flows c us .operand (t :: ts) := by
  simp only [startsOperand, Bool.not_eq_true', Bool.or_eq_false_iff] at ht
  exact h.operand ht.1.1 ht.2 ht.1.2

/-- After a script mark its argument is wanted. -/
theorem Flows.script (h : Flows c us .onward (t :: ts)) (ht : t.isScript = true) :
    Flows c us .script ts := by
  obtain ⟨hk, hopen, hp⟩ := isScript_symbol ht
  obtain ⟨hb, hr⟩ := isScript_facts (c := c) ht
  cases h.operand hb hr hp with
  | mark _ h => exact h
  | atom ha => simp [ha.script] at ht
  | sign hs => simp [(isSign_facts hs).2.2.1] at ht
  | bracket hk hd => simp [Token.isOpening, hk, Vocabulary.isOpening, hd] at hopen
  | keyword hf | fraction hf | large hf | sized hf => simp [hf.kind] at hk
  | block hf => simp [hf] at hk

/-- After an operator an operand is wanted, be it a sign that stands in front of one. -/
theorem Flows.of_operator {operator : String} (h : Flows c us .onward (t :: ts))
    (ho : operator? L t = some operator) : Flows c us .operand ts := by
  have hb := isBoundary_of_operator (c := c) ho
  cases h with
  | stop h => simp [atBoundary, hb] at h
  | operator _ h => exact h
  | beside h hr =>
    cases L with
    | relation => simp [operator?, hr] at ho
    | product => exact absurd h.starts.2 (by simp [isProductOperator, ho])
    | sum =>
      have hs : t.isSign = true := by
        by_contra hs
        simp [operator?, hs] at ho
      obtain ⟨hk, -, hscript, hopen, -⟩ := isSign_facts hs
      cases h with
      | sign _ h => exact h
      | atom ha => simp [ha.sign] at hs
      | mark hm => simp [hm] at hscript
      | bracket hk hd => simp [Token.isOpening, hk, Vocabulary.isOpening, hd] at hopen
      | keyword hf | fraction hf | large hf | sized hf => simp [hf.kind] at hk
      | block hf => simp [hf] at hk
    | _ => simp [operator?] at ho

/-- After a token that is an operand by itself everything may come that goes on after one. -/
theorem Flows.after (h : Flows c us .operand (t :: ts)) (hk : t.kind ≠ .keyword)
    (ho : t.isOpening = false) (hm : t.isScript = false) (hs : t.isSign = false) :
    Flows c us .onward ts := by
  cases h with
  | atom _ h => exact h
  | sign ht => simp [ht] at hs
  | mark ht => simp [ht] at hm
  | bracket hk hd => simp [Token.isOpening, hk, Vocabulary.isOpening, hd] at ho
  | keyword hf | fraction hf | large hf | sized hf => exact absurd hf.kind hk
  | block hf => exact absurd hf hk

end Inversions

section Readings

/-- A reading without a note, which leaves what is wanted next. -/
structure Smooth (c : Context) (us : List Token) (w : Wanted) (ts : List Token) (r : Reading α) :
    Prop where
  notes : r.notes = []
  suffix : r.rest <:+ ts
  flows : Flows c us w r.rest

/-- A reading without a note, up to `us`. -/
structure Reaches (us : List Token) (r : Reading α) : Prop where
  notes : r.notes = []
  rest : r.rest = us

theorem Smooth.done (h : Flows c us w ts) (a : α) : Smooth c us w ts (.done a ts) :=
  ⟨rfl, List.suffix_refl ts, h⟩

theorem Smooth.map {r : Reading α} (h : Smooth c us w ts r) (f : α → β) :
    Smooth c us w ts (r.map f) :=
  ⟨h.notes, h.suffix, h.flows⟩

theorem Smooth.bind {r : Reading α} {f : α → List Token → Reading β} {w' : Wanted}
    (h : Smooth c us w ts r)
    (hf : ∀ a vs, vs <:+ ts → Flows c us w vs → Smooth c us w' vs (f a vs)) :
    Smooth c us w' ts (r.bind f) := by
  have hnext := hf r.value r.rest h.suffix h.flows
  exact ⟨by simp [h.notes, hnext.notes], hnext.suffix.trans h.suffix, hnext.flows⟩

theorem Smooth.cons {r : Reading α} (h : Smooth c us w ts r) : Smooth c us w (t :: ts) r :=
  ⟨h.notes, h.suffix.trans (List.suffix_cons t ts), h.flows⟩

/-- What reading a phrase comes to where the tokens are those that it wants. -/
def Fluent (c : Context) (ts : List Token) (phrase : Phrase) (r : Reading Expr) : Prop :=
  match phrase with
  | .operand .sequence => ∀ us, Flows c us .content ts → Reaches us r
  | .operand _ => ∀ us, Flows c us .operand ts → Smooth c us .onward ts r
  | .chain .sequence _ => ∀ us, Flows c us .onward ts →
      (∀ t ∈ ts.head?, EndsOperand .relation t) → Reaches us r
  | .chain _ _ | .scripts _ => ∀ us, Flows c us .onward ts → Smooth c us .onward ts r
  | .scriptArgument => ∀ us, Flows c us .script ts → Smooth c us .onward ts r
  | .argument => ∀ us w, Flows c us (.argument w) ts → Smooth c us w ts r
  | .rows name _ _ _ => ∀ us, Flows c us (.rows name) ts → Smooth c us .onward ts r
  | .strays _ => True

/-- Phrases at the front of lists with fewer than `n` tokens are read so. -/
def FluentBelow (n : ℕ) : Prop :=
  ∀ phrase c ts, ts.length < n → Fluent c ts phrase (read phrase c ts)

end Readings

section Keywords

variable (h : FluentBelow n)
include h

theorem FluentBelow.tighter (hL : L ≠ .sequence) (hn : ts.length < n)
    (hts : Flows c us .operand ts) : Smooth c us .onward ts (read (.operand L) c ts) := by
  have hread := h (.operand L) c ts hn
  cases L <;> first | contradiction | exact hread us hts

theorem FluentBelow.chain (hL : L ≠ .sequence) (hn : ts.length < n) (e : Expr)
    (hts : Flows c us .onward ts) : Smooth c us .onward ts (read (.chain L e) c ts) := by
  have hread := h (.chain L e) c ts hn
  cases L <;> first | contradiction | exact hread us hts

/-- What stands between delimiters is read up to the one that closes. -/
theorem closed_smooth {u : Token} {closing : String} {f : Expr → Bool → Expr} (hn : ts.length < n)
    (hts : Flows c (u :: vs) .content ts) (hu : u.isSymbol closing = true)
    (hvs : Flows c us w vs) :
    Smooth c us w ts ((read (.operand .sequence) c ts).bind fun content rest =>
      (expect c closing rest).map (f content)) := by
  have hcontent : Reaches (u :: vs) (read (.operand .sequence) c ts) :=
    h (.operand .sequence) c ts hn _ hts
  have hrest := read_suffix (.operand .sequence) c ts
  rw [hcontent.rest] at hrest
  have hexpect : expect c closing (u :: vs) = .done true vs := by simp [expect, hu]
  refine ⟨?_, ?_, ?_⟩
  · simp [hcontent.notes, hcontent.rest, hexpect, Reading.done]
  · simpa [hcontent.rest, hexpect, Reading.done] using (List.suffix_cons u vs).trans hrest
  · simpa [hcontent.rest, hexpect, Reading.done] using hvs

theorem bracket_smooth (hn : ts.length < n) (ht : t.isOpening = true)
    (hts : Flows c us .operand (t :: ts)) : Smooth c us .onward ts (bracket read c t.text ts) := by
  obtain ⟨hk, -, hs, hscript⟩ := isOpening_facts ht
  cases hts with
  | bracket _ hd hts hu hvs =>
    simp only [bracket, hd, Option.getD_some]
    exact closed_smooth h hn hts hu hvs
  | atom ha => simp [ha.opening] at ht
  | sign hsign => simp [hsign] at hs
  | mark hm => simp [hm] at hscript
  | keyword hf | fraction hf | large hf | sized hf => simp [hf.kind] at hk
  | block hf => simp [hf] at hk

theorem bound_smooth {mark : String} (hm : mark = "^" ∨ mark = "_") (hn : ts.length ≤ n)
    (hts : Flows c us .onward ts) : Smooth c us .onward ts (bound read c mark ts) := by
  cases ts with
  | nil => exact .done hts _
  | cons t rest =>
    simp only [bound]
    split
    · next ht =>
      have hs : t.isScript = true := by
        obtain rfl | rfl := hm <;> simp [Token.isScript, ht]
      exact ((h .scriptArgument c rest hn us (hts.script hs)).map _).cons
    · exact .done hts _

theorem bounds_smooth (hn : ts.length ≤ n) (hts : Flows c us .onward ts) :
    Smooth c us .onward ts (bounds read c ts) := by
  unfold bounds
  split
  · exact (bound_smooth h (.inl rfl) hn hts).bind fun _ vs hv hvs =>
      (bound_smooth h (.inr rfl) (hv.length_le.trans hn) hvs).map _
  · refine (bound_smooth h (.inr rfl) hn hts).bind fun _ vs hv hvs => ?_
    split
    · exact (bound_smooth h (.inl rfl) (hv.length_le.trans hn) hvs).map _
    · exact .done hvs _

theorem body_smooth (hn : ts.length < n) (hts : Flows c us .onward ts) :
    Smooth c us .onward ts (body read c ts) := by
  cases ts with
  | nil => exact .done hts _
  | cons t rest =>
    simp only [body]
    split
    · next ht => exact (h.tighter (by decide) hn (hts.of_startsOperand ht)).map _
    · exact .done hts _

theorem sizedBracket_smooth {left right : String} {u : Token} {ws xs : List Token}
    (hn : ts.length < n) (hl : sizedDelimiter c .left ts = .done left vs)
    (hvs : Flows c (u :: ws) .content vs) (hu : u.word? = some "right")
    (hr : sizedDelimiter c .right ws = .done right xs) (hx : Flows c us .onward xs) :
    Smooth c us .onward ts (sizedBracket read c ts) := by
  have hleft := (sizedDelimiter_settled (c := c) .left ts).2
  have hright := (sizedDelimiter_settled (c := c) .right ws).2
  rw [hl] at hleft
  rw [hr] at hright
  have hcontent : Reaches (u :: ws) (read (.operand .sequence) c vs) :=
    h (.operand .sequence) c vs (Agree.length_le hleft hn) _ hvs
  have hrest := read_suffix (.operand .sequence) c vs
  rw [hcontent.rest] at hrest
  have hclosing : sizedClosing c (u :: ws) = .done right xs := by simp [sizedClosing, hu, hr]
  have hread : sizedBracket read c ts = ((read (.operand .sequence) c vs).bind fun content rest =>
      (sizedClosing c rest).map fun right =>
        if left = "" ∧ right = "" then content else .bracket true left right content) := by
    simp only [sizedBracket, hl, Reading.bind_done]
  rw [hread]
  refine ⟨?_, ?_, ?_⟩
  · simp [hcontent.notes, hcontent.rest, hclosing, Reading.done]
  · simpa [hcontent.rest, hclosing, Reading.done] using
      hright.trans ((List.suffix_cons u ws).trans (hrest.trans hleft))
  · simpa [hcontent.rest, hclosing, Reading.done] using hx

theorem keyword_smooth (hn : ts.length < n) (ht : t.kind = .keyword)
    (hts : Flows c us .operand (t :: ts)) : Smooth c us .onward ts (keywordForm read c t ts) := by
  obtain ⟨-, hs, hscript, -⟩ := not_mark_of_keyword ht
  cases hts with
  | keyword hf hts =>
    rw [hf.form]
    have hread := h .argument c ts hn us _ hts
    rw [read_argument] at hread
    exact hread.map _
  | fraction hf hts =>
    rw [hf.form]
    exact (h .argument c ts hn us _ hts).bind fun _ vs hv hvs =>
      (h .argument c vs (Agree.length_le hv hn) us _ hvs).map _
  | large hf hts =>
    rw [hf.form]
    exact (bounds_smooth h hn.le hts).bind fun _ vs hv hvs =>
      (body_smooth h (Agree.length_le hv hn) hvs).map _
  | sized hf hl hvs hu hr hx =>
    rw [hf.form]
    exact sizedBracket_smooth h hn hl hvs hu hr hx
  | block _ _ _ hr hv hvs =>
    rw [hr, ← read_rows]
    have hread := h (.rows _ [] [] false) c _ (Agree.length_le hv hn) us hvs
    exact ⟨hread.notes, hread.suffix.trans hv, hread.flows⟩
  | atom ha =>
    have hk := ha.kind
    simp [ht] at hk
  | sign hsign => simp [hsign] at hs
  | mark hm => simp [hm] at hscript
  | bracket hk => simp [hk] at ht

end Keywords

section Operands

variable (h : FluentBelow n)
include h

theorem identifier_smooth (hn : ts.length ≤ n) (hts : Flows c us .onward ts) :
    Smooth c us .onward ts (identifier read c t ts) := by
  cases ts with
  | nil => exact .done hts _
  | cons u rest =>
    simp only [identifier]
    split
    · next hu =>
      obtain ⟨hb, hp⟩ := starts_of_isOpening (c := c) hu
      exact ((bracket_smooth h hn hu (hts.operand hb (isOpening_facts hu).2.1 hp)).map _).cons
    · split
      · next hu =>
        obtain ⟨hb, hp, -⟩ := facts_of_left (c := c) hu
        have hk : u.kind = .keyword := by
          by_contra hk
          simp [Token.word?, hk] at hu
        have hkeyword := keyword_smooth h hn hk (hts.operand hb (not_mark_of_keyword hk).1 hp)
        have hform : keywordForm read c u rest = sizedBracket read c rest := by
          simp [keywordForm, hu]
        rw [hform] at hkeyword
        exact (hkeyword.map _).cons
      · exact .done hts _

/-- An operand without its scripts, unless it starts with a script mark. -/
theorem primary_smooth (hn : ts.length < n) (hts : Flows c us .operand (t :: ts))
    (hs : t.isScript = false) : Smooth c us .onward ts (primary read c (t :: ts)) := by
  have hkeyword (hk : t.kind = .keyword) :
      Smooth c us .onward ts (primary read c (t :: ts)) := by
    obtain ⟨hb, hp⟩ := hts.starts
    simpa [primary, hb, hp, hk] using keyword_smooth h hn hk hts
  cases hts with
  | atom ha hts =>
    have hopen := ha.opening
    rcases ha.kind with hk | hk | hk
    · simpa [primary, ha.boundary, ha.operator, hk] using identifier_smooth h hn.le hts
    · simpa [primary, ha.boundary, ha.operator, hk] using Smooth.done hts (literalOf t)
    · simpa [primary, ha.boundary, ha.operator, hk, hopen, hs, ha.sign] using
        Smooth.done hts (symbolLiteral c.dialect t)
  | sign ht hts =>
    obtain ⟨hk, hp, -, hopen, -⟩ := isSign_facts ht
    have hb := isBoundary_of_operator (c := c) (operator_of_isSign ht)
    simpa [primary, hb, hp, hk, hopen, hs, ht] using
      (h.tighter (by decide) hn hts).map (Expr.binary t.text .empty)
  | mark ht => simp [ht] at hs
  | bracket hk hd hts hu hvs =>
    have hopen : t.isOpening = true := by simp [Token.isOpening, hk, Vocabulary.isOpening, hd]
    rw [primary_of_isOpening hopen]
    exact bracket_smooth h hn hopen (.bracket hk hd hts hu hvs)
  | keyword hf | fraction hf | large hf | sized hf => exact hkeyword hf.kind
  | block hk => exact hkeyword hk

theorem scripts_smooth (hn : ts.length ≤ n) (e : Expr) (hts : Flows c us .onward ts) :
    Smooth c us .onward ts (scripts read c e ts) := by
  cases ts with
  | nil => exact .done hts _
  | cons t rest =>
    have hscript (ht : t.isScript = true) (f : Expr → Expr) :
        Smooth c us .onward rest ((read .scriptArgument c rest).bind fun e rest =>
          read (.scripts (f e)) c rest) :=
      (h .scriptArgument c rest hn us (hts.script ht)).bind fun a vs hv hvs =>
        h (.scripts (f a)) c vs (Agree.length_le hv hn) us hvs
    simp only [scripts]
    split
    · next ht => exact (hscript (by simp [Token.isScript, ht]) _).cons
    · split
      · next ht => exact (hscript (by simp [Token.isScript, ht]) _).cons
      · exact .done hts _

theorem factor_smooth (hn : ts.length ≤ n) (hts : Flows c us .operand ts) :
    Smooth c us .onward ts (factor read c ts) := by
  obtain ⟨t, rest, rfl⟩ := List.exists_cons_of_ne_nil hts.ne_nil
  by_cases hs : t.isScript = true
  · obtain ⟨hb, hr⟩ := isScript_facts (c := c) hs
    rw [factor, primary_of_isScript hs hb, Reading.bind_done]
    exact scripts_smooth h hn .empty (.beside hts hr)
  · exact (primary_smooth h hn hts (by simpa using hs)).cons.bind fun e vs hv hvs =>
      scripts_smooth h (hv.length_le.trans hn) e hvs

theorem chain_smooth (hL : L ≠ .sequence) (hn : ts.length ≤ n) (e : Expr)
    (hts : Flows c us .onward ts) : Smooth c us .onward ts (chain read c L e ts) := by
  cases ts with
  | nil => exact .done hts _
  | cons t rest =>
    simp only [chain]
    split
    · exact .done hts _
    · next operator ho =>
      exact ((h.tighter (next_ne_sequence L) hn (hts.of_operator ho)).bind fun right vs hv hvs =>
        h.chain hL (Agree.length_le hv hn) _ hvs).cons

theorem looser_smooth (hL : L ≠ .sequence) {r : Reading Expr} (hn : ts.length ≤ n)
    (hr : Smooth c us .onward ts r) : Smooth c us .onward ts (r.bind (chain read c L)) :=
  hr.bind fun e _ hv hvs => chain_smooth h hL (hv.length_le.trans hn) e hvs

theorem product_smooth (hn : ts.length ≤ n) (hts : Flows c us .operand ts) :
    Smooth c us .onward ts (product read c ts) :=
  looser_smooth h (by decide) hn (factor_smooth h hn hts)

theorem sum_smooth (hn : ts.length ≤ n) (hts : Flows c us .operand ts) :
    Smooth c us .onward ts (sum read c ts) :=
  looser_smooth h (by decide) hn (product_smooth h hn hts)

theorem relation_smooth (hn : ts.length ≤ n) (hts : Flows c us .operand ts) :
    Smooth c us .onward ts (relation read c ts) :=
  looser_smooth h (by decide) hn (sum_smooth h hn hts)

/-- After a relation a sequence goes on up to its end: no operator comes next. -/
theorem relation_reaches (hn : (t :: ts).length ≤ n) (hts : Flows c us .operand (t :: ts))
    {r : Reading Expr} (hr : r.notes = (relation read c (t :: ts)).notes)
    (hrest : r.rest = (relation read c (t :: ts)).rest) :
    Reaches us (r.bind fun e rest => read (.chain .sequence e) c rest) := by
  have hrelation := relation_smooth h hn hts
  have hprogress := relation_progress hts.starts.1 ts
  have hends : ∀ u ∈ (operand read c .relation (t :: ts)).rest.head?, EndsOperand .relation u :=
    operand_ends (by decide) (t :: ts)
  have hnext : Reaches us (read (.chain .sequence r.value) c (relation read c (t :: ts)).rest) :=
    h (.chain .sequence r.value) c _ (hprogress.trans_le hn) us hrelation.flows hends
  exact ⟨by simp [hr, hrest, hrelation.notes, hnext.notes], by simp [hrest, hnext.rest]⟩

theorem sequence_reaches (hn : ts.length ≤ n) (hts : Flows c us .content ts) :
    Reaches us (sequence read c ts) := by
  cases hts with
  | empty hb => exact ⟨by simp [sequence, hb, Reading.done], by simp [sequence, hb, Reading.done]⟩
  | filled hts =>
    obtain ⟨t, rest, rfl⟩ := List.exists_cons_of_ne_nil hts.ne_nil
    rw [sequence_starts hts.starts.1]
    exact relation_reaches h hn hts rfl rfl

theorem juxtaposed_reaches (hn : ts.length ≤ n) (left : Expr) (hts : Flows c us .onward ts)
    (hends : ∀ t ∈ ts.head?, EndsOperand .relation t) : Reaches us (juxtaposed read c left ts) := by
  cases hts with
  | stop hb => exact ⟨by simp [juxtaposed, hb, Reading.done], by simp [juxtaposed, hb, Reading.done]⟩
  | beside hts =>
    rw [juxtaposed_starts hts.starts.1]
    exact relation_reaches h hn hts rfl rfl
  | @operator _ _ t _ ht =>
    have hnone := (hends t rfl).2
    obtain ht | ht := ht
    · have hrelation := hnone .relation (Nat.le_refl _)
      simp [operator_of_isRelation ht] at hrelation
    · have hproduct := hnone .product (by decide)
      simp [isProductOperator, hproduct] at ht

theorem operand_fluent (L : Level) (hn : ts.length ≤ n) :
    Fluent c ts (.operand L) (operand read c L ts) := by
  cases L with
  | sequence => exact fun us => sequence_reaches h hn
  | relation => exact fun us => relation_smooth h hn
  | sum => exact fun us => sum_smooth h hn
  | product => exact fun us => product_smooth h hn
  | factor => exact fun us => factor_smooth h hn

theorem latexArgument_smooth (hn : ts.length ≤ n) (hd : c.dialect = .latex)
    (hts : Flows c us (.argument w) ts) : Smooth c us w ts (latexArgument read c ts) := by
  cases hts with
  | factor hd' => simp [hd'] at hd
  | group _ ht hts hu hvs =>
    simp only [latexArgument, ht, if_true]
    exact (closed_smooth h hn hts hu hvs).cons

theorem argument_smooth (hn : ts.length ≤ n) (hts : Flows c us (.argument w) ts) :
    Smooth c us w ts (argument read c ts) := by
  cases hd : c.dialect with
  | latex =>
    simp only [argument, hd]
    exact latexArgument_smooth h hn hd hts
  | legacy =>
    simp only [argument, hd]
    cases hts with
    | group hd' => simp [hd'] at hd
    | factor _ hts => exact (factor_smooth h hn hts).map _

/-- In the legacy dialect a script is an operand that starts with no relation and with no sign. -/
theorem legacyScriptArgument_smooth (hn : (t :: ts).length ≤ n)
    (hts : Flows c us .operand (t :: ts)) (hr : t.isRelation = false) (hs : t.isSign = false) :
    Smooth c us .onward (t :: ts) (legacyScriptArgument read c (t :: ts)) := by
  have hoperand := startsOperand_of_starts hts.starts hr
  have hbracket (ht : t.isOpening = true) := bracket_smooth h hn ht hts
  simp only [legacyScriptArgument]
  split
  · next ht => exact ((hbracket (isOpening_of_brace ht)).map _).cons
  · simp only [hoperand, Bool.not_true, Bool.false_eq_true, if_false]
    have hplain (hk : t.kind = .identifier ∨ t.kind = .number) : Flows c us .onward ts := by
      refine hts.after ?_ ?_ ?_ hs <;>
        rcases hk with hk | hk <;> simp [hk, Token.isOpening, Token.isScript, Token.isSymbol]
    split
    · next hk => exact (Smooth.done (hplain (.inl hk)) _).cons
    · next hk => exact (Smooth.done (hplain (.inr hk)) _).cons
    · next hk => exact (keyword_smooth h hn hk hts).cons
    · next hk =>
      split
      · next ht => exact (hbracket ht).cons
      · next ho =>
        split
        · exact .done (.beside hts hr) _
        · next hm =>
          exact (Smooth.done (hts.after hk (by simpa using ho) (by simpa using hm) hs) _).cons

theorem scriptArgument_smooth (hn : ts.length ≤ n) (hts : Flows c us .script ts) :
    Smooth c us .onward ts (scriptArgument read c ts) := by
  cases hts with
  | scriptGroup hd hts =>
    simp only [scriptArgument, hd]
    exact latexArgument_smooth h hn hd hts
  | @scriptSign _ _ t _ hd ht hts =>
    obtain ⟨hk, hp, hscript, hopen, hr⟩ := isSign_facts ht
    have hoperand := startsOperand_of_starts
      ⟨isBoundary_of_operator (c := c) (operator_of_isSign ht), hp⟩ hr
    have hbrace : t.isSymbol "\x7b" = false :=
      eq_false_of_ne_true fun hbrace => by simp [isOpening_of_brace hbrace] at hopen
    simpa [scriptArgument, hd, legacyScriptArgument, hbrace, hoperand, hk, hopen, hscript] using
      (Smooth.done hts (symbolLiteral .legacy t)).cons
  | scriptOperand hd hts hr hs =>
    simp only [scriptArgument, hd]
    exact legacyScriptArgument_smooth h hn hts hr hs

theorem rows_smooth (hn : ts.length ≤ n) (hts : Flows c us (.rows name) ts)
    (complete : List (List Expr)) (cells : List Expr) (filled : Bool) :
    Smooth c us .onward ts (Grammar.rows read c name complete cells filled ts) := by
  cases hts with
  | @blockEnd _ _ _ t rest vs hends hend hvs =>
    have hsuffix := (blockEnd_settled (c := c) name (t :: rest)).2
    rw [hend] at hsuffix
    simp only [Grammar.rows, hends, or_true, if_true, hend]
    exact ⟨rfl, hsuffix, hvs⟩
  | @blockMark _ _ _ t rest ht hts =>
    have hrest (complete : List (List Expr)) (cells : List Expr) :
        Smooth c us .onward rest (Grammar.rows read c name complete cells false rest) := by
      rw [← read_rows]
      exact h (.rows name complete cells false) c rest hn us hts
    obtain ht | ht := ht
    · rw [rows_of_break ht]
      exact (hrest _ _).cons
    · obtain ⟨kind, text, offset⟩ := t
      simp only [Token.isSymbol, Bool.and_eq_true, decide_eq_true_eq] at ht
      obtain ⟨rfl, rfl⟩ := ht
      rw [rows_of_mark]
      exact (hrest _ _).cons
  | @cell _ _ _ _ vs hts hvs =>
    obtain ⟨t, rest, rfl⟩ := List.exists_cons_of_ne_nil hts.ne_nil
    obtain ⟨hb, hrow, hcell, hends⟩ := isBoundary_withinRows hts.starts.1
    have hsequence := sequence_reaches h hn (.filled hts)
    have hsuffix := sequence_takes hts.starts.1 rest
    have hprogress := sequence_progress hts.starts.1 rest
    rw [hsequence.rest] at hsuffix hprogress
    have hnext := h (.rows name complete (cells ++ [(sequence read c.withinRows (t :: rest)).value])
      true) c vs (hprogress.trans_le hn) us hvs
    rw [rows_of_cell (hends name rest) hrow hcell hb]
    refine ⟨?_, ?_, ?_⟩
    · simp [hsequence.notes, hsequence.rest, hnext.notes]
    · rw [Reading.rest_bind, hsequence.rest]
      exact hnext.suffix.trans (hsuffix.trans (List.suffix_cons t rest))
    · rw [Reading.rest_bind, hsequence.rest]
      exact hnext.flows

theorem step_fluent (phrase : Phrase) (hn : ts.length ≤ n) :
    Fluent c ts phrase (step read phrase c ts) := by
  cases phrase with
  | operand L => exact operand_fluent h L hn
  | chain L left =>
    cases L with
    | sequence => exact fun us => juxtaposed_reaches h hn left
    | relation => exact fun us => chain_smooth h (L := .relation) (by decide) hn left
    | sum => exact fun us => chain_smooth h (L := .sum) (by decide) hn left
    | product => exact fun us => chain_smooth h (L := .product) (by decide) hn left
    | factor => exact fun us => chain_smooth h (L := .factor) (by decide) hn left
  | scripts base => exact fun us => scripts_smooth h hn base
  | scriptArgument => exact fun us => scriptArgument_smooth h hn
  | argument => exact fun us w => argument_smooth h hn
  | rows name complete cells filled =>
    exact fun us hts => rows_smooth h hn hts complete cells filled
  | strays left => trivial

end Operands

/-- Tokens that are those wanted are read without a note, however many they are. -/
theorem fluentBelow (n : ℕ) : FluentBelow n :=
  read_below (fun phrase c us => Fluent c us phrase)
    (fun _ ih phrase _ _ hn => step_fluent ih phrase hn) n

theorem reaches_of_flows (hts : Flows c us .content ts) :
    Reaches us (operand read c .sequence ts) :=
  sequence_reaches (fluentBelow ts.length) le_rfl hts

end MathMarkup.Grammar
