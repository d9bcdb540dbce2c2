import MathMarkup.Proofs.Expr.Normal
import MathMarkup.Proofs.Rereading.Parsed
import MathMarkup.Proofs.Token.Partition

/-! What is parsed without a note is in normal form. Each operand is as tight as its place since every
level of the grammar reads up to a token that it does not go on with, and a sign comes first only
where the tokens start with one. -/
namespace MathMarkup.Grammar

open MathMarkup.Expr Scan

variable {d : Dialect} {c : Context} {ts us : List Token} {t : Token} {v left right : Expr}
  {L : Level} {sign : Prop} {n : ℕ}

section Tokens

/-- A token with a text of its own. -/
def Worded (d : Dialect) (t : Token) : Prop :=
  match t.kind with
  | .identifier => identifierValue d t.text ≠ ""
  | .number | .symbol => t.text ≠ ""
  | .keyword => True
  | .space | .stop | .unknown => False

def AllWorded (d : Dialect) (ts : List Token) : Prop := ∀ t ∈ ts, Worded d t

theorem AllWorded.suffix (h : AllWorded d ts) (hs : us <:+ ts) : AllWorded d us :=
  fun t ht => h t (hs.subset ht)

theorem AllWorded.tail (h : AllWorded d (t :: ts)) : AllWorded d ts :=
  h.suffix (List.suffix_cons t ts)

theorem AllWorded.head (h : AllWorded d (t :: ts)) : Worded d t := h t (by simp)

theorem text_ne_empty (ht : Worded d t) (hi : t.kind ≠ .identifier) (hk : t.kind ≠ .keyword) :
    t.text ≠ "" := by
  unfold Worded at ht
  split at ht <;> simp_all

def StartsSigned (ts : List Token) : Prop := ∃ t ∈ ts.head?, t.isSign = true

theorem EndsOperand.not_sign (h : EndsOperand .relation t) : t.isSign = false := by
  simpa [operator?] using h.2 .sum (by decide)

/-- After a relation no sign comes next, so what stands beside it starts with none. -/
theorem not_startsSigned_rest (c : Context) (ts : List Token) :
    ¬StartsSigned (relation read c ts).rest := by
  rintro ⟨t, ht, hsign⟩
  have hends : ∀ u ∈ (operand read c .relation ts).rest.head?, EndsOperand .relation u :=
    operand_ends (by decide) ts
  simp [(hends t ht).not_sign] at hsign

end Tokens

section Values

/-- An expression in normal form at a level, which starts with a sign only in the case given. -/
structure Stands (d : Dialect) (L : Level) (sign : Prop) (v : Expr) : Prop
    extends NormalAt d L v where
  sign : v.meetsSign = true → sign

/-- A phrase that no group is taken off. -/
structure Closed (d : Dialect) (v : Expr) : Prop extends Stands d .factor False v where
  bare : v.isImplicit = false

/-- What stands in a part of its own, where no group is needed. -/
def IsPart (d : Dialect) (v : Expr) : Prop := v.Normal d ∧ v.isImplicit = false

/-- What scripts may attach to: an operand, or nothing if a script mark comes next. -/
def IsStem (d : Dialect) (sign : Prop) (ts : List Token) (v : Expr) : Prop :=
  Stands d .factor sign v ∨ v = .empty ∧ ∃ t ∈ ts.head?, t.isScript = true

def NormalRow (d : Dialect) (row : List Expr) : Prop := ∀ cell ∈ row, cell.Normal d

def NormalTable (d : Dialect) (table : List (List Expr)) : Prop := ∀ row ∈ table, NormalRow d row

theorem Stands.mono {M : Level} {sign' : Prop} (h : Stands d L sign v) (hM : M ≤ L)
    (hs : sign → sign') : Stands d M sign' v :=
  ⟨h.toNormalAt.mono hM, fun hv => hs (h.sign hv)⟩

theorem Closed.stands (h : Closed d v) (sign : Prop) : Stands d .factor sign v :=
  h.toStands.mono (Nat.le_refl _) False.elim

theorem Closed.part (h : Closed d v) : IsPart d v := ⟨h.normal, h.bare⟩

theorem IsStem.normal (h : IsStem d sign ts v) : v.Normal d := by
  obtain h | ⟨rfl, -⟩ := h
  · exact h.normal
  · exact normal_empty

/-- A literal with a value is an operand of every level. -/
theorem stands_literal {value : String} (h : value ≠ "") : Stands d .factor sign (.literal value) :=
  ⟨⟨normal_literal, by simpa [isEmpty] using h, Nat.le_refl _⟩, nofun⟩

theorem symbolLiteral_normal (ht : t.text ≠ "") : Stands d .factor sign (symbolLiteral d t) := by
  unfold symbolLiteral
  split
  · exact stands_literal (by decide)
  · exact stands_literal ht

/-- So are brackets, fractions with a bar of their own, and the other nodes without operands. -/
theorem closed_node (hn : v.Normal d) (hb : v.isImplicit = false) (he : v.isEmpty = false)
    (hl : v.level d = .factor) (hs : v.meetsSign = false) : Closed d v :=
  ⟨⟨⟨hn, he, by rw [hl]; exact Nat.le_refl _⟩, by simp [hs]⟩, hb⟩

theorem stands_bracket {sized : Bool} {a b : String} {x : Expr}
    (h : (Expr.bracket sized a b x).Normal d) : Stands d .factor sign (.bracket sized a b x) :=
  ⟨⟨h, rfl, Nat.le_refl _⟩, nofun⟩

theorem stands_combine {operator : String} (ho : operator? L t = some operator)
    (hl : Stands d L sign left) (hr : NormalAt d L.next right) :
    Stands d L sign (combine operator left right) := by
  have hleft := hl.normal.unwrap
  have hright := hr.normal.unwrap
  obtain ⟨hbinary, rfl⟩ | ⟨hword, rfl⟩ := operator_level ho
  · have hne : ∀ x ∈ infixOperators, x ≠ "over" ∧ x ≠ "atop" := by decide
    rw [combine, if_neg (hne _ hbinary).1, if_neg (hne _ hbinary).2]
    refine ⟨normalAt_operation hbinary hl.toNormalAt hr, fun hs => hl.sign ?_⟩
    simpa [meetsSign, isSigned, hl.ne_empty, hbinary] using hs
  · have hfraction (bar : Bool) :
        Stands d .product sign (.fraction bar left.unwrap right.unwrap) := by
      refine ⟨⟨normal_fraction hleft hright, rfl, ?_⟩, fun hs => by cases hs⟩
      simp only [Expr.level]
      split <;> decide
    rcases hword with rfl | rfl
    · exact hfraction true
    · exact hfraction false

/-- What stands side by side; what comes second does not start with a sign. -/
theorem normal_concat (hl : left.Normal d ∧ left.isEmpty = false)
    (hr : Stands d .relation False right) : (Expr.binary "concat" left right).Normal d := by
  have hsign : right.meetsSign = false := by simpa using hr.sign
  exact everywhere_binary.2 ⟨.concat hl.2 hr.ne_empty hr.level hsign, hl.1, hr.normal⟩

theorem stands_sign (ht : t.isSign = true) (hv : NormalAt d .factor v) (hs : sign) :
    Stands d .factor sign (.binary t.text .empty v) := by
  have ho : t.text ∈ ["+", "-"] := by
    simp only [Token.isSign, Bool.and_eq_true] at ht
    simpa [Vocabulary.isSign] using ht.2
  have hsigned : (Expr.binary t.text .empty v).isSigned = true := by
    simpa [isSigned, empty, isEmpty] using ho
  refine ⟨⟨?_, rfl, ?_⟩, fun _ => hs⟩
  · exact everywhere_binary.2 ⟨.sign ho rfl hv.ne_empty (level_factor hv.level), normal_empty, hv.normal⟩
  · simp only [Expr.level, hsigned, if_true]
    exact Nat.le_refl _

theorem NormalRow.concat {cells : List Expr} {cell : Expr} (h : NormalRow d cells)
    (hc : cell.Normal d) : NormalRow d (cells ++ [cell]) := by
  intro x hx
  rcases List.mem_append.1 hx with hx | hx
  · exact h x hx
  · exact List.mem_singleton.1 hx ▸ hc

theorem NormalTable.closeRow {table : List (List Expr)} {cells : List Expr} (h : NormalTable d table)
    (hc : NormalRow d cells) : NormalTable d (closeRow table cells) := by
  unfold Grammar.closeRow
  split
  · exact h
  · intro row hrow
    rcases List.mem_append.1 hrow with hrow | hrow
    · exact h row hrow
    · exact List.mem_singleton.1 hrow ▸ hc

theorem NormalTable.closed {table : List (List Expr)} (h : NormalTable d table) (name : String) :
    Closed d (.block name table) :=
  closed_node (everywhere_block.2 ⟨trivial, h⟩) rfl rfl rfl rfl

end Values

section Phrases

/-- What a phrase is read as, if what is read already is as it should be. -/
def Reads (c : Context) (ts : List Token) (phrase : Phrase) (v : Expr) : Prop :=
  match phrase with
  | .operand .sequence => v.Normal c.dialect
  | .operand L => Stands c.dialect L (StartsSigned ts) v
  | .chain .sequence left => left.Normal c.dialect ∧ left.isEmpty = false → ¬StartsSigned ts →
      v.Normal c.dialect
  | .chain L left => ∀ sign, Stands c.dialect L sign left → Stands c.dialect L sign v
  | .scripts base => ∀ sign, IsStem c.dialect sign ts base → Stands c.dialect .factor sign v
  | .scriptArgument | .argument => IsPart c.dialect v
  | .rows _ complete cells _ =>
    NormalTable c.dialect complete → NormalRow c.dialect cells → Closed c.dialect v
  | .strays left => v = left

/-- All lists with fewer than `n` tokens are read as they should be. -/
def NormalBelow (n : ℕ) : Prop :=
  ∀ phrase c us, us.length < n → AllWorded c.dialect us →
    Yields us (Reads c us phrase) (read phrase c us)

/-- An end of a list that is short enough is read as it should be. -/
theorem NormalBelow.suffix (h : NormalBelow n) (hg : AllWorded c.dialect ts) (hn : ts.length < n)
    (hs : us <:+ ts) (phrase : Phrase) : Yields us (Reads c us phrase) (read phrase c us) :=
  h phrase c us (hs.length_le.trans_lt hn) (hg.suffix hs)

theorem reads_tighter (hL : L ≠ .sequence) :
    Reads c ts (.operand L) v ↔ Stands c.dialect L (StartsSigned ts) v := by
  cases L <;> first | contradiction | rfl

end Phrases

section Keywords

variable (h : NormalBelow n) (hg : AllWorded c.dialect ts)
include h hg

theorem bracket_normal {opening closing : String} (hd : Vocabulary.closing? opening = some closing)
    (hn : ts.length < n) : Yields ts (fun v => ∃ x, v = .bracket false opening closing x ∧
      v.Normal c.dialect) (bracket read c opening ts) := by
  unfold bracket
  refine .bind (h.suffix hg hn (List.suffix_refl ts) _) fun content us _ hcontent => ?_
  refine (expect_yields _ us).map fun found hfound => ?_
  obtain ⟨x, hflat, hx⟩ := Normal.bracket hcontent hd
  simp only [hfound, if_true, hd, Option.getD_some, hflat]
  exact ⟨x, rfl, hx⟩

theorem sizedBracket_normal (hn : ts.length < n) : Yields ts (fun v => ∃ a b x,
    v = .bracket true a b x ∧ v.Normal c.dialect) (sizedBracket read c ts) := by
  refine .bind (sizedDelimiter_yields _ ts) fun left us hu hl => ?_
  refine .bind (h.suffix hg hn hu _) fun content vs _ hcontent => ?_
  refine (sizedClosing_yields vs).map fun right hr => ?_
  have hne (side : Vocabulary.Side) : "" ∉ side.delimiters := by cases side <;> decide
  have hleft : left ≠ "" := ne_of_mem_of_not_mem hl (hne .left)
  have hright : right ≠ "" := ne_of_mem_of_not_mem hr (hne .right)
  simp only [hleft, false_and, if_false]
  exact ⟨_, _, _, rfl, everywhere_bracket.2 ⟨⟨hleft, hright⟩, hcontent⟩⟩

theorem bound_normal (mark : String) (hn : ts.length ≤ n) :
    Yields ts (fun part => ∀ e ∈ part, IsPart c.dialect e) (bound read c mark ts) := by
  cases ts with
  | nil => exact .done (by simp) _
  | cons t rest =>
    simp only [bound]
    split
    · refine ((h _ c rest hn hg.tail).map fun v hv => ?_).cons
      rintro e ⟨⟩
      exact hv
    · exact .done (by simp) _

theorem bounds_normal (hn : ts.length ≤ n) :
    Yields ts (fun parts => (∀ e ∈ parts.1, IsPart c.dialect e) ∧
      ∀ e ∈ parts.2, IsPart c.dialect e) (bounds read c ts) := by
  unfold bounds
  split
  · refine .bind (bound_normal h hg _ hn) fun upper us hu hupper => ?_
    exact (bound_normal h (hg.suffix hu) _ (hu.length_le.trans hn)).map fun lower hlower =>
      ⟨hlower, hupper⟩
  · refine .bind (bound_normal h hg _ hn) fun lower us hu hlower => ?_
    split
    · exact (bound_normal h (hg.suffix hu) _ (hu.length_le.trans hn)).map fun upper hupper =>
        ⟨hlower, hupper⟩
    · exact .done (by simp) us

theorem body_normal (hn : ts.length < n) :
    Yields ts (fun part => ∀ e ∈ part, IsPart c.dialect e) (body read c ts) := by
  cases ts with
  | nil => exact .done (by simp) _
  | cons t rest =>
    simp only [body]
    split
    · refine (h (.operand .factor) c _ hn hg).map fun v hv => ?_
      rintro e ⟨⟩
      exact hv.normal.unwrap
    · exact .done (by simp) _

theorem large_normal (operator : LargeOperator) (hn : ts.length < n) :
    Yields ts (Closed c.dialect) (large read c operator ts) := by
  refine .bind (bounds_normal h hg hn.le) fun parts us hu hparts => ?_
  refine (body_normal h (hg.suffix hu) (hu.length_le.trans_lt hn)).map fun part hpart => ?_
  refine closed_node (normal_large ?_) rfl rfl rfl rfl
  simpa using ⟨hparts.1, hparts.2, hpart⟩

theorem stackedFraction_normal (hd : c.dialect = .latex) (hn : ts.length < n) :
    Yields ts (Closed c.dialect) (stackedFraction read c ts) := by
  refine .bind (h .argument c ts hn hg) fun numerator us hu hnumerator => ?_
  refine (h.suffix hg hn hu .argument).map fun denominator hdenominator => ?_
  exact closed_node (normal_fraction hnumerator hdenominator) rfl rfl (by simp [Expr.level, hd]) rfl

theorem rows_normal (name : String) (hn : ts.length < n) :
    Yields ts (Closed c.dialect) (read (.rows name [] [] false) c ts) :=
  (h _ c ts hn hg).mono fun _ hv => hv (by simp [NormalTable]) (by simp [NormalRow])

theorem latexBlock_normal (t : Token) (hn : ts.length < n) :
    Yields ts (Closed c.dialect) (latexBlock read c t ts) := by
  cases ts with
  | nil => exact .missed _ _
  | cons u rest =>
    simp only [latexBlock]
    split
    · have hname : Yields rest (fun _ => True) (blockName c rest) := by
        refine ((expect_yields _ _).suffix (List.dropWhile_suffix _)).map fun _ _ => trivial
      refine (hname.bind fun name us hu _ => ?_).cons
      have hrest := hu.trans (List.suffix_cons u rest)
      exact rows_normal h (hg.suffix hrest) name (hrest.length_le.trans_lt hn)
    · exact .missed _ _

theorem legacyBlock_normal (t : Token) (name : String) (hn : ts.length < n) :
    Yields ts (Closed c.dialect) (legacyBlock read c t name ts) := by
  cases ts with
  | nil => exact .missed _ _
  | cons u rest =>
    simp only [legacyBlock]
    split
    · have hrest := List.suffix_cons u rest
      exact (rows_normal h (hg.suffix hrest) name (hrest.length_le.trans_lt hn)).cons
    · exact .missed _ _

theorem dialectKeyword_normal (t : Token) (hn : ts.length < n) :
    Yields ts (Closed c.dialect) (dialectKeyword read c t ts) := by
  have hunknown : Yields ts (Closed c.dialect) (unknownKeyword c t ts) := by
    intro hnotes
    simp [unknownKeyword] at hnotes
  unfold dialectKeyword
  split
  · next hd =>
    split
    all_goals first
      | exact stackedFraction_normal h hg hd hn
      | exact latexBlock_normal h hg t hn
      | exact hunknown
  · split
    · exact legacyBlock_normal h hg t _ hn
    · exact hunknown

theorem keywordForm_normal (t : Token) (hn : ts.length < n) :
    Yields ts (Closed c.dialect) (keywordForm read c t ts) := by
  unfold keywordForm
  split
  · refine (h .argument c ts hn hg).map fun v hv => ?_
    exact closed_node (everywhere_root.2 ⟨hv.2, hv.1⟩) rfl rfl rfl rfl
  · exact large_normal h hg _ hn
  · exact large_normal h hg _ hn
  · exact large_normal h hg _ hn
  · refine (sizedBracket_normal h hg hn).mono ?_
    rintro _ ⟨a, b, x, rfl, hx⟩
    exact closed_node hx rfl rfl rfl rfl
  · split
    · refine (h .argument c ts hn hg).map fun v hv => ?_
      exact closed_node (everywhere_decorated.2 ⟨hv.2, hv.1⟩) rfl rfl rfl rfl
    · exact dialectKeyword_normal h hg t hn

end Keywords

section Operands

variable (h : NormalBelow n)
include h

theorem identifier_normal (ht : Worded c.dialect t) (hk : t.kind = .identifier)
    (hg : AllWorded c.dialect ts) (hn : ts.length ≤ n) :
    Yields ts (Stands c.dialect .factor sign) (identifier read c t ts) := by
  have hvalue : identifierValue c.dialect t.text ≠ "" := by simpa [Worded, hk] using ht
  have happly {sized : Bool} {a b : String} {x : Expr}
      (hx : (Expr.bracket sized a b x).Normal c.dialect) : Stands c.dialect .factor sign
        (.binary "apply" (.literal (identifierValue c.dialect t.text)) (.bracket sized a b x)) := by
    refine ⟨⟨everywhere_binary.2 ⟨.apply hvalue, normal_literal, hx⟩, rfl, Nat.le_refl _⟩, ?_⟩
    have hbinary : "apply" ∉ infixOperators := by decide
    simp [meetsSign, isSigned, hbinary]
  cases ts with
  | nil => exact .done (stands_literal hvalue) _
  | cons u rest =>
    simp only [identifier]
    split
    · next hopen =>
      obtain ⟨closing, hclosing⟩ := closing_of_isOpening hopen
      refine ((bracket_normal h hg.tail hclosing hn).map ?_).cons
      rintro _ ⟨x, rfl, hx⟩
      exact happly hx
    · split
      · refine ((sizedBracket_normal h hg.tail hn).map ?_).cons
        rintro _ ⟨a, b, x, rfl, hx⟩
        exact happly hx
      · exact .done (stands_literal hvalue) _

/-- An operand that does not start with a script mark. -/
theorem primary_normal (hg : AllWorded c.dialect ts) (hs : ∀ t ∈ ts.head?, t.isScript = false)
    (hn : ts.length ≤ n) :
    Yields ts (Stands c.dialect .factor (StartsSigned ts)) (primary read c ts) := by
  cases ts with
  | nil => exact .missed _ _
  | cons t rest =>
    have hscript : t.isScript = false := hs t rfl
    simp only [primary]
    split
    · exact .missed _ _
    · split
      · next hk => exact (identifier_normal h hg.head hk hg.tail (Nat.le_of_succ_le hn)).cons
      · next hk =>
        refine (Yields.done (stands_literal ?_) rest).cons
        exact text_ne_empty hg.head (by simp [hk]) (by simp [hk])
      · next hk => exact ((keywordForm_normal h hg.tail t hn).mono fun v hv => hv.stands _).cons
      · next hi hnum hkey =>
        split
        · next hopen =>
          obtain ⟨closing, hclosing⟩ := closing_of_isOpening hopen
          refine ((bracket_normal h hg.tail hclosing hn).mono ?_).cons
          rintro _ ⟨x, rfl, hx⟩
          exact stands_bracket hx
        · simp only [hscript, Bool.false_eq_true, if_false]
          split
          · next hsign =>
            refine ((h (.operand .factor) c rest hn hg.tail).map fun v hv => ?_).cons
            exact stands_sign hsign hv.toNormalAt ⟨t, rfl, hsign⟩
          · exact (Yields.done (symbolLiteral_normal (text_ne_empty hg.head hi hkey)) rest).cons

theorem scripts_normal (hg : AllWorded c.dialect ts) {base : Expr}
    (hb : IsStem c.dialect sign ts base) (hn : ts.length ≤ n) :
    Yields ts (Stands c.dialect .factor sign) (scripts read c base ts) := by
  cases ts with
  | nil =>
    obtain hb | ⟨-, t, ht, -⟩ := hb
    · exact .done hb _
    · simp at ht
  | cons t rest =>
    have hscript (side : Script) : Yields rest (Stands c.dialect .factor sign)
        ((read .scriptArgument c rest).bind fun e rest =>
          read (.scripts (.script side base.unwrap e)) c rest) := by
      refine .bind (h _ c rest hn hg.tail) fun e us hu he => ?_
      refine (h.suffix hg.tail hn hu _).mono fun v hv => hv sign (.inl ?_)
      exact ⟨⟨normal_script hb.normal.unwrap he, rfl, Nat.le_refl _⟩, nofun⟩
    simp only [scripts]
    split
    · exact (hscript _).cons
    · split
      · exact (hscript _).cons
      · next hup hdown =>
        obtain hb | ⟨-, u, hu, hscript⟩ := hb
        · exact .done hb _
        · obtain rfl : t = u := by simpa using hu
          simp [Token.isScript, hup, hdown] at hscript

theorem factor_normal (hg : AllWorded c.dialect ts) (hn : ts.length ≤ n) :
    Yields ts (Stands c.dialect .factor (StartsSigned ts)) (factor read c ts) := by
  by_cases hs : ∀ t ∈ ts.head?, t.isScript = false
  · refine .bind (primary_normal h hg hs hn) fun v us hu hv => ?_
    exact scripts_normal h (hg.suffix hu) (.inl hv) (hu.length_le.trans hn)
  · obtain ⟨t, ht, hscript⟩ : ∃ t ∈ ts.head?, t.isScript = true := by simpa using hs
    obtain ⟨rest, rfl⟩ : ∃ rest, ts = t :: rest := List.head?_eq_some_iff.1 ht
    obtain ⟨side, hside⟩ := scriptMark_of_isScript hscript
    have hprimary : primary read c (t :: rest) = .done .empty (t :: rest) := by
      rw [hside]
      exact primary_scriptMark side c _ rest
    rw [factor, hprimary, Reading.bind_done]
    exact scripts_normal h hg (.inr ⟨rfl, t, rfl, hscript⟩) hn

theorem chain_normal (hg : AllWorded c.dialect ts) (hL : L ≠ .sequence)
    (hl : Stands c.dialect L sign left) (hn : ts.length ≤ n) :
    Yields ts (Stands c.dialect L sign) (chain read c L left ts) := by
  cases ts with
  | nil => exact .done hl _
  | cons t rest =>
    simp only [chain]
    split
    · exact .done hl _
    · next operator ho =>
      refine (Yields.bind (h _ c rest hn hg.tail) fun right us hu hr => ?_).cons
      rw [reads_tighter (next_ne_sequence L)] at hr
      have hcombined := stands_combine ho hl hr.toNormalAt
      refine (h.suffix hg.tail hn hu (.chain L _)).mono fun v hv => ?_
      cases L <;> first | contradiction | exact hv sign hcombined

/-- The operands of a level are tighter, and put together they stand at the level. -/
theorem looser_normal {M : Level} (hM : M ≠ .sequence) (hML : M ≤ L) {r : Reading Expr}
    (hr : Yields ts (Stands c.dialect L sign) r) (hg : AllWorded c.dialect ts)
    (hn : ts.length ≤ n) : Yields ts (Stands c.dialect M sign) (r.bind (chain read c M)) :=
  hr.bind fun _ _ hu hv =>
    chain_normal h (hg.suffix hu) hM (hv.mono hML id) (hu.length_le.trans hn)

theorem product_normal (hg : AllWorded c.dialect ts) (hn : ts.length ≤ n) :
    Yields ts (Stands c.dialect .product (StartsSigned ts)) (product read c ts) :=
  looser_normal h (by decide) (by decide) (factor_normal h hg hn) hg hn

theorem sum_normal (hg : AllWorded c.dialect ts) (hn : ts.length ≤ n) :
    Yields ts (Stands c.dialect .sum (StartsSigned ts)) (sum read c ts) :=
  looser_normal h (by decide) (by decide) (product_normal h hg hn) hg hn

theorem relation_normal (hg : AllWorded c.dialect ts) (hn : ts.length ≤ n) :
    Yields ts (Stands c.dialect .relation (StartsSigned ts)) (relation read c ts) :=
  looser_normal h (by decide) (by decide) (sum_normal h hg hn) hg hn

/-- After its first part a sequence goes on with what stands beside it. -/
theorem onward_normal {r : Reading Expr} (hg : AllWorded c.dialect ts) (hn : ts.length ≤ n)
    (hr : Yields ts (fun v => v.Normal c.dialect ∧ v.isEmpty = false) r)
    (hrest : ¬StartsSigned r.rest) :
    Yields ts (fun v => v.Normal c.dialect) (onward read c ts r) := by
  unfold onward
  split
  · next hlt =>
    intro hnotes
    rw [Reading.notes_bind, List.append_eq_nil_iff] at hnotes
    obtain ⟨hs, hv⟩ := hr hnotes.1
    obtain ⟨hs', hchain⟩ := h (.chain .sequence r.value) c r.rest (hlt.trans_le hn) (hg.suffix hs)
      hnotes.2
    exact ⟨hs'.trans hs, hchain hv hrest⟩
  · exact hr.mono fun _ hv => hv.1

theorem sequence_normal (hg : AllWorded c.dialect ts) (hn : ts.length ≤ n) :
    Yields ts (fun v => v.Normal c.dialect) (sequence read c ts) := by
  unfold sequence
  split
  · exact .done normal_empty _
  · refine onward_normal h hg hn ?_ (not_startsSigned_rest c ts)
    exact (relation_normal h hg hn).mono fun v hv => ⟨hv.normal, hv.ne_empty⟩

theorem juxtaposed_normal (hg : AllWorded c.dialect ts)
    (hl : left.Normal c.dialect ∧ left.isEmpty = false) (hts : ¬StartsSigned ts)
    (hn : ts.length ≤ n) :
    Yields ts (fun v => v.Normal c.dialect) (juxtaposed read c left ts) := by
  unfold juxtaposed
  split
  · exact .done hl.1 _
  · refine onward_normal h hg hn ?_ (not_startsSigned_rest c ts)
    refine (relation_normal h hg hn).map fun v hv => ⟨normal_concat hl ?_, rfl⟩
    exact hv.mono (Nat.le_refl _) fun hs => hts hs

theorem operand_normal (hg : AllWorded c.dialect ts) (L : Level) (hn : ts.length ≤ n) :
    Yields ts (Reads c ts (.operand L)) (operand read c L ts) := by
  cases L with
  | sequence => exact sequence_normal h hg hn
  | relation => exact relation_normal h hg hn
  | sum => exact sum_normal h hg hn
  | product => exact product_normal h hg hn
  | factor => exact factor_normal h hg hn

theorem latexArgument_normal (hg : AllWorded c.dialect ts) (hn : ts.length ≤ n) :
    Yields ts (IsPart c.dialect) (latexArgument read c ts) := by
  cases ts with
  | nil => exact .missed _ _
  | cons t rest =>
    simp only [latexArgument]
    split
    · refine (Yields.bind (h (.operand .sequence) c rest hn hg.tail) fun content us _ hv => ?_).cons
      exact (expect_yields _ us).map fun _ _ => Normal.unwrap hv
    · split
      · exact .missed _ _
      · split
        · exact ((keywordForm_normal h hg.tail t hn).mono fun _ hv => hv.part).cons
        · exact (Yields.done ⟨normal_literal, rfl⟩ rest).cons

theorem legacyScriptArgument_normal (hg : AllWorded c.dialect ts) (hn : ts.length ≤ n) :
    Yields ts (IsPart c.dialect) (legacyScriptArgument read c ts) := by
  cases ts with
  | nil => exact .missed _ _
  | cons t rest =>
    simp only [legacyScriptArgument]
    split
    · next hbrace =>
      have hclosing : Vocabulary.closing? t.text = some "\x7d" := by
        simp only [Token.isSymbol, Bool.and_eq_true, decide_eq_true_eq] at hbrace
        rw [hbrace.2]
        rfl
      refine ((bracket_normal h hg.tail hclosing hn).map ?_).cons
      rintro v ⟨x, -, hv⟩
      exact hv.unwrap
    · next hbrace =>
      split
      · exact .missed _ _
      · split
        · exact (Yields.done ⟨normal_literal, rfl⟩ rest).cons
        · exact (Yields.done ⟨normal_literal, rfl⟩ rest).cons
        · exact ((keywordForm_normal h hg.tail t hn).mono fun v hv => hv.part).cons
        · split
          · next hopen =>
            obtain ⟨closing, hclosing⟩ := closing_of_isOpening hopen
            refine ((bracket_normal h hg.tail hclosing hn).mono ?_).cons
            rintro _ ⟨x, rfl, hx⟩
            refine ⟨hx, ?_⟩
            have hk : t.kind = .symbol := by
              simp only [Token.isOpening, Bool.and_eq_true, decide_eq_true_eq] at hopen
              exact hopen.1
            have htext : t.text ≠ "\x7b" ∧ t.text ≠ "" := by
              refine ⟨by simpa [Token.isSymbol, hk] using hbrace, fun htext => ?_⟩
              simp [htext, Vocabulary.closing?] at hclosing
            simpa [isImplicit] using htext
          · split
            · exact .done ⟨normal_empty, rfl⟩ _
            · refine (Yields.done ⟨?_, ?_⟩ rest).cons <;>
              · unfold symbolLiteral
                split <;> simp [literalOf, isImplicit]

theorem scriptArgument_normal (hg : AllWorded c.dialect ts) (hn : ts.length ≤ n) :
    Yields ts (IsPart c.dialect) (scriptArgument read c ts) := by
  unfold scriptArgument
  split
  · exact latexArgument_normal h hg hn
  · exact legacyScriptArgument_normal h hg hn

theorem argument_normal (hg : AllWorded c.dialect ts) (hn : ts.length ≤ n) :
    Yields ts (IsPart c.dialect) (argument read c ts) := by
  unfold argument
  split
  · exact latexArgument_normal h hg hn
  · exact (factor_normal h hg hn).map fun v hv => hv.normal.unwrap

theorem table_normal (hg : AllWorded c.dialect ts) (name : String) {complete : List (List Expr)}
    {cells : List Expr} (filled : Bool) (hc : NormalTable c.dialect complete)
    (hcells : NormalRow c.dialect cells) (hn : ts.length ≤ n) :
    Yields ts (Closed c.dialect) (Grammar.rows read c name complete cells filled ts) := by
  have hend (us : List Token) : Yields us (Closed c.dialect)
      ((blockEnd c name us).map fun _ => .block name (closeRow complete cells)) :=
    fun _ => ⟨(blockEnd_settled name us).2, (hc.closeRow hcells).closed name⟩
  cases ts with
  | nil => exact hend []
  | cons t rest =>
    have hcell : Yields (t :: rest) (fun v => v.Normal c.dialect)
        (sequence read c.withinRows (t :: rest)) := sequence_normal h (c := c.withinRows) hg hn
    simp only [Grammar.rows]
    split
    · exact hend _
    · split
      · refine ((h _ c rest hn hg.tail).mono fun v hv => ?_).cons
        exact hv (hc.closeRow hcells) (by simp [NormalRow])
      · split
        · refine ((h (.rows name complete _ false) c rest hn hg.tail).mono fun v hv =>
            hv hc ?_).cons
          split
          · exact hcells
          · exact hcells.concat normal_empty
        · split
          · exact stray_yields t _
          · split
            · next hlt =>
              intro hnotes
              rw [Reading.notes_bind, List.append_eq_nil_iff] at hnotes
              obtain ⟨hs, hv⟩ := hcell hnotes.1
              obtain ⟨hs', hrows⟩ := h (.rows name complete (cells ++ [_]) true) c _
                (hlt.trans_le hn) (hg.suffix hs) hnotes.2
              exact ⟨hs'.trans hs, hrows hc (hcells.concat hv)⟩
            · intro hnotes
              rw [Reading.notes_bind, Reading.notes_bind, List.append_eq_nil_iff,
                List.append_eq_nil_iff] at hnotes
              exact absurd hnotes.1.2 (notes_skipStray t rest)

theorem step_normal (hg : AllWorded c.dialect ts) (phrase : Phrase) (hn : ts.length ≤ n) :
    Yields ts (Reads c ts phrase) (step read phrase c ts) := by
  have hs := read_suffix phrase c ts
  rw [read_eq] at hs
  cases phrase with
  | operand L => exact operand_normal h hg L hn
  | chain L left =>
    refine fun hnotes => ⟨hs, ?_⟩
    cases L with
    | sequence => exact fun hl hts => (juxtaposed_normal h hg hl hts hn hnotes).2
    | _ => exact fun sign hl => (chain_normal h hg (by decide) hl hn hnotes).2
  | scripts base =>
    exact fun hnotes => ⟨hs, fun sign hb => (scripts_normal h hg hb hn hnotes).2⟩
  | scriptArgument => exact scriptArgument_normal h hg hn
  | argument => exact argument_normal h hg hn
  | rows name complete cells filled =>
    exact fun hnotes => ⟨hs, fun hc hcells => (table_normal h hg name filled hc hcells hn hnotes).2⟩
  | strays left => exact strays_yields left ts

end Operands

section Texts

/-- Lists of tokens with texts are read into normal form, however many they are. -/
theorem normalBelow (n : ℕ) : NormalBelow n :=
  read_below (fun phrase c us a => AllWorded c.dialect us → Yields us (Reads c us phrase) a)
    (fun _ ih phrase _ _ hn hg => step_normal ih hg phrase hn) n

/-- No text between quotes is empty, one that the end of the text cuts short included. -/
def QuotesFilled (s : String) : Prop :=
  ∀ t ∈ tokenize .legacy s, t.text ≠ "\"" ∧ t.text ≠ "\"\""

/-- Only a keyword may be written otherwise than its text says. -/
theorem text_of_first {x : Char} {xs : List Char} (hk : (Lexeme.first d x xs).kind ≠ .keyword) :
    (Lexeme.first d x xs).text ≠ "" := by
  obtain ⟨span, after, -, hcuts⟩ := cuts_first d x xs
  have hdenotes := hcuts.denotes [] (by simp [Parted])
  have hlength := hcuts.length
  intro htext
  have hspan : ("" : String).toList = span := by
    rw [htext] at hdenotes
    unfold Denotes at hdenotes
    split at hdenotes
    · contradiction
    all_goals first | exact hdenotes.1 | exact hdenotes.elim
  simp [← hspan] at hlength

theorem identifierValue_ne_empty {text : String} (ht : text ≠ "")
    (hq : d = .legacy → text ≠ "\"" ∧ text ≠ "\"\"") : identifierValue d text ≠ "" := by
  unfold identifierValue
  split
  · exact ht
  · next body hbody =>
    obtain ⟨hopen, hclosed⟩ := hq rfl
    intro hempty
    have hvalue : (if body.getLast? = some '"' then body.dropLast else body) = [] := by
      simpa using hempty
    split at hvalue
    · next hlast =>
      have hsplit := List.dropLast_append_getLast? _ hlast
      rw [hvalue] at hsplit
      exact hclosed (String.toList_inj.1 (by rw [hbody, ← hsplit]; rfl))
    · exact hopen (String.toList_inj.1 (by rw [hbody, hvalue]; rfl))
  · cases hv : NamedSymbol.fromLegacy? text with
    | none => exact ht
    | some value =>
      rintro hempty
      obtain rfl : value = "" := hempty
      have hhead := (fromLegacy_toLegacy hv).1
      simp at hhead

theorem worded_of_mem_tokens {s : String} (hq : d = .legacy → QuotesFilled s)
    (h : t ∈ tokens d 0 s) : Worded d t := by
  have hmem : t ∈ tokenize d s := List.mem_of_mem_dropLast (List.mem_of_mem_filter h)
  have hsignificant : t.kind ≠ .space ∧ t.kind ≠ .unknown := by
    simpa [Token.isSignificant] using List.of_mem_filter h
  obtain hstop | ⟨x, xs, hkind, htext, -⟩ := first_of_mem_scan hmem
  · exact absurd hstop (kind_ne_stop h)
  have hne (hk : t.kind ≠ .keyword) : t.text ≠ "" := by
    rw [htext]
    rw [hkind] at hk
    exact text_of_first hk
  have hquotes (hd : d = .legacy) : t.text ≠ "\"" ∧ t.text ≠ "\"\"" := by
    subst hd
    exact hq rfl t hmem
  unfold Worded
  split
  · next hk => exact identifierValue_ne_empty (hne (by simp [hk])) hquotes
  · next hk => exact hne (by simp [hk])
  · next hk => exact hne (by simp [hk])
  · trivial
  · next hk => exact hsignificant.1 hk
  · next hk => exact kind_ne_stop h hk
  · next hk => exact hsignificant.2 hk

/-- Every node of what a text is parsed into without a note is in normal form, whatever other words it
has between quotes. -/
theorem normal_of_parseText {s : String} (hq : d = .legacy → QuotesFilled s)
    (h : (parseText d s).notes = []) : ∀ e ∈ (parseText d s).expr.nodes, e.IsNormal d := by
  have hg : AllWorded (textContext d s).dialect (tokens d 0 s) :=
    fun t ht => worded_of_mem_tokens hq ht
  rw [parseText_eq] at h ⊢
  have hsequence : Yields (tokens d 0 s) (fun v => v.Normal d)
      (operand read (textContext d s) .sequence (tokens d 0 s)) := by
    rw [← read_operand]
    exact normalBelow _ (.operand .sequence) _ _ (Nat.lt_succ_self _) hg
  have hwhole := hsequence.bind (Q := fun v => v.Normal d)
    (f := fun e rest => read (.strays e) (textContext d s) rest) fun e us hu he => by
      have hstrays := normalBelow _ (.strays e) (textContext d s) us (Nat.lt_succ_self _)
        (hg.suffix hu)
      refine hstrays.mono fun v hv => ?_
      obtain rfl : v = e := hv
      exact he
  exact (hwhole h).2

theorem normal_of_parseText_quoted :
    QuotesFilled "\"f\" (x) over sqrt y - z" ∧
      (parseText .legacy "\"f\" (x) over sqrt y - z").notes = [] ∧
      ∀ e ∈ (parseText .legacy "\"f\" (x) over sqrt y - z").expr.nodes, e.IsNormal .legacy := by
  have hquotes : QuotesFilled "\"f\" (x) over sqrt y - z" := by
    unfold QuotesFilled
    decide +kernel
  have hnotes : (parseText .legacy "\"f\" (x) over sqrt y - z").notes = [] := by
    decide +kernel
  exact ⟨hquotes, hnotes, normal_of_parseText (fun _ => hquotes) hnotes⟩

end Texts

end MathMarkup.Grammar
