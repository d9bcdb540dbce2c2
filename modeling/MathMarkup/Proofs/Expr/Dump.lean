import Mathlib.Data.List.Nodup
import MathMarkup.Expr.Dump
import MathMarkup.Expr.Equality
import MathMarkup.Proofs.Grammar.Formed

/-! Dumps of expressions are unambiguous. A dump is a nested list, each node of which starts with a word
of its own, and what a nested list is written as is no beginning of what another one is written as. -/
namespace MathMarkup.Expr

section Heads

/-- What a nested list starts with. A row is a list of its own. -/
inductive Head where
  | binary (operator : String)
  | fraction (bar : Bool)
  | root
  | script (side : Script)
  | large (operator : LargeOperator)
  | decorated (mark : String)
  | block
  | row
  | bracket (sized : Bool)
  deriving DecidableEq

namespace Head

def word : Head → String
  | .binary operator => operator
  | .fraction true => "frac"
  | .fraction false => "atop"
  | .root => "sqrt"
  | .script .superscript => "^"
  | .script .subscript => "_"
  | .large operator => operator.name
  | .decorated mark => mark
  | .block => "env"
  | .row => "row"
  | .bracket true => "sized"
  | .bracket false => "bracket"

/-- The heads that expressions have whose operators and decorations are those of the notations. -/
def all : List Head :=
  operators.map .binary ++ Decoration.all.map (.decorated ·.name) ++
    [.fraction true, .fraction false, .root, .script .superscript, .script .subscript,
      .large .int, .large .oint, .large .sum, .block, .row, .bracket true, .bracket false]

theorem nodup_words : (all.map word).Nodup := by decide

/-- No two heads share their word. -/
theorem word_injOn {h h' : Head} (hh : h ∈ all) (hh' : h' ∈ all) (hw : h.word = h'.word) : h = h' :=
  List.inj_on_of_nodup_map nodup_words hh hh' hw

end Head

/-- Characters that do not end a word. -/
def inWord (c : Char) : Bool := c ≠ ' ' && c ≠ ')'

theorem inWord_of_mem_word {h : Head} (hh : h ∈ Head.all) : ∀ c ∈ h.word.toList, inWord c = true := by
  have hall : ∀ h ∈ Head.all, ∀ c ∈ h.word.toList, inWord c = true := by decide
  exact hall h hh

end Heads

section Written

/-- A part that is not there, a text, or a node with its parts. -/
inductive NestedList where
  | absent
  | text (s : String)
  | node (head : Head) (parts : List NestedList)

namespace NestedList

mutual

def write : NestedList → String
  | .absent => "nil"
  | .text s => dumpText s
  | .node head parts => dumpNode head.word (writeParts parts)

def writeParts : List NestedList → List String
  | [] => []
  | part :: parts => part.write :: writeParts parts

end

/-- All heads are among those that the notations have. -/
inductive Known : NestedList → Prop
  | absent : Known .absent
  | text (s : String) : Known (.text s)
  | node {head : Head} {parts : List NestedList} (hh : head ∈ Head.all)
      (hp : ∀ part ∈ parts, Known part) : Known (.node head parts)

end NestedList

open NestedList

def escaped (c : Char) : List Char := if c = '\\' || c = '"' then ['\\', c] else [c]

theorem toList_dumpText (s : String) :
    (dumpText s).toList = '"' :: (s.toList.flatMap escaped ++ ['"']) := by
  simp only [dumpText, String.toList_ofList, List.cons_append]
  rfl

/-- The parts of a node, each after a blank. -/
def partsText (parts : List String) : List Char := parts.flatMap fun part => ' ' :: part.toList

theorem toList_intercalate (word : String) (parts : List String) :
    (String.intercalate " " (word :: parts)).toList = word.toList ++ partsText parts := by
  induction parts generalizing word with
  | nil => simp [partsText]
  | cons part parts ih =>
    rw [String.intercalate_cons_cons, String.toList_append, String.toList_append, ih]
    simp [partsText]

theorem toList_dumpNode (word : String) (parts : List String) :
    (dumpNode word parts).toList = '(' :: (word.toList ++ (partsText parts ++ [')'])) := by
  rw [dumpNode, String.toList_append, String.toList_append, toList_intercalate]
  simp

theorem escaped_cases (c : Char) :
    escaped c = ['\\', c] ∨ escaped c = [c] ∧ c ≠ '\\' ∧ c ≠ '"' := by
  by_cases hc : c = '\\' ∨ c = '"'
  · exact .inl (by simp [escaped, hc])
  · exact .inr ⟨by simp [escaped, hc], not_or.1 hc⟩

/-- A text ends at the first quote that is not escaped. -/
theorem escaped_unique {cs cs' s s' : List Char}
    (h : cs.flatMap escaped ++ '"' :: s = cs'.flatMap escaped ++ '"' :: s') : cs = cs' ∧ s = s' := by
  induction cs generalizing cs' with
  | nil =>
    cases cs' with
    | nil => simpa using h
    | cons c' cs' =>
      obtain hc | ⟨hc, -, hquote⟩ := escaped_cases c'
      · simp [hc] at h
      · simp [hc, hquote.symm] at h
  | cons c cs ih =>
    cases cs' with
    | nil =>
      obtain hc | ⟨hc, -, hquote⟩ := escaped_cases c
      · simp [hc] at h
      · simp [hc, hquote] at h
    | cons c' cs' =>
      have hrest (hcc : c = c')
          (h : cs.flatMap escaped ++ '"' :: s = cs'.flatMap escaped ++ '"' :: s') :
          c :: cs = c' :: cs' ∧ s = s' := ⟨by rw [hcc, (ih h).1], (ih h).2⟩
      obtain hc | ⟨hc, hslash, -⟩ := escaped_cases c <;>
        obtain hc' | ⟨hc', hslash', -⟩ := escaped_cases c' <;>
        simp only [List.flatMap_cons, hc, hc', List.cons_append, List.nil_append,
          List.cons.injEq] at h
      · exact hrest h.2.1 h.2.2
      · exact absurd h.1.symm hslash'
      · exact absurd h.1 hslash
      · exact hrest h.1 h.2

/-- A run of a class of characters ends where the class does. -/
theorem run_unique {p : Char → Bool} {w w' x x' : List Char} (hw : ∀ c ∈ w, p c = true)
    (hw' : ∀ c ∈ w', p c = true) (hx : ∀ c ∈ x.head?, p c = false) (hx' : ∀ c ∈ x'.head?, p c = false)
    (h : w ++ x = w' ++ x') : w = w' ∧ x = x' := by
  have hstop {x : List Char} (hx : ∀ c ∈ x.head?, p c = false) : x.takeWhile p = [] := by
    cases x with
    | nil => rfl
    | cons c x => simp [hx c rfl]
  have htake := congrArg (List.takeWhile p) h
  rw [List.takeWhile_append_of_pos hw, List.takeWhile_append_of_pos hw', hstop hx, hstop hx',
    List.append_nil, List.append_nil] at htake
  exact ⟨htake, List.append_cancel_left (htake ▸ h)⟩

theorem head_parts {parts : List String} {s : List Char} :
    ∀ c ∈ (partsText parts ++ ')' :: s).head?, inWord c = false := by
  cases parts <;> simp [partsText, inWord]

/-- What a nested list is written as tells where it ends, and what it is. -/
theorem NestedList.write_unique (a : NestedList) : ∀ {b : NestedList} {s s' : List Char}, a.Known →
    b.Known → a.write.toList ++ s = b.write.toList ++ s' → a = b ∧ s = s' := by
  refine NestedList.rec (motive_1 := fun a => ∀ {b : NestedList} {s s' : List Char}, a.Known →
      b.Known → a.write.toList ++ s = b.write.toList ++ s' → a = b ∧ s = s')
    (motive_2 := fun as => ∀ {bs : List NestedList} {s s' : List Char}, (∀ a ∈ as, a.Known) →
      (∀ b ∈ bs, b.Known) → partsText (writeParts as) ++ ')' :: s =
        partsText (writeParts bs) ++ ')' :: s' → as = bs ∧ s = s')
    ?absent ?text ?node ?nil ?cons a
  case absent =>
    intro b s s' _ _ h
    cases b with
    | absent => simpa [write] using h
    | text => simp [write, toList_dumpText] at h
    | node => simp [write, toList_dumpNode] at h
  case text =>
    intro t b s s' _ _ h
    cases b with
    | absent => simp [write, toList_dumpText] at h
    | text t' =>
      simp only [write, toList_dumpText, List.cons_append, List.append_assoc, List.nil_append,
        List.cons.injEq, true_and] at h
      obtain ⟨ht, hs⟩ := escaped_unique h
      exact ⟨by rw [String.toList_injective ht], hs⟩
    | node => simp [write, toList_dumpText, toList_dumpNode] at h
  case node =>
    intro head parts ih b s s' ha hb h
    cases ha with
    | node hhead hparts =>
    cases hb with
    | absent => simp [write, toList_dumpNode] at h
    | text => simp [write, toList_dumpText, toList_dumpNode] at h
    | node hhead' hparts' =>
      simp only [write, toList_dumpNode, List.cons_append, List.append_assoc, List.nil_append,
        List.cons.injEq, true_and] at h
      obtain ⟨hword, hrest⟩ := run_unique (inWord_of_mem_word hhead) (inWord_of_mem_word hhead')
        head_parts head_parts h
      obtain ⟨hparts, hs⟩ := ih hparts hparts' hrest
      exact ⟨by rw [Head.word_injOn hhead hhead' (String.toList_injective hword), hparts], hs⟩
  case nil =>
    intro bs s s' _ _ h
    cases bs with
    | nil => simpa [writeParts, partsText] using h
    | cons => simp [writeParts, partsText] at h
  case cons =>
    intro part parts ihpart ihparts bs s s' ha hb h
    cases bs with
    | nil => simp [writeParts, partsText] at h
    | cons part' parts' =>
      rw [List.forall_mem_cons] at ha hb
      simp only [writeParts, partsText, List.flatMap_cons, List.cons_append, List.append_assoc,
        List.cons.injEq, true_and] at h
      obtain ⟨hpart, hrest⟩ := ihpart ha.1 hb.1 h
      obtain ⟨hparts, hs⟩ := ihparts ha.2 hb.2 hrest
      exact ⟨by rw [hpart, hparts], hs⟩

end Written

section Expressions

mutual

/-- The nested list that an expression is dumped as. -/
def nestedList : Expr → NestedList
  | .literal value => .text value
  | .binary operator left right => .node (.binary operator) [left.nestedList, right.nestedList]
  | .fraction bar numerator denominator =>
    .node (.fraction bar) [numerator.nestedList, denominator.nestedList]
  | .root radicand => .node .root [radicand.nestedList]
  | .script side base e => .node (.script side) [base.nestedList, e.nestedList]
  | .large operator lower upper body =>
    .node (.large operator) [nestedPart lower, nestedPart upper, nestedPart body]
  | .decorated mark child => .node (.decorated mark) [child.nestedList]
  | .block name rows => .node .block (.text name :: nestedRows rows)
  | .bracket sized left right content =>
    .node (.bracket sized) [.text left, .text right, content.nestedList]

def nestedPart : Option Expr → NestedList
  | none => .absent
  | some e => e.nestedList

def nestedRows : List (List Expr) → List NestedList
  | [] => []
  | row :: rows => .node .row (nestedCells row) :: nestedRows rows

def nestedCells : List Expr → List NestedList
  | [] => []
  | cell :: cells => cell.nestedList :: nestedCells cells

end

open NestedList (write writeParts Known)

theorem write_nestedList (e : Expr) : e.nestedList.write = e.dump :=
  Expr.rec (motive_1 := fun e => e.nestedList.write = e.dump)
    (motive_2 := fun part => (nestedPart part).write = dumpPart part)
    (motive_3 := fun rows => writeParts (nestedRows rows) = dumpRows rows)
    (motive_4 := fun row => writeParts (nestedCells row) = dumpCells row)
    (fun _ => rfl)
    (fun _ _ _ hl hr => by simp [nestedList, write, writeParts, dump, Head.word, hl, hr])
    (fun bar _ _ hn hd => by
      cases bar <;> simp [nestedList, write, writeParts, dump, Head.word, hn, hd])
    (fun _ h => by simp [nestedList, write, writeParts, dump, Head.word, h])
    (fun side _ _ hb ha => by
      cases side <;> simp [nestedList, write, writeParts, dump, Head.word, hb, ha])
    (fun _ _ _ _ hl hu hb => by simp [nestedList, write, writeParts, dump, Head.word, hl, hu, hb])
    (fun _ _ h => by simp [nestedList, write, writeParts, dump, Head.word, h])
    (fun _ _ h => by simp [nestedList, write, writeParts, dump, Head.word, h])
    (fun sized _ _ _ h => by
      cases sized <;> simp [nestedList, write, writeParts, dump, Head.word, h])
    rfl (fun _ h => h) rfl
    (fun _ _ h ih => by simp [nestedRows, write, writeParts, dumpRows, Head.word, h, ih]) rfl
    (fun _ _ h ih => by simp [nestedCells, writeParts, dumpCells, h, ih]) e

theorem nestedList_ne_absent (e : Expr) : e.nestedList ≠ .absent := by
  cases e <;> simp [nestedList]

/-- Each node of a nested list tells which node of an expression it is. -/
theorem nestedList_injective (a : Expr) : ∀ b, a.nestedList = b.nestedList → a = b := by
  refine Expr.rec (motive_1 := fun a => ∀ b, a.nestedList = b.nestedList → a = b)
    (motive_2 := fun a => ∀ b, nestedPart a = nestedPart b → a = b)
    (motive_3 := fun a => ∀ b, nestedRows a = nestedRows b → a = b)
    (motive_4 := fun a => ∀ b, nestedCells a = nestedCells b → a = b)
    ?literal ?binary ?fraction ?root ?script ?large ?decorated ?block ?bracket
    ?none ?some ?noRow ?rows ?noCell ?cells a
  case literal =>
    intro value b h
    cases b <;> simp [nestedList] at h ⊢
    exact h
  case binary =>
    intro operator left right hl hr b h
    cases b <;> simp [nestedList] at h ⊢
    exact ⟨h.1, hl _ h.2.1, hr _ h.2.2⟩
  case fraction =>
    intro bar numerator denominator hn hd b h
    cases b <;> simp [nestedList] at h ⊢
    exact ⟨h.1, hn _ h.2.1, hd _ h.2.2⟩
  case root =>
    intro radicand hr b h
    cases b <;> simp [nestedList] at h ⊢
    exact hr _ h
  case script =>
    intro side base argument hb ha b h
    cases b <;> simp [nestedList] at h ⊢
    exact ⟨h.1, hb _ h.2.1, ha _ h.2.2⟩
  case large =>
    intro operator lower upper body hl hu hb b h
    cases b <;> simp [nestedList] at h ⊢
    exact ⟨h.1, hl _ h.2.1, hu _ h.2.2.1, hb _ h.2.2.2⟩
  case decorated =>
    intro mark child hc b h
    cases b <;> simp [nestedList] at h ⊢
    exact ⟨h.1, hc _ h.2⟩
  case block =>
    intro name rows hr b h
    cases b <;> simp [nestedList] at h ⊢
    exact ⟨h.1, hr _ h.2⟩
  case bracket =>
    intro sized left right content hc b h
    cases b <;> simp [nestedList] at h ⊢
    exact ⟨h.1, h.2.1, h.2.2.1, hc _ h.2.2.2⟩
  case none =>
    intro b h
    cases b with
    | none => rfl
    | some e => exact absurd h.symm (nestedList_ne_absent e)
  case some =>
    intro e he b h
    cases b with
    | none => exact absurd h (nestedList_ne_absent e)
    | some e' => rw [he e' h]
  case noRow | noCell =>
    intro b h
    cases b with
    | nil => rfl
    | cons => simp [nestedRows, nestedCells] at h
  case rows =>
    intro row rows hrow hrows b h
    cases b with
    | nil => simp [nestedRows] at h
    | cons =>
      simp only [nestedRows, List.cons.injEq, NestedList.node.injEq, true_and] at h
      rw [hrow _ h.1, hrows _ h.2]
  case cells =>
    intro cell cells hcell hcells b h
    cases b with
    | nil => simp [nestedCells] at h
    | cons =>
      simp only [nestedCells, List.cons.injEq] at h
      rw [hcell _ h.1, hcells _ h.2]

/-- The operator of a binary node, and the decoration of a decorated one, are words of the notations. -/
def HasKnownWord : Expr → Prop
  | .binary operator _ _ => operator ∈ operators
  | .decorated mark _ => mark ∈ Decoration.all.map (·.name)
  | _ => True

theorem nestedPart_known {part : Option Expr} (h : ∀ e, part = some e → e.nestedList.Known) :
    (nestedPart part).Known := by
  cases part with
  | none => exact .absent
  | some e => exact h e rfl

theorem known_of_mem_cells {cells : List Expr} (h : ∀ cell ∈ cells, cell.nestedList.Known) :
    ∀ part ∈ nestedCells cells, part.Known := by
  induction cells with
  | nil => simp [nestedCells]
  | cons cell cells ih =>
    rw [List.forall_mem_cons] at h
    rw [nestedCells, List.forall_mem_cons]
    exact ⟨h.1, ih h.2⟩

theorem known_of_mem_rows {rows : List (List Expr)}
    (h : ∀ row ∈ rows, ∀ cell ∈ row, cell.nestedList.Known) :
    ∀ part ∈ nestedRows rows, part.Known := by
  induction rows with
  | nil => simp [nestedRows]
  | cons row rows ih =>
    rw [List.forall_mem_cons] at h
    rw [nestedRows, List.forall_mem_cons]
    exact ⟨.node (by decide) (known_of_mem_cells h.1), ih h.2⟩

theorem nestedList_known {e : Expr} (h : e.Everywhere HasKnownWord) : e.nestedList.Known := by
  induction e using Expr.induction with
  | literal value => exact .text value
  | binary operator left right hl hr =>
    obtain ⟨hword, hleft, hright⟩ := everywhere_binary.1 h
    have hhead : Head.binary operator ∈ Head.all := by
      simp [Head.all, show operator ∈ operators from hword]
    exact .node hhead (by simp [hl hleft, hr hright])
  | fraction bar numerator denominator hn hd =>
    obtain ⟨-, hnumerator, hdenominator⟩ := everywhere_fraction.1 h
    exact .node (by cases bar <;> decide) (by simp [hn hnumerator, hd hdenominator])
  | root radicand hr => exact .node (by decide) (by simp [hr (everywhere_root.1 h).2])
  | script side base argument hb ha =>
    obtain ⟨-, hbase, hargument⟩ := everywhere_script.1 h
    exact .node (by cases side <;> decide) (by simp [hb hbase, ha hargument])
  | large operator lower upper body hl hu hb =>
    obtain ⟨-, hlower, hupper, hbody⟩ := everywhere_large.1 h
    have hl := nestedPart_known fun e he => hl e he (hlower e he)
    have hu := nestedPart_known fun e he => hu e he (hupper e he)
    have hb := nestedPart_known fun e he => hb e he (hbody e he)
    exact .node (by cases operator <;> decide) (by simp [hl, hu, hb])
  | decorated mark child hc =>
    obtain ⟨hword, hchild⟩ := everywhere_decorated.1 h
    have hhead : Head.decorated mark ∈ Head.all := by
      obtain ⟨decoration, hmem, rfl⟩ := List.mem_map.1 hword
      exact List.mem_append_left _ (List.mem_append_right _ (List.mem_map_of_mem hmem))
    exact .node hhead (by simp [hc hchild])
  | block name rows hr =>
    have hrows := known_of_mem_rows fun row hrow cell hcell =>
      hr row hrow cell hcell ((everywhere_block.1 h).2 row hrow cell hcell)
    exact .node (by decide) (List.forall_mem_cons.2 ⟨.text name, hrows⟩)
  | bracket sized left right content hc =>
    have hcontent := hc (everywhere_bracket.1 h).2
    refine .node (by cases sized <;> decide) ?_
    simp [Known.text, hcontent]

theorem hasKnownWord_of_isFormed {d : Dialect} {e : Expr} (h : e.IsFormed d) : e.HasKnownWord := by
  cases e with
  | binary => exact h.1
  | decorated => exact h
  | _ => trivial

/-- A dump tells what was dumped, if all operators and decorations are those of the notations; those of
all that is parsed are. -/
theorem eq_of_dump_eq :
    (∀ a b : Expr, a.Everywhere HasKnownWord → b.Everywhere HasKnownWord → a.dump = b.dump → a = b) ∧
      ∀ (d : Dialect) (tokens : List Token), (parse d tokens).expr.Everywhere HasKnownWord := by
  refine ⟨fun a b ha hb h => ?_, fun d tokens e he => ?_⟩
  · rw [← write_nestedList, ← write_nestedList] at h
    have hwrite : a.nestedList.write.toList ++ [] = b.nestedList.write.toList ++ [] := by rw [h]
    exact nestedList_injective a b
      (NestedList.write_unique _ (nestedList_known ha) (nestedList_known hb) hwrite).1
  · have hformed : (parse d tokens).expr.Formed d :=
      Grammar.read_formed _ _ _ (Grammar.read_formed (.operand .sequence) _ _ trivial)
    exact hasKnownWord_of_isFormed (hformed e he)

/-- Texts of different notations that are dumped as the same are the same expression. -/
theorem eq_of_dump_eq_fraction :
    (parseText .latex "\\hat x+\\frac 1 2").expr.dump = "(+ (hat \"x\") (frac \"1\" \"2\"))" ∧
      (parseText .legacy "hat x+1 over 2").expr.dump = "(+ (hat \"x\") (frac \"1\" \"2\"))" ∧
      (parseText .latex "\\hat x+\\frac 1 2").expr = (parseText .legacy "hat x+1 over 2").expr := by
  have hsum : (Expr.binary "+" (.decorated "hat" (.literal "x"))
      (.fraction true (.literal "1") (.literal "2"))).dump =
        "(+ (hat \"x\") (frac \"1\" \"2\"))" := by cbv
  have hlatex : (parseText .latex "\\hat x+\\frac 1 2").expr.dump =
      "(+ (hat \"x\") (frac \"1\" \"2\"))" := by
    rw [← hsum]
    exact congrArg dump (by decide +kernel)
  have hlegacy : (parseText .legacy "hat x+1 over 2").expr.dump =
      "(+ (hat \"x\") (frac \"1\" \"2\"))" := by
    rw [← hsum]
    exact congrArg dump (by decide +kernel)
  exact ⟨hlatex, hlegacy, eq_of_dump_eq.1 _ _ (eq_of_dump_eq.2 _ _) (eq_of_dump_eq.2 _ _)
    (hlatex.trans hlegacy.symm)⟩

end Expressions

end MathMarkup.Expr
