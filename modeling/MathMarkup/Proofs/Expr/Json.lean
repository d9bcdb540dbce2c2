import MathMarkup.Expr.Json
import MathMarkup.Expr.OfJson
import MathMarkup.Proofs.Expr.Nodes
import MathMarkup.Proofs.Json.Sorted

/-! Expressions as JSON. An expression is read again from the lines that it is written as, if its
operators and its marks are words; and only such expressions are ever read. -/
namespace MathMarkup.Expr

open Json (Regular sortedFields sortedItems)

variable {e : Expr} {name : String} {fields : List (String × Json)}

section Regular

/-- The names of the fields of a node. -/
def nodeNames (fields : List (String × Json)) : List String := "node" :: fields.map (·.1)

theorem partFields_names (name : String) (part : Option Expr) :
    ((partFields name part).map (·.1)).Sublist [name] := by
  cases part with
  | none => exact List.nil_sublist _
  | some e => exact .refl _

theorem variantFields_names (operator : LargeOperator) :
    ((variantFields operator).map (·.1)).Sublist ["variant"] := by
  cases operator with
  | sum => exact List.nil_sublist _
  | int | oint => exact .refl _

theorem nodup_large (operator : LargeOperator) (lower upper body : Option Expr) :
    (nodeNames (variantFields operator ++ partFields "lower" lower ++ partFields "upper" upper ++
      partFields "body" body)).Nodup := by
  have hsub := (((variantFields_names operator).append (partFields_names "lower" lower)).append
    (partFields_names "upper" upper)).append (partFields_names "body" body)
  rw [← List.map_append, ← List.map_append, ← List.map_append] at hsub
  exact (hsub.cons_cons "node").nodup (by decide)

theorem regular_node (hn : (nodeNames fields).Nodup) (h : ∀ field ∈ fields, Regular field.2) :
    Regular (node e fields) :=
  .object hn (List.forall_mem_cons.2 ⟨.string _, h⟩)

theorem regular_partFields {part : Option Expr} (h : ∀ e, part = some e → Regular e.toJson)
    (name : String) : ∀ field ∈ partFields name part, Regular field.2 := by
  cases part with
  | none => simp [partFields]
  | some e => simp [partFields, h e rfl]

theorem regular_cellsJson {cells : List Expr} (h : ∀ cell ∈ cells, Regular cell.toJson) :
    ∀ cell ∈ cellsJson cells, Regular cell := by
  induction cells with
  | nil => simp [cellsJson]
  | cons cell cells ih =>
    rw [List.forall_mem_cons] at h
    exact List.forall_mem_cons.2 ⟨h.1, ih h.2⟩

theorem regular_rowsJson {rows : List (List Expr)}
    (h : ∀ row ∈ rows, ∀ cell ∈ row, Regular cell.toJson) : ∀ row ∈ rowsJson rows, Regular row := by
  induction rows with
  | nil => simp [rowsJson]
  | cons row rows ih =>
    rw [List.forall_mem_cons] at h
    exact List.forall_mem_cons.2 ⟨.array (regular_cellsJson h.1), ih h.2⟩

theorem regular_toJson (e : Expr) : Regular e.toJson := by
  induction e using Expr.induction with
  | literal value => exact regular_node (by simp [nodeNames]) (by simp [Regular.string])
  | binary operator left right hl hr =>
    exact regular_node (by simp [nodeNames]) (by simp [Regular.string, hl, hr])
  | fraction bar numerator denominator hn hd =>
    exact regular_node (by simp [nodeNames]) (by simp [Regular.bool, hn, hd])
  | root radicand hr => exact regular_node (by simp [nodeNames]) (by simp [hr])
  | script side base argument hb ha =>
    exact regular_node (by cases side <;> simp [nodeNames, scriptField]) (by simp [hb, ha])
  | large operator lower upper body hl hu hb =>
    have hvariant : ∀ field ∈ variantFields operator, Regular field.2 := by
      cases operator <;> simp [variantFields, Regular.string]
    refine regular_node (nodup_large operator lower upper body) ?_
    simp only [List.forall_mem_append]
    exact ⟨⟨⟨hvariant, regular_partFields hl _⟩, regular_partFields hu _⟩, regular_partFields hb _⟩
  | decorated mark child hc =>
    exact regular_node (by simp [nodeNames]) (by simp [Regular.string, hc])
  | block name rows hr =>
    exact regular_node (by simp [nodeNames])
      (by simp [Regular.string, Regular.array (regular_rowsJson hr)])
  | bracket sized left right content hc =>
    exact regular_node (by simp [nodeNames]) (by simp [Regular.string, Regular.bool, hc])

end Regular

section Fields

/-- The value is read as the expression, wherever it stands. -/
def Reads (value : Json) (e : Expr) : Prop := ∀ place, check value place = .ok e

/-- What a value is as a field. -/
def slotOf (value : Json) : Slot :=
  ⟨value, fun place => check value place, fun place => checkRows value place⟩

theorem lookup_slots (fields : List (String × Json)) (name : String) :
    (slots fields).lookup name = (fields.lookup name).map slotOf := by
  induction fields with
  | nil => rfl
  | cons field fields ih =>
    obtain ⟨other, value⟩ := field
    rw [slots, List.lookup_cons, List.lookup_cons, ih]
    cases name == other <;> rfl

theorem sorted_node (e : Expr) (fields : List (String × Json)) :
    (node e fields).sorted = .object (sortedFields (("node", .string e.nodeName) :: fields)) := rfl

theorem sorted_toJson (e : Expr) : ∃ fields, e.toJson.sorted = .object fields := by
  cases e <;> exact ⟨_, by rw [toJson]; exact sorted_node _ _⟩

theorem checkCells_cellsJson {cells : List Expr} (h : ∀ cell ∈ cells, Reads cell.toJson.sorted cell)
    (i : Nat) (place : Place) : checkCells i (sortedItems (cellsJson cells)) place = .ok cells := by
  induction cells generalizing i with
  | nil => rfl
  | cons cell cells ih =>
    rw [List.forall_mem_cons] at h
    simp [cellsJson, Json.sortedItems, checkCells, h.1 _, ih h.2, Checked.ap]

theorem checkEachRow_rowsJson {rows : List (List Expr)}
    (h : ∀ row ∈ rows, ∀ cell ∈ row, Reads cell.toJson.sorted cell) (i : Nat) (place : Place) :
    checkEachRow i (sortedItems (rowsJson rows)) place = .ok rows := by
  induction rows generalizing i with
  | nil => rfl
  | cons row rows ih =>
    rw [List.forall_mem_cons] at h
    simp [rowsJson, Json.sortedItems, Json.sorted, checkEachRow, checkRow, checkCells_cellsJson h.1,
      ih h.2, Checked.ap]

/-- The slots hold the fields, each with its own fields in order. -/
def Holds (s : Slots) (fields : List (String × Json)) : Prop :=
  ∀ name, s.fields.lookup name = (fields.lookup name).map fun value => slotOf value.sorted

variable {s : Slots} {text : String} {value : Json}

namespace Holds

theorem string (h : Holds s fields) (hf : fields.lookup name = some (.string text)) :
    s.string name = .ok text := by
  simp [Slots.string, h name, hf, slotOf, Json.sorted]

theorem word (h : Holds s fields) (hf : fields.lookup name = some (.string text)) (ht : text ≠ "") :
    s.word name = .ok text := by
  rw [Slots.word, h.string hf]
  split
  · next heq => exact absurd (Except.ok.inj heq) ht
  · rfl

theorem flag {b : Bool} (h : Holds s fields) (hf : fields.lookup name = some (.bool b))
    (default : Bool) : s.flag name default = .ok b := by
  simp [Slots.flag, h name, hf, slotOf, Json.sorted, Slots.flagOf]

theorem expr (h : Holds s fields) (hf : fields.lookup name = some e.toJson)
    (he : Reads e.toJson.sorted e) : s.expr name = .ok e := by
  simp [Slots.expr, h name, hf, slotOf, he _]

theorem part {part : Option Expr} (h : Holds s fields) (hf : fields.lookup name = part.map toJson)
    (hp : ∀ e, part = some e → Reads e.toJson.sorted e) : s.part name = .ok part := by
  cases part with
  | none => simp [Slots.part, h name, hf]
  | some e =>
    obtain ⟨fields', hobject⟩ := sorted_toJson e
    have hread := hp e rfl (s.placeOf name)
    rw [hobject] at hread
    simp [Slots.part, h name, hf, slotOf, hobject, hread, Except.map]

theorem integral {operator : LargeOperator} (h : Holds s fields) (ho : operator ≠ .sum)
    (hf : fields.lookup "variant" = some (.string operator.name)) : s.integral = .ok operator := by
  cases operator with
  | sum => exact absurd rfl ho
  | int | oint => simp [Slots.integral, h "variant", hf, slotOf, Json.sorted, LargeOperator.name]

theorem rows {rows : List (List Expr)} (h : Holds s fields)
    (hf : fields.lookup "rows" = some (.array (rowsJson rows)))
    (hr : ∀ row ∈ rows, ∀ cell ∈ row, Reads cell.toJson.sorted cell) : s.rows = .ok rows := by
  simp [Slots.rows, h "rows", hf, slotOf, Json.sorted, checkRows, checkEachRow_rowsJson hr]

end Holds

theorem reads_node (hn : (nodeNames fields).Nodup)
    (h : ∀ s : Slots, Holds s (("node", .string e.nodeName) :: fields) →
      s.node? e.nodeName = some (.ok e)) :
    Reads (node e fields).sorted e := by
  intro place
  have hnames : ((("node", Json.string e.nodeName) :: fields).map (·.1)).Nodup := hn
  have hholds (place : Place) :
      Holds ⟨place, slots (sortedFields (("node", .string e.nodeName) :: fields))⟩
        (("node", .string e.nodeName) :: fields) := fun name => by
    rw [lookup_slots, Json.lookup_sortedFields hnames, Option.map_map]
    rfl
  have hnode := hholds place "node"
  rw [List.lookup_cons_self] at hnode
  rw [sorted_node, check, ofSlots, hnode]
  simp [slotOf, Json.sorted, h _ (hholds _)]

end Fields

/-- The operator or the mark of the node, if it has one, is not the empty text. -/
def HasWord : Expr → Prop
  | .binary operator _ _ => operator ≠ ""
  | .decorated mark _ => mark ≠ ""
  | _ => True

instance : DecidablePred HasWord
  | .binary operator _ _ => inferInstanceAs (Decidable (operator ≠ ""))
  | .decorated mark _ => inferInstanceAs (Decidable (mark ≠ ""))
  | .literal _ | .fraction .. | .root _ | .script .. | .large .. | .block .. | .bracket .. =>
    .isTrue trivial

theorem lookup_partFields (name other : String) (part : Option Expr) :
    (partFields name part).lookup other = if other = name then part.map toJson else none := by
  cases part with
  | none => simp [partFields]
  | some e =>
    obtain rfl | h := eq_or_ne other name
    · simp [partFields]
    · simp [partFields, List.lookup_cons, h, beq_false_of_ne h]

theorem lookup_variantFields (operator : LargeOperator) (h : name ≠ "variant") :
    (variantFields operator).lookup name = none := by
  cases operator <;> simp [variantFields, List.lookup_cons, beq_false_of_ne h]

theorem reads_large {operator : LargeOperator} {lower upper body : Option Expr}
    (hl : ∀ e, lower = some e → Reads e.toJson.sorted e)
    (hu : ∀ e, upper = some e → Reads e.toJson.sorted e)
    (hb : ∀ e, body = some e → Reads e.toJson.sorted e) :
    Reads (Expr.large operator lower upper body).toJson.sorted (.large operator lower upper body) := by
  rw [toJson]
  refine reads_node (nodup_large operator lower upper body) fun s hs => ?_
  have hlower : s.part "lower" = .ok lower := hs.part (by
    simp [List.lookup_cons, List.lookup_append, lookup_variantFields, lookup_partFields]) hl
  have hupper : s.part "upper" = .ok upper := hs.part (by
    simp [List.lookup_cons, List.lookup_append, lookup_variantFields, lookup_partFields]) hu
  have hbody : s.part "body" = .ok body := hs.part (by
    simp [List.lookup_cons, List.lookup_append, lookup_variantFields, lookup_partFields]) hb
  have hvariant (hsum : operator ≠ .sum) : s.integral = .ok operator := hs.integral hsum (by
    cases operator <;> simp_all [List.lookup_cons, variantFields])
  cases operator with
  | sum => simp [nodeName, Slots.node?, hlower, hupper, hbody, Checked.ap]
  | int | oint =>
    simp [nodeName, Slots.node?, hvariant, hlower, hupper, hbody, Checked.ap]

theorem reads_toJson {e : Expr} (h : e.Everywhere HasWord) : Reads e.toJson.sorted e := by
  induction e using Expr.induction with
  | literal value =>
    rw [toJson]
    refine reads_node (by simp [nodeNames]) fun s hs => ?_
    have hvalue : s.string "value" = .ok value := hs.string (by simp [List.lookup_cons])
    simp [nodeName, Slots.node?, hvalue, Checked.ap]
  | binary operator left right hl hr =>
    obtain ⟨hword, hleft, hright⟩ := everywhere_binary.1 h
    rw [toJson]
    refine reads_node (by simp [nodeNames]) fun s hs => ?_
    have ho : s.word "operator" = .ok operator := hs.word (by simp [List.lookup_cons]) hword
    have hl : s.expr "left" = .ok left := hs.expr (by simp [List.lookup_cons]) (hl hleft)
    have hr : s.expr "right" = .ok right := hs.expr (by simp [List.lookup_cons]) (hr hright)
    simp [nodeName, Slots.node?, ho, hl, hr, Checked.ap]
  | fraction bar numerator denominator hn hd =>
    obtain ⟨-, hnumerator, hdenominator⟩ := everywhere_fraction.1 h
    rw [toJson]
    refine reads_node (by simp [nodeNames]) fun s hs => ?_
    have hn : s.expr "numerator" = .ok numerator :=
      hs.expr (by simp [List.lookup_cons]) (hn hnumerator)
    have hd : s.expr "denominator" = .ok denominator :=
      hs.expr (by simp [List.lookup_cons]) (hd hdenominator)
    have hb : s.flag "with_bar" true = .ok bar := hs.flag (by simp [List.lookup_cons]) true
    simp [nodeName, Slots.node?, hn, hd, hb, Checked.ap]
  | root radicand hr =>
    rw [toJson]
    refine reads_node (by simp [nodeNames]) fun s hs => ?_
    have hr : s.expr "radicand" = .ok radicand :=
      hs.expr (by simp [List.lookup_cons]) (hr (everywhere_root.1 h).2)
    simp [nodeName, Slots.node?, hr, Checked.ap]
  | script side base argument hb ha =>
    obtain ⟨-, hbase, hargument⟩ := everywhere_script.1 h
    rw [toJson]
    refine reads_node (by cases side <;> simp [nodeNames, scriptField]) fun s hs => ?_
    have hb : s.expr "base" = .ok base := hs.expr (by simp [List.lookup_cons]) (hb hbase)
    have ha : s.expr (scriptField side) = .ok argument :=
      hs.expr (by cases side <;> simp [List.lookup_cons, scriptField]) (ha hargument)
    cases side <;> simp_all [nodeName, Slots.node?, scriptField, Checked.ap]
  | large operator lower upper body hl hu hb =>
    obtain ⟨-, hlower, hupper, hbody⟩ := everywhere_large.1 h
    exact reads_large (fun e he => hl e he (hlower e he)) (fun e he => hu e he (hupper e he))
      fun e he => hb e he (hbody e he)
  | decorated mark child hc =>
    obtain ⟨hword, hchild⟩ := everywhere_decorated.1 h
    rw [toJson]
    refine reads_node (by simp [nodeNames]) fun s hs => ?_
    have hm : s.word "deco_type" = .ok mark := hs.word (by simp [List.lookup_cons]) hword
    have hc : s.expr "child" = .ok child := hs.expr (by simp [List.lookup_cons]) (hc hchild)
    simp [nodeName, Slots.node?, hm, hc, Checked.ap]
  | block name rows hr =>
    have hcells := (everywhere_block.1 h).2
    rw [toJson]
    refine reads_node (by simp [nodeNames]) fun s hs => ?_
    have hn : s.string "env_name" = .ok name := hs.string (by simp [List.lookup_cons])
    have hr : s.rows = .ok rows := hs.rows (by simp [List.lookup_cons])
      fun row hrow cell hcell => hr row hrow cell hcell (hcells row hrow cell hcell)
    simp [nodeName, Slots.node?, hn, hr, Checked.ap]
  | bracket sized left right content hc =>
    rw [toJson]
    refine reads_node (by simp [nodeNames]) fun s hs => ?_
    have hl : s.string "left_delim" = .ok left := hs.string (by simp [List.lookup_cons])
    have hr : s.string "right_delim" = .ok right := hs.string (by simp [List.lookup_cons])
    have hc : s.expr "content" = .ok content :=
      hs.expr (by simp [List.lookup_cons]) (hc (everywhere_bracket.1 h).2)
    have hs : s.flag "sized" false = .ok sized := hs.flag (by simp [List.lookup_cons]) false
    simp [nodeName, Slots.node?, hl, hr, hc, hs, Checked.ap]

/-- If a value is read, it has the property. -/
def Checked.Gives {α : Type} (p : α → Prop) (read : Checked α) : Prop := ∀ a, read = .ok a → p a

namespace Checked.Gives

variable {α β : Type} {p : α → Prop} {q : β → Prop} {a : α}

theorem ok (h : p a) : Gives p (.ok a) := fun _ heq => Except.ok.inj heq ▸ h

theorem any (read : Checked α) : Gives (fun _ => True) read := fun _ _ => trivial

theorem fail (kind : FaultKind) (place : Place) : Gives p (Checked.fail kind place) := nofun

theorem ap {f : Checked (α → β)} {read : Checked α} (hf : f.Gives fun g => ∀ x, p x → q (g x))
    (h : read.Gives p) : (f.ap read).Gives q := by
  cases f with
  | error => cases read <;> nofun
  | ok g =>
    cases read with
    | error => nofun
    | ok x => exact .ok (hf g rfl x (h x rfl))

end Checked.Gives

section Read

/-- Whatever is read from the slot has words everywhere. -/
structure Slot.GivesWords (slot : Slot) : Prop where
  expr : ∀ place, (slot.expr place).Gives (Everywhere HasWord)
  rows : ∀ place, (slot.rows place).Gives fun rows =>
    ∀ row ∈ rows, ∀ cell ∈ row, cell.Everywhere HasWord

namespace Slots

variable {s : Slots}

theorem gives_word (s : Slots) (name : String) : (s.word name).Gives (· ≠ "") := by
  rw [word]
  split
  · exact .fail _ _
  · next hne => exact fun text h ht => hne (ht ▸ h)

section GivesWords

variable (hs : ∀ name slot, s.fields.lookup name = some slot → slot.GivesWords)

include hs

theorem gives_expr (name : String) : (s.expr name).Gives (Everywhere HasWord) := by
  rw [expr]
  split
  · exact .fail _ _
  · next hslot => exact (hs _ _ hslot).expr _

theorem gives_part (name : String) :
    (s.part name).Gives fun part => ∀ e, part = some e → e.Everywhere HasWord := by
  rw [part]
  split
  · exact .ok nofun
  · exact .ok nofun
  · next slot _ hslot =>
    intro part hpart
    cases hread : slot.expr (s.placeOf name) with
    | error => simp [hread, Except.map] at hpart
    | ok e =>
      have hword := (hs _ _ hslot).expr _ e hread
      simp only [hread, Except.map, Except.ok.injEq] at hpart
      subst hpart
      exact fun e' he => Option.some.inj he ▸ hword

theorem gives_rows : s.rows.Gives fun rows => ∀ row ∈ rows, ∀ cell ∈ row, cell.Everywhere HasWord := by
  rw [rows]
  split
  · exact .ok nofun
  · next hslot => exact (hs _ _ hslot).rows _

theorem gives_node {name : String} {read : Checked Expr} (h : s.node? name = some read) :
    read.Gives (Everywhere HasWord) := by
  have hexpr := gives_expr hs
  have hpart := gives_part hs
  unfold node? at h
  split at h <;> cases h
  · exact .ap (.ok fun _ _ => everywhere_literal.2 trivial) (.any _)
  · exact .ap (.ap (.ap (.ok fun _ ho _ hl _ hr => everywhere_binary.2 ⟨ho, hl, hr⟩)
      (s.gives_word _)) (hexpr _)) (hexpr _)
  · exact .ap (.ap (.ap (.ok fun _ hn _ hd _ _ => everywhere_fraction.2 ⟨trivial, hn, hd⟩)
      (hexpr _)) (hexpr _)) (.any _)
  · exact .ap (.ok fun _ hr => everywhere_root.2 ⟨trivial, hr⟩) (hexpr _)
  · exact .ap (.ap (.ok fun _ hb _ ha => everywhere_script.2 ⟨trivial, hb, ha⟩) (hexpr _)) (hexpr _)
  · exact .ap (.ap (.ok fun _ hb _ ha => everywhere_script.2 ⟨trivial, hb, ha⟩) (hexpr _)) (hexpr _)
  · exact .ap (.ap (.ap (.ap (.ok fun _ _ _ hl _ hu _ hb => everywhere_large.2 ⟨trivial, hl, hu, hb⟩)
      (.any _)) (hpart _)) (hpart _)) (hpart _)
  · exact .ap (.ap (.ap (.ok fun _ hl _ hu _ hb => everywhere_large.2 ⟨trivial, hl, hu, hb⟩)
      (hpart _)) (hpart _)) (hpart _)
  · exact .ap (.ap (.ok fun _ hm _ hc => everywhere_decorated.2 ⟨hm, hc⟩)
      (s.gives_word _)) (hexpr _)
  · exact .ap (.ap (.ok fun _ _ _ hr => everywhere_block.2 ⟨trivial, hr⟩) (.any _)) (gives_rows hs)
  · exact .ap (.ap (.ap (.ap (.ok fun _ _ _ _ _ hc _ _ => everywhere_bracket.2 ⟨trivial, hc⟩)
      (.any _)) (.any _)) (hexpr _)) (.any _)

end GivesWords

theorem gives_ofSlots {fields : List (String × Slot)}
    (hs : ∀ name slot, fields.lookup name = some slot → slot.GivesWords) (place : Place) :
    (ofSlots fields place).Gives (Everywhere HasWord) := by
  rw [ofSlots]
  split
  · exact .fail _ _
  · next name _ _ _ =>
    cases hread : (Slots.mk (place ++ [.field name]) fields).node? name with
    | none => exact .fail _ _
    | some read => exact gives_node hs hread
  · exact .fail _ _

end Slots

/-- Whatever the value is read as has words everywhere: an expression, rows, or the cells of a row. -/
structure GivesWords (value : Json) : Prop where
  expr : ∀ place, (check value place).Gives (Everywhere HasWord)
  rows : ∀ place, (checkRows value place).Gives fun rows =>
    ∀ row ∈ rows, ∀ cell ∈ row, cell.Everywhere HasWord
  row : ∀ place, (checkRow value place).Gives fun row => ∀ cell ∈ row, cell.Everywhere HasWord

theorem gives_checkCells {cells : List Json} (h : ∀ cell ∈ cells, GivesWords cell) (i : Nat)
    (place : Place) :
    (checkCells i cells place).Gives fun row => ∀ cell ∈ row, cell.Everywhere HasWord := by
  induction cells generalizing i with
  | nil => exact .ok nofun
  | cons cell cells ih =>
    rw [List.forall_mem_cons] at h
    exact .ap (.ap (.ok fun _ hcell _ hcells => List.forall_mem_cons.2 ⟨hcell, hcells⟩)
      (h.1.expr _)) (ih h.2 _)

theorem gives_checkEachRow {rows : List Json} (h : ∀ row ∈ rows, GivesWords row) (i : Nat)
    (place : Place) : (checkEachRow i rows place).Gives fun rows =>
      ∀ row ∈ rows, ∀ cell ∈ row, cell.Everywhere HasWord := by
  induction rows generalizing i with
  | nil => exact .ok nofun
  | cons row rows ih =>
    rw [List.forall_mem_cons] at h
    exact .ap (.ap (.ok fun _ hrow _ hrows => List.forall_mem_cons.2 ⟨hrow, hrows⟩)
      (h.1.row _)) (ih h.2 _)

theorem givesWords (value : Json) : GivesWords value := by
  refine Json.rec (motive_1 := GivesWords) (motive_2 := fun items => ∀ item ∈ items, GivesWords item)
    (motive_3 := fun fields => ∀ name slot, (slots fields).lookup name = some slot → slot.GivesWords)
    (motive_4 := fun field => GivesWords field.2)
    ?null ?bool ?number ?real ?string ?array ?object ?noItem ?items ?noField ?fields ?field value
  case null | bool | number | real | string =>
    intros
    exact ⟨fun _ => .fail _ _, fun _ => .fail _ _, fun _ => .fail _ _⟩
  case array =>
    exact fun items h => ⟨fun _ => .fail _ _, gives_checkEachRow h 0, gives_checkCells h 0⟩
  case object =>
    exact fun fields h => ⟨Slots.gives_ofSlots h, fun _ => .fail _ _, fun _ => .fail _ _⟩
  case noItem => exact nofun
  case items => exact fun item items hitem hitems => List.forall_mem_cons.2 ⟨hitem, hitems⟩
  case noField => exact nofun
  case fields =>
    rintro ⟨key, value⟩ fields hfield hfields name slot hslot
    rw [slots, List.lookup_cons] at hslot
    split at hslot
    · cases hslot
      exact ⟨hfield.expr, hfield.rows⟩
    · exact hfields name slot hslot
  case field => exact fun _ _ h => h

end Read

/-- An expression is read again from the lines that it is written as exactly if its operators and its
marks are words, as they are in all that is read. -/
theorem ofJson_stableJson_iff (e : Expr) :
    (∃ value, Json.parse e.stableJson = .ok value ∧ ofJson value = .ok e) ↔ e.Everywhere HasWord :=
  ⟨fun ⟨value, _, hread⟩ => (givesWords value).expr [] e hread,
    fun h => ⟨_, Json.parse_stable (regular_toJson e), reads_toJson h []⟩⟩

/-- Marks that are escaped, bounds that are not there, and a block without rows. -/
theorem ofJson_stableJson_block :
    let e := Expr.script .superscript (.literal "\"\\\x01") (.large .oint none (some (.block "" [])) none)
    e.stableJson =
        "\x7b\n  \"base\": \x7b\n    \"node\": \"Literal\",\n    \"value\": \"\\\"\\\\\\u0001\"\n  \x7d," ++
        "\n  \"exponent\": \x7b\n    \"node\": \"Integral\",\n    \"upper\": \x7b\n      \"env_name\": \"\"," ++
        "\n      \"node\": \"Environment\",\n      \"rows\": []\n    \x7d,\n    \"variant\": \"oint\"" ++
        "\n  \x7d,\n  \"node\": \"Superscript\"\n\x7d" ∧
      ∃ value, Json.parse e.stableJson = .ok value ∧ ofJson value = .ok e :=
  ⟨by decide +kernel, (ofJson_stableJson_iff _).2 (by simp [Everywhere, HasWord])⟩

end MathMarkup.Expr
