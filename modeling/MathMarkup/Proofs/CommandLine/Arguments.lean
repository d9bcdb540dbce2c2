import Mathlib.Data.List.Basic
import MathMarkup.CommandLine.Arguments

/-! Arguments read together. Arguments that are complete by themselves may be followed by others,
which are read as if the first had been read already; and what was given first matters to the rest
only where switches exclude each other. -/
namespace MathMarkup.CommandLine

variable {u : Usage} {a b : Arguments} {args more : List String} {fresh excess : Bool}

section Pieces

theorem long_ne_separator (u : Usage) (cs : List Char) : u.long cs ≠ some .separator := by
  unfold Usage.long
  dsimp only
  split
  · simp
  · split <;> simp

theorem shortHelp_ne_separator (cs : List Char) : shortHelp cs ≠ .separator := by
  unfold shortHelp
  split
  · simp
  all_goals split_ifs <;> simp

theorem piece_ne_separator {arg : String} (h : arg ≠ "--") : u.piece arg ≠ .separator := by
  unfold Usage.piece
  dsimp only
  split
  next hchars => exact absurd (String.toList_injective hchars) h
  next cs _ _ =>
    rcases hlong : u.long cs with _ | piece
    · rw [Option.getD_none]
      split_ifs <;> simp
    · rw [Option.getD_some]
      rintro rfl
      exact long_ne_separator u cs hlong
  next => exact shortHelp_ne_separator _
  next => simp
  next => split_ifs <;> simp
  next => simp

/-- Without the mark that ends the switches, arguments are taken piece by piece. -/
theorem pieces_append (h : "--" ∉ args) (more : List String) :
    u.pieces (args ++ more) = u.pieces args ++ u.pieces more := by
  induction args with
  | nil => rfl
  | cons arg args ih =>
    rw [List.mem_cons, not_or] at h
    have hpiece := piece_ne_separator (u := u) (Ne.symm h.1)
    rw [List.cons_append, Usage.pieces, Usage.pieces, ih h.2]
    cases hcase : u.piece arg <;> simp_all

theorem pieces_separator (u : Usage) (args : List String) :
    u.pieces ("--" :: args) = .separator :: args.map .plain := rfl

end Pieces

section Collected

/-- What fits nowhere is never forgotten. -/
theorem collect_excess (a : Arguments) (fresh : Bool) (pieces : List Piece) (h : excess = true)
    (b : Arguments) : u.collect a fresh excess pieces ≠ .ok b := by
  fun_induction u.collect a fresh excess pieces <;> simp_all

/-- A switch that stands by itself, whatever follows. -/
theorem collect_switch (u : Usage) (a : Arguments) (fresh excess : Bool) (s : Switch)
    (rest : List Piece) :
    u.collect a fresh excess (.switch s none :: rest) =
      if s = helpSwitch then .error .help
      else if s.takesValue then
        match rest with
        | .plain value :: rest =>
          u.collect { a with given := (s.name, some value) :: a.given } false excess rest
        | _ => .error .misuse
      else if u.excludes a s.name then .error .misuse
      else u.collect { a with given := (s.name, none) :: a.given } false excess rest := by
  refine (Usage.collect.eq_def u a fresh excess (.switch s none :: rest)).trans ?_
  rcases rest with _ | ⟨piece, rest⟩
  · rfl
  · cases piece <;> rfl

/-- Complete arguments leave no trace on what follows but what they give. An operand is fresh only
where there is one. -/
theorem collect_append {pieces : List Piece} (h : u.collect a fresh excess pieces = .ok b)
    (hfresh : a.operand = none → fresh = false) :
    ∃ fresh', (b.operand = none → fresh' = false) ∧ ∀ more : List Piece,
      u.collect a fresh excess (pieces ++ more) = u.collect b fresh' false more := by
  fun_induction u.collect a fresh excess pieces
  case case2 a fresh excess hend =>
    obtain rfl := Except.ok.inj h
    have hexcess : excess = false := by simpa using fun h => hend (.inl h)
    subst hexcess
    exact ⟨fresh, hfresh, fun more => rfl⟩
  case case4 | case6 => exact absurd h (collect_excess _ _ _ rfl _)
  case case3 a fresh excess text rest hnone ih =>
    simpa [Usage.collect, hnone] using ih h (by simp)
  case case5 ih => simpa [Usage.collect] using ih h fun _ => rfl
  case case10 hvalue _ ih => simpa [Usage.collect, hvalue] using ih h fun _ => rfl
  case case13 hhelp hvalue _ _ ih => simpa [Usage.collect, hhelp, hvalue] using ih h fun _ => rfl
  case case16 hhelp hvalue hapart ih =>
    simpa [collect_switch, hhelp, hvalue, hapart] using ih h fun _ => rfl
  all_goals cases h

/-- What was given before the arguments stays behind what they give, if it excludes none of them. -/
theorem collect_given {tail : List (String × Option String)}
    (htail : ∀ given ∈ tail, ∀ pair ∈ u.exclusive, given.1 ≠ pair.1 ∧ given.1 ≠ pair.2)
    (a : Arguments) (fresh excess : Bool) (pieces : List Piece) :
    u.collect { a with given := a.given ++ tail } fresh excess pieces =
      (u.collect a fresh excess pieces).map fun a => { a with given := a.given ++ tail } := by
  have hexcludes (a : Arguments) (name : String) :
      u.excludes { a with given := a.given ++ tail } name = u.excludes a name := by
    have hnone (pair : String × String) (hpair : pair ∈ u.exclusive) :
        tail.any (·.1 = pair.1) = false ∧ tail.any (·.1 = pair.2) = false := by
      simp only [List.any_eq_false, decide_eq_true_eq]
      exact ⟨fun given hgiven => (htail given hgiven pair hpair).1,
        fun given hgiven => (htail given hgiven pair hpair).2⟩
    have hhas (pair : String × String) (hpair : pair ∈ u.exclusive) :
        Arguments.has { a with given := a.given ++ tail } pair.1 = a.has pair.1 ∧
          Arguments.has { a with given := a.given ++ tail } pair.2 = a.has pair.2 := by
      simp [Arguments.has, hnone pair hpair]
    rw [Bool.eq_iff_iff, Usage.excludes, Usage.excludes, List.any_eq_true, List.any_eq_true]
    apply exists_congr
    rintro ⟨one, two⟩
    apply and_congr_right
    intro hpair
    dsimp only
    rw [(hhas _ hpair).1, (hhas _ hpair).2]
  fun_induction u.collect a fresh excess pieces
  case case10 hvalue _ ih => simpa [Usage.collect, hvalue] using ih
  case case12 | case15 => simp_all [collect_switch, Except.map]
  case case16 => simp_all [collect_switch]
  all_goals simp_all [Usage.collect, Except.map]

end Collected

section Given

variable {name other : String}

theorem lookup_of_has (h : a.has name = false) : a.given.lookup name = none := by
  rw [List.lookup_eq_none_iff]
  intro given hgiven
  have hne := List.any_eq_false.1 h given hgiven
  rw [decide_eq_true_eq] at hne
  exact bne_iff_ne.2 (Ne.symm hne)

/-- A value that is given first counts if the switch is not given again. -/
theorem value?_first (h : a.has name = false) (value : Option String) :
    Arguments.value? { a with given := a.given ++ [(name, value)] } name = value := by
  simp [Arguments.value?, List.lookup_append, lookup_of_has h]

theorem value?_first_of_ne (h : other ≠ name) (value : Option String) :
    Arguments.value? { a with given := a.given ++ [(name, value)] } other = a.value? other := by
  have hne : (other == name) = false := beq_eq_false_iff_ne.2 h
  simp [Arguments.value?, List.lookup_append, List.lookup_cons, hne]

theorem has_first_of_ne (h : other ≠ name) (value : Option String) :
    Arguments.has { a with given := a.given ++ [(name, value)] } other = a.has other := by
  simp [Arguments.has, h.symm]

end Given

section Reading

theorem read_eq_ok_iff (u : Usage) (args : List String) (a : Arguments) :
    u.read args = .ok a ↔
      Piece.ambiguous ∉ u.pieces args ∧ u.collect .none false false (u.pieces args) = .ok a := by
  unfold Usage.read
  dsimp only
  split_ifs with h <;> simp_all

/-- Behind complete arguments without an operand the rest is read as it is alone, as long as nothing
in it is excluded. What was given first is told last. -/
theorem read_append (ha : u.read args = .ok a) (hmark : "--" ∉ args) (hnone : a.operand = none)
    (hgiven : ∀ given ∈ a.given, ∀ pair ∈ u.exclusive, given.1 ≠ pair.1 ∧ given.1 ≠ pair.2)
    (more : List String) :
    u.read (args ++ more) =
      (u.read more).map fun b => { b with given := b.given ++ a.given } := by
  obtain ⟨hclear, hcollect⟩ := (read_eq_ok_iff u args a).1 ha
  obtain ⟨fresh', hfresh, happend⟩ := collect_append hcollect fun _ => rfl
  obtain rfl := hfresh hnone
  have hstart : a = { Arguments.none with given := Arguments.none.given ++ a.given } := by
    rw [Arguments.none, List.nil_append, ← hnone]
  have hrest : u.collect .none false false (u.pieces args ++ u.pieces more) =
      (u.collect .none false false (u.pieces more)).map
        fun b => { b with given := b.given ++ a.given } := by
    rw [happend, hstart]
    exact collect_given hgiven _ _ _ _
  have hambiguous : (u.pieces (args ++ more)).contains .ambiguous =
      (u.pieces more).contains .ambiguous := by
    rw [pieces_append hmark, Bool.eq_iff_iff]
    simp [hclear]
  unfold Usage.read
  dsimp only
  rw [hambiguous, pieces_append hmark, hrest]
  split_ifs <;> rfl

/-- A switch in front of all else that takes no value and excludes nothing. -/
theorem read_switch {arg : String} {s : Switch} (hpiece : u.piece arg = .switch s none)
    (hhelp : s ≠ helpSwitch) (hvalue : s.takesValue = false)
    (hgiven : ∀ pair ∈ u.exclusive, s.name ≠ pair.1 ∧ s.name ≠ pair.2) (more : List String) :
    u.read (arg :: more) =
      (u.read more).map fun a => { a with given := a.given ++ [(s.name, none)] } := by
  have hpieces : u.pieces (arg :: more) = .switch s none :: u.pieces more := by
    rw [Usage.pieces, hpiece]
  have hapart : u.excludes .none s.name = false := by
    simp [Usage.excludes, Arguments.has, Arguments.none]
  have hrest : u.collect .none false false (.switch s none :: u.pieces more) =
      (u.collect .none false false (u.pieces more)).map
        fun a => { a with given := a.given ++ [(s.name, none)] } := by
    rw [collect_switch, if_neg hhelp, if_neg (Bool.eq_false_iff.1 hvalue),
      if_neg (Bool.eq_false_iff.1 hapart)]
    have htail : ∀ given ∈ [(s.name, (none : Option String))], ∀ pair ∈ u.exclusive,
        given.1 ≠ pair.1 ∧ given.1 ≠ pair.2 := by simpa using hgiven
    exact collect_given htail .none false false (u.pieces more)
  have hambiguous : (Piece.switch s none :: u.pieces more).contains .ambiguous =
      (u.pieces more).contains .ambiguous := by
    rw [Bool.eq_iff_iff]
    simp
  unfold Usage.read
  dsimp only
  rw [hpieces, hambiguous, hrest]
  split_ifs <;> rfl

/-- Behind complete arguments without an operand, and the mark that ends the switches, any text is
the operand. -/
theorem read_operand (ha : u.read args = .ok a) (hmark : "--" ∉ args) (hnone : a.operand = none)
    (text : String) : u.read (args ++ ["--", text]) = .ok { a with operand := some text } := by
  obtain ⟨hclear, hcollect⟩ := (read_eq_ok_iff u args a).1 ha
  obtain ⟨fresh', hfresh, happend⟩ := collect_append hcollect fun _ => rfl
  obtain rfl := hfresh hnone
  rw [read_eq_ok_iff, pieces_append hmark, pieces_separator]
  constructor
  · simpa using hclear
  · rw [happend]
    simp [Usage.collect, hnone]

end Reading

end MathMarkup.CommandLine
