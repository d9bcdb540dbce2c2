import Mathlib.Data.List.TakeWhile
import MathMarkup.Files.Tree

/-! What making directories and writing files does to a tree. Names lead along places. The
directories on the way can be made where none of these places holds a file, and making them changes
nothing that was there. -/
namespace MathMarkup

/-- The place that a name leads to from a directory. -/
def Place.next (place : Place) (name : String) : Place :=
  if name = ".." then place.dropLast else place ++ [name]

/-- The place that names lead to. -/
def Place.goal (place : Place) (names : List String) : Place := names.foldl Place.next place

/-- The places that names lead through, the last one left out. -/
def Place.way (place : Place) : List String → List Place
  | [] => []
  | name :: names => place :: Place.way (place.next name) names

theorem Place.way_append (place : Place) (names : List String) (name : String) :
    Place.way place (names ++ [name]) = Place.way place names ++ [Place.goal place names] := by
  induction names generalizing place with
  | nil => rfl
  | cons first names ih => exact congrArg (place :: ·) (ih (place.next first))

theorem lookup_filter_ne {κ β : Type} [DecidableEq κ] [BEq κ] [LawfulBEq κ] (entries : List (κ × β))
    (k q : κ) : (entries.filter (·.1 ≠ k)).lookup q = if q = k then none else entries.lookup q := by
  induction entries with
  | nil => simp
  | cons entry entries ih =>
    by_cases hentry : entry.1 = k
    · rw [List.filter_cons_of_neg (by simpa using hentry), ih, List.lookup_cons]
      by_cases hq : q = k
      · simp [hq]
      · have hne : (q == entry.1) = false := beq_eq_false_iff_ne.2 (hentry ▸ hq)
        simp [hq, hne]
    · rw [List.filter_cons_of_pos (by simpa using hentry), List.lookup_cons, List.lookup_cons, ih]
      by_cases hq : q = entry.1
      · simp [hq, hentry]
      · have hne : (q == entry.1) = false := beq_eq_false_iff_ne.2 hq
        simp only [hne]

namespace Tree

variable {t t' : Tree} {p : Path} {place q : Place} {names : List String}

section Entries

/-- What is put at a place stands there, unless the working directory lies below. -/
theorem find?_put (t : Tree) (place : Place) (e : Entry) (q : Place) :
    (t.put place e).find? q =
      if q = place ∧ place.isPrefixOf t.here = false then some e else t.find? q := by
  unfold find? put
  by_cases hq : q = place
  · subst hq
    cases hhere : q.isPrefixOf t.here <;> simp
  · have hne : (q == place) = false := beq_eq_false_iff_ne.2 hq
    simp only [List.lookup_cons, hne, lookup_filter_ne, hq, false_and, if_false]

theorem find?_put_of_ne (h : q ≠ place) (e : Entry) : (t.put place e).find? q = t.find? q := by
  simp [find?_put, h]

theorem not_below_of_find? (h : t.find? place ≠ some .directory) :
    place.isPrefixOf t.here = false := by
  cases hhere : place.isPrefixOf t.here with
  | false => rfl
  | true => exact absurd (by simp [find?, hhere]) h

theorem find?_put_self (h : t.find? place ≠ some .directory) (e : Entry) :
    (t.put place e).find? place = some e := by
  simp [find?_put, not_below_of_find? h]

theorem find?_extend_of_ne (h : q ≠ place) (more : ByteArray) :
    (t.extend place more).find? q = t.find? q := find?_put_of_ne h _

theorem find?_extend_self (h : t.find? place ≠ some .directory) (more : ByteArray) :
    (t.extend place more).find? place = some (.file (t.content place ++ more)) :=
  find?_put_self h _

theorem content_extend (h : t.find? place ≠ some .directory) (more : ByteArray) :
    (t.extend place more).content place = t.content place ++ more := by
  rw [content, find?_extend_self h]

end Entries

section Ways

/-- Names lead to a place where all on the way to it are directories. -/
theorem walk_eq_ok_iff (t : Tree) (place : Place) (names : List String) (q : Place) :
    t.walk place names = .ok q ↔
      q = place.goal names ∧ ∀ d ∈ place.way names, t.find? d = some .directory := by
  induction names generalizing place with
  | nil => simp [walk, Place.goal, Place.way, eq_comm]
  | cons name names ih =>
    rw [walk, Place.way, List.forall_mem_cons]
    rcases hentry : t.find? place with _ | _ | content
    · simp
    · have hnext := ih (place.next name)
      simpa [Place.goal, Place.next] using hnext
    · simp

/-- Where names lead nowhere, the first place that is no directory tells why. -/
theorem walk_eq_error (t : Tree) (place : Place) (names : List String) {problem : FileProblem}
    (h : t.walk place names = .error problem) :
    ∃ before d after, place.way names = before ++ d :: after ∧
      (∀ q ∈ before, t.find? q = some .directory) ∧
        (problem = .missing ∧ t.find? d = none ∨
          problem = .notDirectory ∧ ∃ content, t.find? d = some (.file content)) := by
  induction names generalizing place with
  | nil => simp [walk] at h
  | cons name names ih =>
    rw [walk] at h
    rcases hentry : t.find? place with _ | _ | content
    · rw [hentry] at h
      cases h
      exact ⟨[], place, _, rfl, by simp, .inl ⟨rfl, hentry⟩⟩
    · rw [hentry] at h
      obtain ⟨before, d, after, hway, hbefore, hproblem⟩ := ih _ h
      refine ⟨place :: before, d, after, congrArg (place :: ·) hway, ?_, hproblem⟩
      exact List.forall_mem_cons.2 ⟨hentry, hbefore⟩
    · rw [hentry] at h
      cases h
      exact ⟨[], place, _, rfl, by simp, .inr ⟨rfl, content, hentry⟩⟩

/-- Where a path starts. -/
def origin (t : Tree) (p : Path) : Place := if p.absolute then [] else t.here

/-- The place of a path, whatever stands on the way. -/
def goal (t : Tree) (p : Path) : Place := (t.origin p).goal p.names

def way (t : Tree) (p : Path) : List Place := (t.origin p).way p.names

theorem place?_eq_ok_iff (t : Tree) (p : Path) (q : Place) :
    t.place? p = .ok q ↔ q = t.goal p ∧ ∀ d ∈ t.way p, t.find? d = some .directory :=
  walk_eq_ok_iff t _ _ _

theorem way_of_parent (h : p.names ≠ []) : t.way p = t.way p.parent ++ [t.goal p.parent] := by
  have hnames := List.dropLast_concat_getLast h
  show (t.origin p).way p.names = _
  rw [← hnames, Place.way_append]
  rfl

end Ways

section Directories

theorem haveDirectory_of_error {problem : FileProblem} (h : t.place? p = .error problem) :
    t.haveDirectory p = .error problem := by
  simp [haveDirectory, makeDirectory, isDirectory, h]

theorem haveDirectory_of_ok (h : t.place? p = .ok q) :
    t.haveDirectory p = match t.find? q with
      | none => .ok (t.put q .directory)
      | some .directory => .ok t
      | some (.file _) => .error .exists := by
  rcases hentry : t.find? q with _ | _ | content <;>
    simp [haveDirectory, makeDirectory, isDirectory, h, hentry]

def holdsFile (t : Tree) (place : Place) : Bool :=
  match t.find? place with
  | some (.file _) => true
  | _ => false

theorem holdsFile_of_file {content : ByteArray} (h : t.find? place = some (.file content)) :
    t.holdsFile place = true := by rw [holdsFile, h]

theorem holdsFile_of_directory (h : t.find? place = some .directory) :
    t.holdsFile place = false := by rw [holdsFile, h]

theorem holdsFile_of_none (h : t.find? place = none) : t.holdsFile place = false := by
  rw [holdsFile, h]

/-- The first of some places, up to one that holds a file. -/
def reached (t : Tree) (places : List Place) : List Place := places.takeWhile (!t.holdsFile ·)

/-- Directories at some places, and nothing else changed. -/
structure HasMade (places : List Place) (t t' : Tree) : Prop where
  here : t'.here = t.here
  entry (q : Place) : t'.find? q = if q ∈ places then some .directory else t.find? q

theorem HasMade.of_directories {places : List Place}
    (h : ∀ d ∈ places, t.find? d = some .directory) : HasMade places t t := by
  constructor
  · rfl
  · intro q
    split_ifs with hq
    · exact h q hq
    · rfl

/-- What comes of wanting directories at places in order: all before the first file are there then,
and no fault arises if there is no file. -/
structure Ensured (places : List Place) (t : Tree) (result : Tree × Option FileFault) : Prop where
  made : HasMade (t.reached places) t result.1
  ok_iff : result.2 = none ↔ ∀ d ∈ places, t.holdsFile d = false

theorem Ensured.directory {places : List Place} {result : Tree × Option FileFault}
    (h : Ensured places t result) (hok : result.2 = none) :
    ∀ d ∈ places, result.1.find? d = some .directory := by
  intro d hd
  have hclear : ∀ d ∈ places, (!t.holdsFile d) = true := by simpa using h.ok_iff.1 hok
  rw [h.made.entry, if_pos]
  rwa [reached, List.takeWhile_eq_self_iff.2 hclear]

section Reached

variable {places before after : List Place} {d : Place}

theorem reached_of_clear (h : ∀ d ∈ places, t.holdsFile d = false) : t.reached places = places := by
  rw [reached, List.takeWhile_eq_self_iff]
  intro d hd
  simp [h d hd]

theorem reached_of_file (hbefore : ∀ q ∈ before, t.holdsFile q = false) (hd : t.holdsFile d = true)
    (after : List Place) : t.reached (before ++ d :: after) = before := by
  rw [reached, List.takeWhile_append_of_pos (by simpa using hbefore), List.takeWhile_cons]
  simp [hd]

theorem reached_append_of_blocked (h : ¬ ∀ d ∈ places, t.holdsFile d = false) (more : List Place) :
    t.reached (places ++ more) = t.reached places := by
  unfold reached
  rw [List.takeWhile_append, if_neg]
  intro hlength
  have hself := (List.takeWhile_sublist _).eq_of_length hlength
  rw [List.takeWhile_eq_self_iff] at hself
  exact h fun d hd => by simpa using hself d hd

theorem holdsFile_of_mem_reached (h : d ∈ t.reached places) : t.holdsFile d = false := by
  simpa using List.mem_takeWhile_imp h

theorem mem_of_mem_reached (h : d ∈ t.reached places) : d ∈ places :=
  (List.takeWhile_sublist _).mem h

end Reached

/-- The places of a directory and of all on the way to it. -/
def chain (t : Tree) (p : Path) : List Place := t.way p ++ [t.goal p]

theorem goal_mem_chain (t : Tree) (p : Path) : t.goal p ∈ t.chain p := by simp [chain]

theorem goal_eq_of_here (h : t'.here = t.here) (p : Path) : t'.goal p = t.goal p := by
  simp [goal, origin, h]

theorem chain_eq_of_here (h : t'.here = t.here) (p : Path) : t'.chain p = t.chain p := by
  simp [chain, way, goal, origin, h]

theorem ensured_of_directories {places : List Place}
    (h : ∀ d ∈ places, t.find? d = some .directory) : Ensured places t (t, none) := by
  have hclear : ∀ d ∈ places, t.holdsFile d = false := fun d hd => holdsFile_of_directory (h d hd)
  constructor
  · rw [reached_of_clear hclear]
    exact .of_directories h
  · exact iff_of_true rfl hclear

/-- Where the first place that is no directory holds a file, nothing is made. -/
theorem ensured_of_file {before : List Place} {d : Place} {content : ByteArray} {fault : FileFault}
    (hbefore : ∀ q ∈ before, t.find? q = some .directory) (hd : t.find? d = some (.file content))
    (after : List Place) : Ensured (before ++ d :: after) t (t, some fault) := by
  have hfile := holdsFile_of_file hd
  constructor
  · rw [reached_of_file (fun q hq => holdsFile_of_directory (hbefore q hq)) hfile]
    exact .of_directories hbefore
  · apply iff_of_false (by simp)
    intro hclear
    simp [hclear d (by simp)] at hfile

/-- The directory of a path is made at once where all on the way to it are there. -/
theorem ensured_of_ok (h : t.place? p = .ok q) :
    Ensured (t.chain p) t (match t.haveDirectory p with
      | .ok t => (t, none)
      | .error problem => (t, some ⟨problem, p⟩)) := by
  obtain ⟨rfl, hway⟩ := (place?_eq_ok_iff t p q).1 h
  rw [haveDirectory_of_ok h]
  rcases hentry : t.find? (t.goal p) with _ | _ | content
  · have hclear : ∀ d ∈ t.chain p, t.holdsFile d = false := by
      intro d hd
      rcases List.mem_append.1 hd with hd | hd
      · exact holdsFile_of_directory (hway d hd)
      · rw [List.mem_singleton.1 hd]
        exact holdsFile_of_none hentry
    constructor
    · rw [reached_of_clear hclear]
      constructor
      · rfl
      · intro q
        have hself : (t.put (t.goal p) .directory).find? (t.goal p) = some .directory :=
          find?_put_self (by simp [hentry]) _
        by_cases hq : q = t.goal p
        · rw [hq, if_pos (goal_mem_chain t p)]
          exact hself
        · rw [find?_put_of_ne hq]
          split_ifs with hmem
          · rcases List.mem_append.1 hmem with hmem | hmem
            · exact hway q hmem
            · exact absurd (List.mem_singleton.1 hmem) hq
          · rfl
    · exact iff_of_true rfl hclear
  · apply ensured_of_directories
    intro d hd
    rcases List.mem_append.1 hd with hd | hd
    · exact hway d hd
    · rw [List.mem_singleton.1 hd]
      exact hentry
  · exact ensured_of_file hway hentry []

theorem chain_concat (t : Tree) (absolute : Bool) (name : String) (rev : List String) :
    t.chain ⟨absolute, (name :: rev).reverse⟩ =
      t.chain ⟨absolute, rev.reverse⟩ ++ [t.goal ⟨absolute, (name :: rev).reverse⟩] := by
  have hway := way_of_parent (t := t) (p := ⟨absolute, (name :: rev).reverse⟩) (by simp)
  rw [chain, hway]
  simp [Path.parent, chain]

theorem place?_of_chain {places : List Place} (h : t.chain p = places ++ [q])
    (hplaces : ∀ d ∈ places, t.find? d = some .directory) : t.place? p = .ok q := by
  obtain ⟨rfl, hgoal⟩ := List.append_inj' h rfl
  rw [place?_eq_ok_iff]
  exact ⟨(List.singleton_inj.1 hgoal).symm, hplaces⟩

/-- Once the directories on the way are made, that of a path is there or made, or it is a file. -/
theorem Ensured.next {places : List Place} {t₁ : Tree} (h : Ensured places t (t₁, none))
    (hplace : t₁.place? p = .ok q) (hp : t₁.chain p = places ++ [q]) :
    Ensured (places ++ [q]) t (match t₁.haveDirectory p with
      | .ok t => (t, none)
      | .error problem => (t₁, some ⟨problem, p⟩)) := by
  have hlast := ensured_of_ok hplace
  rw [hp] at hlast
  have hclear := h.ok_iff.1 rfl
  have hentry := h.made.entry
  rw [reached_of_clear hclear] at hentry
  -- what was made is no file, and all else is as it was
  have hsame (d : Place) : t₁.holdsFile d = t.holdsFile d := by
    have hd := hentry d
    split_ifs at hd with hmem
    · rw [holdsFile_of_directory hd, hclear d hmem]
    · rw [holdsFile, holdsFile, hd]
  have hreached : t₁.reached (places ++ [q]) = t.reached (places ++ [q]) := by
    simp only [reached, hsame]
  constructor
  · constructor
    · exact hlast.made.here.trans h.made.here
    · intro other
      rw [hlast.made.entry, hreached, hentry]
      split_ifs with hmem hmem'
      · rfl
      · have hplaces : other ∈ t.reached (places ++ [q]) := by
          rw [reached, List.takeWhile_append_of_pos (by simpa using hclear)]
          exact List.mem_append_left _ hmem'
        exact absurd hplaces hmem
      · rfl
  · rw [hlast.ok_iff]
    simp only [hsame]

theorem ensure_of_ok {absolute : Bool} {name : String} {rev : List String}
    (h : t.place? ⟨absolute, (name :: rev).reverse⟩ = .ok q) :
    ensure absolute (name :: rev) t =
      match t.haveDirectory ⟨absolute, (name :: rev).reverse⟩ with
      | .ok t => (t, none)
      | .error problem => (t, some ⟨problem, ⟨absolute, (name :: rev).reverse⟩⟩) := by
  rw [ensure, haveDirectory_of_ok h]
  rcases t.find? q with _ | _ | content <;> rfl

/-- The directory of a path, with all on the way to it, is made unless a file is in the way. -/
theorem ensured (absolute : Bool) (rev : List String) (t : Tree) :
    Ensured (t.chain ⟨absolute, rev.reverse⟩) t (ensure absolute rev t) := by
  induction rev generalizing t with
  | nil =>
    have hplace : t.place? ⟨absolute, []⟩ = .ok (t.goal ⟨absolute, []⟩) := rfl
    exact ensured_of_ok hplace
  | cons name rev ih =>
    have hchain := chain_concat t absolute name rev
    rcases hplace : t.place? ⟨absolute, (name :: rev).reverse⟩ with problem | q
    · rw [ensure, haveDirectory_of_error hplace]
      obtain ⟨before, d, after, hway, hbefore, ⟨rfl, -⟩ | ⟨rfl, content, hfile⟩⟩ :=
        walk_eq_error t _ _ hplace
      · have habove := ih t
        rw [hchain]
        rcases hresult : ensure absolute rev t with ⟨t₁, _ | fault⟩
        · rw [hresult] at habove
          have hchain₁ := chain_eq_of_here habove.made.here ⟨absolute, (name :: rev).reverse⟩
          rw [hchain] at hchain₁
          -- all on the way are directories now, so the last one is tried again
          exact habove.next (place?_of_chain hchain₁ (habove.directory rfl)) hchain₁
        · rw [hresult] at habove
          have hblocked := (not_congr habove.ok_iff).1 (by simp)
          constructor
          · rw [reached_append_of_blocked hblocked]
            exact habove.made
          · apply iff_of_false (by simp)
            exact fun h => hblocked fun d hd => h d (List.mem_append_left _ hd)
      · have hplaces : t.chain ⟨absolute, (name :: rev).reverse⟩ = before ++ d :: (after ++
            [t.goal ⟨absolute, (name :: rev).reverse⟩]) := by
          rw [chain, way, origin]
          simpa using congrArg (· ++ [t.goal ⟨absolute, (name :: rev).reverse⟩]) hway
        rw [hplaces]
        exact ensured_of_file hbefore hfile _
    · rw [ensure_of_ok hplace]
      exact ensured_of_ok hplace

theorem ensured_directory (t : Tree) (p : Path) : Ensured (t.chain p) t (t.ensureDirectory p) := by
  have h := ensured p.absolute p.names.reverse t
  rwa [List.reverse_reverse] at h

theorem ensureDirectory_of_directories (h : ∀ d ∈ t.chain p, t.find? d = some .directory) :
    t.ensureDirectory p = (t, none) := by
  have hplace : t.place? p = .ok (t.goal p) :=
    place?_of_chain rfl fun d hd => h d (List.mem_append_left _ hd)
  have hdir : t.find? (t.goal p) = some .directory := h _ (goal_mem_chain t p)
  have hhave : t.haveDirectory p = .ok t := by rw [haveDirectory_of_ok hplace, hdir]
  obtain ⟨absolute, names⟩ := p
  show ensure absolute names.reverse t = _
  rcases hrev : names.reverse with _ | ⟨name, rev⟩
  · rw [List.reverse_eq_nil_iff.1 hrev] at hhave
    rw [ensure, hhave]
  · have hnames : names = (name :: rev).reverse := by rw [← hrev, List.reverse_reverse]
    rw [hnames] at hhave
    rw [ensure, hhave]

end Directories

section Writing

/-- The file of a path can be written at a place: the directories on the way are there, and it is
none of them. -/
structure Ready (t : Tree) (p : Path) (place : Place) : Prop where
  goal : place = t.goal p
  directory : ∀ d ∈ t.chain p.parent, t.find? d = some .directory
  free : t.find? place ≠ some .directory

/-- Unless the path is that of the starting point, the places on its way are those of the directory
it is in. -/
theorem way_eq_chain (h : p.names ≠ []) : t.way p = t.chain p.parent := way_of_parent h

theorem place?_of_directories (h : ∀ d ∈ t.chain p.parent, t.find? d = some .directory) :
    t.place? p = .ok (t.goal p) := by
  rw [place?_eq_ok_iff]
  by_cases hnames : p.names = []
  · simp [way, hnames, Place.way]
  · rw [way_eq_chain hnames]
    exact ⟨rfl, h⟩

theorem Ready.prepare (h : t.Ready p place) : t.prepare p = (t, .ok place) := by
  have hfile : t.filePlace p = .ok place := by
    rw [filePlace, place?_of_directories h.directory, ← h.goal]
    exact if_neg h.free
  simp only [Tree.prepare, ensureDirectory_of_directories h.directory, hfile]

/-- What is written at the place makes the path no less ready. -/
theorem Ready.put (h : t.Ready p place) (content : ByteArray) :
    (t.put place (.file content)).Ready p place := by
  have hself := find?_put_self h.free (.file content)
  have hchain : (t.put place (.file content)).chain p.parent = t.chain p.parent :=
    chain_eq_of_here rfl _
  constructor
  · exact h.goal
  · intro d hd
    rw [hchain] at hd
    have hne : d ≠ place := fun heq => h.free (heq ▸ h.directory d hd)
    rw [find?_put_of_ne hne]
    exact h.directory d hd
  · simp [hself]

theorem Ready.extend (h : t.Ready p place) (more : ByteArray) :
    (t.extend place more).Ready p place := h.put _

/-- A path is ready once its place is told; all on the way to it are directories then. -/
theorem ready_of_prepare {t₁ : Tree} (h : t.prepare p = (t₁, .ok place)) :
    t₁.Ready p place ∧ HasMade (t.chain p.parent) t t₁ := by
  have hensured := ensured_directory t p.parent
  rw [prepare] at h
  rcases hresult : t.ensureDirectory p.parent with ⟨t₂, _ | fault⟩
  · rw [hresult] at h hensured
    obtain ⟨rfl, hfile⟩ := Prod.mk.inj h
    have hmade := hensured.made
    rw [reached_of_clear (hensured.ok_iff.1 rfl)] at hmade
    have hdir := hensured.directory rfl
    rw [← chain_eq_of_here hmade.here] at hdir
    rw [filePlace, place?_of_directories hdir] at hfile
    dsimp only at hfile
    split_ifs at hfile with hentry
    obtain rfl := Except.ok.inj hfile
    exact ⟨⟨rfl, hdir, hentry⟩, hmade⟩
  · rw [hresult] at h
    simp at h

/-- Making ready a file leaves what it holds. -/
theorem content_of_prepare {t₁ : Tree} (h : t.prepare p = (t₁, .ok place)) :
    t₁.content place = t.content place := by
  obtain ⟨hready, hmade⟩ := ready_of_prepare h
  have hentry := hmade.entry place
  split_ifs at hentry with hmem
  · exact absurd hentry hready.free
  · rw [content, content, hentry]

end Writing

end Tree

end MathMarkup
