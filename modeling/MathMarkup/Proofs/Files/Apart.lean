import Mathlib.Data.List.Induction
import MathMarkup.Proofs.Files.Tree

/-! Two paths apart from each other. Where one of two trees has more directories on the way of a
path, and anything at its place, the same comes of writing to the other path: it goes well in both
trees or in none, and the same stands at its place afterwards. -/
namespace MathMarkup.Tree

variable {t t' T T' : Tree} {p : Path} {places chain : List Place} {file place q d : Place}

/-- The second tree has directories at some places where the first has nothing, and may differ at
one more place. -/
structure Beside (places : List Place) (file : Place) (t T : Tree) : Prop where
  here : T.here = t.here
  entry (q : Place) (hq : q ≠ file) : T.find? q = t.find? q ∨
    q ∈ places ∧ t.find? q = none ∧ T.find? q = some .directory

namespace Beside

/-- Directories were made at some of the places. -/
theorem of_made (h : HasMade (t.reached places) t T) (file : Place) : Beside places file t T := by
  constructor
  · exact h.here
  · intro q _
    have hentry := h.entry q
    split_ifs at hentry with hmem
    · have hfile := holdsFile_of_mem_reached hmem
      rcases hq : t.find? q with _ | _ | content
      · exact .inr ⟨mem_of_mem_reached hmem, rfl, hentry⟩
      · exact .inl hentry
      · simp [holdsFile_of_file hq] at hfile
    · exact .inl hentry

theorem extend (h : Beside places file t T) (more : ByteArray) :
    Beside places file t (T.extend file more) := by
  constructor
  · exact h.here
  · intro q hq
    rw [find?_extend_of_ne hq]
    exact h.entry q hq

theorem put (h : Beside places file t T) (place : Place) (e : Entry) :
    Beside places file (t.put place e) (T.put place e) := by
  constructor
  · exact h.here
  · intro q hq
    have hentry := h.entry q hq
    rw [find?_put, find?_put, h.here]
    split_ifs
    · exact .inl rfl
    · exact hentry

theorem holdsFile_eq (h : Beside places file t T) (hq : q ≠ file) :
    T.holdsFile q = t.holdsFile q := by
  rcases h.entry q hq with heq | ⟨-, hnone, hdir⟩
  · rw [holdsFile, holdsFile, heq]
  · rw [holdsFile_of_directory hdir, holdsFile_of_none hnone]

theorem reached_eq (h : Beside places file t T) (hfile : file ∉ chain) :
    T.reached chain = t.reached chain := by
  induction chain with
  | nil => rfl
  | cons q chain ih =>
    rw [List.mem_cons, not_or] at hfile
    have hq := h.holdsFile_eq (Ne.symm hfile.1)
    have hrest := ih hfile.2
    unfold reached at hrest ⊢
    rw [List.takeWhile_cons, List.takeWhile_cons, hq, hrest]

theorem made (h : Beside places file t T) (hfile : file ∉ chain) (ht : HasMade (t.reached chain) t t')
    (hT : HasMade (T.reached chain) T T') : Beside places file t' T' := by
  rw [h.reached_eq hfile] at hT
  constructor
  · rw [hT.here, ht.here, h.here]
  · intro q hq
    rw [hT.entry, ht.entry]
    split_ifs
    · exact .inl rfl
    · exact h.entry q hq

/-- Away from the places nothing differs. -/
theorem entry_eq (h : Beside places file t T) (hplaces : q ∉ places) (hq : q ≠ file) :
    T.find? q = t.find? q := by
  rcases h.entry q hq with heq | ⟨hmem, -⟩
  · exact heq
  · exact absurd hmem hplaces

end Beside

section Faults

/-- A tree in which all that stands anywhere stands in a directory. -/
def Sound (t : Tree) : Prop :=
  ∀ place name, t.find? (place ++ [name]) ≠ none → t.find? place = some .directory

theorem Sound.none_below (h : t.Sound) (hplace : t.find? place = none) (names : List String) :
    t.find? (place ++ names) = none := by
  induction names using List.reverseRecOn with
  | nil => simpa using hplace
  | append_singleton names name ih =>
    by_contra hne
    rw [← List.append_assoc] at hne
    simp [h _ _ hne] at ih

/-- It is enough that all entries stand in directories. -/
theorem sound_of_entries (h : ∀ e ∈ t.entries, t.find? e.1.dropLast = some .directory) :
    t.Sound := by
  intro place name hne
  by_cases hhere : place.isPrefixOf t.here
  · simp [find?, hhere]
  · have hbelow : (place ++ [name]).isPrefixOf t.here = false := by
      rw [Bool.eq_false_iff]
      intro hprefix
      rw [List.isPrefixOf_iff_prefix] at hhere hprefix
      exact hhere ((List.prefix_append place [name]).trans hprefix)
    rw [find?, hbelow, if_neg Bool.false_ne_true, ne_eq, List.lookup_eq_none_iff] at hne
    push Not at hne
    obtain ⟨e, he, hkey⟩ := hne
    have hplace := h e he
    have heq : place ++ [name] = e.1 := by simpa using hkey
    rwa [← heq, List.dropLast_concat] at hplace

theorem below_of_mem_way {names : List String} (hup : ".." ∉ names)
    (hq : q ∈ place.way names ++ [place.goal names]) : ∃ more, q = place ++ more := by
  induction names generalizing place with
  | nil => exact ⟨[], by simpa [Place.way, Place.goal] using hq⟩
  | cons name names ih =>
    rw [List.mem_cons, not_or] at hup
    have hnext : place.next name = place ++ [name] := if_neg (Ne.symm hup.1)
    rw [Place.way, List.cons_append, List.mem_cons] at hq
    rcases hq with rfl | hq
    · exact ⟨[], (List.append_nil _).symm⟩
    · obtain ⟨more, rfl⟩ := ih hup.2 hq
      exact ⟨name :: more, by rw [hnext, List.append_assoc, List.singleton_append]⟩

/-- Names that never lead up lead deeper and deeper. -/
theorem below_of_way {names : List String} (hup : ".." ∉ names) {before after : List Place}
    (h : place.way names ++ [place.goal names] = before ++ d :: after) :
    ∀ q ∈ after, ∃ more, q = d ++ more := by
  induction names generalizing place before with
  | nil =>
    cases before with
    | nil =>
      obtain ⟨-, rfl⟩ := List.cons.inj h
      simp
    | cons first before => simp [Place.way] at h
  | cons name names ih =>
    rw [Place.way, List.cons_append] at h
    cases before with
    | nil =>
      obtain ⟨rfl, rfl⟩ := List.cons.inj h
      intro q hq
      apply below_of_mem_way hup
      rw [Place.way, List.cons_append]
      exact List.mem_cons_of_mem _ hq
    | cons first before =>
      rw [List.mem_cons, not_or] at hup
      exact ih hup.2 (List.cons.inj h).2

theorem walk_of_file {names : List String} {before after : List Place} {content : ByteArray}
    (h : place.way names = before ++ d :: after)
    (hbefore : ∀ q ∈ before, t.find? q = some .directory)
    (hd : t.find? d = some (.file content)) : t.walk place names = .error .notDirectory := by
  induction names generalizing place before with
  | nil => simp [Place.way] at h
  | cons name names ih =>
    rw [Place.way] at h
    cases before with
    | nil =>
      obtain ⟨rfl, -⟩ := List.cons.inj h
      rw [walk, hd]
    | cons first before =>
      obtain ⟨rfl, hrest⟩ := List.cons.inj h
      rw [List.forall_mem_cons] at hbefore
      rw [walk, hbefore.1]
      exact ih hrest hbefore.2

/-- Where a file is in the way, and all before it is there, the file tells the fault. -/
theorem ensureDirectory_of_file {before after : List Place} {content : ByteArray}
    (h : t.chain p = before ++ d :: after) (hbefore : ∀ q ∈ before, t.find? q = some .directory)
    (hd : t.find? d = some (.file content)) :
    t.ensureDirectory p =
      (t, some ⟨if after = [] then .exists else .notDirectory, p⟩) := by
  have hhave : t.haveDirectory p =
      .error (if after = [] then .exists else .notDirectory) := by
    rcases List.eq_nil_or_concat after with rfl | ⟨init, last, rfl⟩
    · rw [haveDirectory_of_ok (place?_of_chain h hbefore), hd, if_pos rfl]
    · have hsplit : t.way p ++ [t.goal p] = before ++ d :: init ++ [last] := by
        simpa [chain] using h
      have hway : t.way p = before ++ d :: init := List.append_inj_left' hsplit rfl
      rw [haveDirectory_of_error (walk_of_file hway hbefore hd), if_neg (by simp)]
  obtain ⟨absolute, names⟩ := p
  show ensure absolute names.reverse t = _
  rcases hrev : names.reverse with _ | ⟨name, rev⟩
  · rw [List.reverse_eq_nil_iff.1 hrev] at hhave ⊢
    rw [ensure, hhave]
  · have hnames : names = (name :: rev).reverse := by rw [← hrev, List.reverse_reverse]
    rw [hnames] at hhave ⊢
    rw [ensure, hhave]
    split_ifs <;> rfl

theorem split_directories (t : Tree) {chain : List Place}
    (h : ¬ ∀ d ∈ chain, t.find? d = some .directory) :
    ∃ before d after, chain = before ++ d :: after ∧
      (∀ q ∈ before, t.find? q = some .directory) ∧ t.find? d ≠ some .directory := by
  induction chain with
  | nil => simp at h
  | cons d chain ih =>
    by_cases hd : t.find? d = some .directory
    · rw [List.forall_mem_cons, not_and] at h
      obtain ⟨before, q, after, rfl, hbefore, hq⟩ := ih (h hd)
      exact ⟨d :: before, q, after, rfl, List.forall_mem_cons.2 ⟨hd, hbefore⟩, hq⟩
    · exact ⟨[], d, chain, rfl, by simp, hd⟩

/-- Where two trees differ beside the way of a path that never leads up, the same fault is told. -/
theorem Beside.fault_eq (h : Beside places file t T) (hsound : t.Sound) (hup : ".." ∉ p.names)
    (hfile : file ∉ t.chain p) (hfault : (t.ensureDirectory p).2 ≠ none) :
    (T.ensureDirectory p).2 = (t.ensureDirectory p).2 := by
  have hblocked := (not_congr (ensured_directory t p).ok_iff).1 hfault
  obtain ⟨before, d, after, hchain, hbefore, hd⟩ := split_directories t
    (fun hall => hblocked fun d hd => holdsFile_of_directory (hall d hd))
  have hne : ∀ q ∈ t.chain p, q ≠ file := fun q hq heq => hfile (heq ▸ hq)
  rcases hentry : t.find? d with _ | _ | content
  · -- all that comes after a place where nothing stands is below it, and so not there either
    refine absurd (fun q hq => ?_) hblocked
    rw [hchain] at hq
    rcases List.mem_append.1 hq with hq | hq
    · exact holdsFile_of_directory (hbefore q hq)
    · rcases List.mem_cons.1 hq with rfl | hq
      · exact holdsFile_of_none hentry
      · obtain ⟨more, rfl⟩ := below_of_way hup hchain q hq
        exact holdsFile_of_none (hsound.none_below hentry more)
  · exact absurd hentry hd
  · have hT : ∀ q ∈ before, T.find? q = some .directory := by
      intro q hq
      have hmem : q ∈ t.chain p := by rw [hchain]; exact List.mem_append_left _ hq
      rcases h.entry q (hne q hmem) with heq | ⟨-, -, hdir⟩
      · rw [heq, hbefore q hq]
      · exact hdir
    have hTd : T.find? d = some (.file content) := by
      have hmem : d ∈ t.chain p := by simp [hchain]
      rcases h.entry d (hne d hmem) with heq | ⟨-, hnone, -⟩
      · rw [heq, hentry]
      · simp [hentry] at hnone
    have hchainT : T.chain p = before ++ d :: after := by rw [chain_eq_of_here h.here, hchain]
    rw [ensureDirectory_of_file hchain hbefore hentry, ensureDirectory_of_file hchainT hT hTd]

end Faults

section Writing

theorem mem_chain_of_parent (h : d ∈ t.chain p.parent) : d ∈ t.chain p := by
  by_cases hnames : p.names = []
  · obtain ⟨absolute, names⟩ := p
    obtain rfl : names = [] := hnames
    exact h
  · rw [chain, way_eq_chain hnames]
    exact List.mem_append_left _ h

/-- Making a path ready makes directories on its way only. -/
theorem find?_prepare (h : q ∉ t.chain p) : (t.prepare p).1.find? q = t.find? q := by
  have hentry := (ensured_directory t p.parent).made.entry q
  rw [if_neg fun hmem => h (mem_chain_of_parent (mem_of_mem_reached hmem))] at hentry
  unfold prepare
  rcases hresult : t.ensureDirectory p.parent with ⟨t₁, _ | fault⟩ <;> simpa [hresult] using hentry

/-- A path apart from the difference is made ready in both trees, or in none. The difference stays
what it was. -/
theorem Beside.prepare (h : Beside places file t T) (hfile : file ∉ t.chain p)
    (hplaces : t.goal p ∉ places) :
    Beside places file (t.prepare p).1 (T.prepare p).1 ∧
      ((∃ place, (t.prepare p).2 = .ok place ∧ (T.prepare p).2 = .ok place) ∨
        ∃ fault fault', (t.prepare p).2 = .error fault ∧ (T.prepare p).2 = .error fault' ∧
          (t.Sound → ".." ∉ p.names → fault' = fault)) := by
  have hfile' : file ∉ t.chain p.parent := fun hmem => hfile (mem_chain_of_parent hmem)
  have ht := ensured_directory t p.parent
  have hT := ensured_directory T p.parent
  rw [chain_eq_of_here h.here] at hT
  have hbeside := h.made hfile' ht.made hT.made
  have hok : (T.ensureDirectory p.parent).2 = none ↔ (t.ensureDirectory p.parent).2 = none := by
    rw [hT.ok_iff, ht.ok_iff]
    exact forall₂_congr fun d hd => by rw [h.holdsFile_eq fun heq => hfile' (heq ▸ hd)]
  have hfault := h.fault_eq (p := p.parent)
  unfold Tree.prepare
  rcases hresult : t.ensureDirectory p.parent with ⟨t₁, _ | fault⟩
  · rcases hresult' : T.ensureDirectory p.parent with ⟨T₁, _ | fault'⟩
    · rw [hresult] at ht hbeside
      rw [hresult'] at hT hbeside
      have hhere : t₁.here = t.here := ht.made.here
      have hhere' : T₁.here = t.here := hT.made.here.trans h.here
      have hdir := ht.directory rfl
      have hdir' := hT.directory rfl
      rw [← chain_eq_of_here hhere] at hdir
      rw [← chain_eq_of_here hhere'] at hdir'
      have hne : t.goal p ≠ file := fun heq => hfile (heq ▸ goal_mem_chain t p)
      have hentry := hbeside.entry_eq hplaces hne
      refine ⟨hbeside, ?_⟩
      dsimp only at hentry ⊢
      rw [filePlace, filePlace, place?_of_directories hdir, place?_of_directories hdir',
        goal_eq_of_here hhere, goal_eq_of_here hhere']
      dsimp only
      rw [hentry]
      split_ifs
      · exact .inr ⟨_, _, rfl, rfl, fun _ _ => rfl⟩
      · exact .inl ⟨_, rfl, rfl⟩
    · simp [hresult, hresult'] at hok
  · rcases hresult' : T.ensureDirectory p.parent with ⟨T₁, _ | fault'⟩
    · simp [hresult, hresult'] at hok
    · rw [hresult, hresult'] at hbeside hfault
      refine ⟨hbeside, .inr ⟨fault, fault', rfl, rfl, fun hsound hup => ?_⟩⟩
      have hup' : ".." ∉ p.parent.names := fun hmem => hup ((List.dropLast_sublist _).mem hmem)
      exact Option.some.inj (hfault hsound hup' hfile' (by simp))

end Writing

end MathMarkup.Tree
