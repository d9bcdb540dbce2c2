import MathMarkup.Proofs.Files.Tree
import MathMarkup.Proofs.Json.Compact
import MathMarkup.Trace.Log

/-! Sessions on the log of a path, one after the other. In each the log is opened, written to in any
way, and closed. What its file held stays, and behind it stands one line for each event that was
taken, in order. -/
namespace MathMarkup.Log

/-- What is done with a log that was opened. -/
inductive Act where
  | append (event : Json)
  | flush
  | close

/-- An act, with the events that it takes. -/
def act (log : Log) (t : Tree) : Act → Log × Tree × List Json
  | .append event =>
    match log.append event with
    | .ok log => (log, t, [event])
    | .error _ => (log.push (line event).toUTF8, t, [])
  | .flush =>
    match log.flush t with
    | .ok (log, t) => (log, t, [])
    | .error _ => (log.push .empty, t, [])
  | .close =>
    let (log, t) := log.close t
    (log, t, [])

/-- Acts one after the other. -/
def acts (log : Log) (t : Tree) : List Act → Log × Tree × List Json
  | [] => (log, t, [])
  | a :: rest =>
    let (log, t, events) := log.act t a
    let (log, t, more) := log.acts t rest
    (log, t, events ++ more)

/-- Sessions, each given by the acts after its log is opened, with the events that they take. -/
def sessions (p : Path) : List (List Act) → Tree → Tree × Except FileFault (List Json)
  | [], t => (t, .ok [])
  | as :: rest, t =>
    match openAt t p with
    | (t, .error fault) => (t, .error fault)
    | (t, .ok log) =>
      let (_, t, events) := log.acts t as
      let (t, more) := sessions p rest t
      (t, more.map (events ++ ·))

/-- The events appended before the log is closed. -/
def taken : List Act → List Json
  | [] => []
  | .append event :: rest => event :: taken rest
  | .flush :: rest => taken rest
  | .close :: _ => []

/-- One line for each event. -/
def text (events : List Json) : String := String.join (events.map line)

/-- What the file of a log holds once all that is pending is written. -/
def total (log : Log) (t : Tree) : ByteArray := t.content log.place ++ log.pending

variable {p : Path} {log log' log₁ log₂ log₃ : Log} {t t' t₁ t₂ t₃ : Tree}
  {events more : List Json}

theorem toUTF8_append (s s' : String) : (s ++ s').toUTF8 = s.toUTF8 ++ s'.toUTF8 := by
  simp [String.toUTF8_eq_toByteArray]

theorem text_cons (event : Json) (events : List Json) :
    text (event :: events) = line event ++ text events := by
  rw [text, List.map_cons, String.join_cons, text]

theorem text_append (events more : List Json) : text (events ++ more) = text events ++ text more := by
  rw [text, List.map_append, String.join_append, text, text]

/-- A log whose system takes everything. -/
def Takes (log : Log) : Prop := ∀ answer ∈ log.answers, answer = none

/-- A log of a path that can be written to. Nothing is pending once it is closed. -/
structure Sound (p : Path) (log : Log) (t : Tree) : Prop where
  ready : t.Ready p log.place
  takes : log.Takes
  pending : log.isOpen = false → log.pending = .empty

/-- From one state to another the file grows by the lines of the events. -/
structure Grows (p : Path) (log₁ : Log) (t₁ : Tree) (log₂ : Log) (t₂ : Tree) (events : List Json) :
    Prop where
  sound : Sound p log₂ t₂
  place : log₂.place = log₁.place
  total : total log₂ t₂ = total log₁ t₁ ++ (text events).toUTF8

theorem Grows.refl (h : Sound p log t) : Grows p log t log t [] := by
  constructor
  · exact h
  · rfl
  · simp [text]

theorem Grows.trans (h : Grows p log₁ t₁ log₂ t₂ events) (h' : Grows p log₂ t₂ log₃ t₃ more) :
    Grows p log₁ t₁ log₃ t₃ (events ++ more) := by
  constructor
  · exact h'.sound
  · exact h'.place.trans h.place
  · rw [h'.total, h.total, text_append, toUTF8_append, ByteArray.append_assoc]

section Calls

@[simp] theorem place_push (log : Log) (more : ByteArray) : (log.push more).place = log.place := by
  unfold push
  split <;> rfl

@[simp] theorem isOpen_push (log : Log) (more : ByteArray) : (log.push more).isOpen = log.isOpen := by
  unfold push
  split <;> rfl

theorem push_of_closed (h : log.isOpen = false) (more : ByteArray) : log.push more = log := by
  simp [push, h]

theorem fault?_of_closed (h : log.isOpen = false) : log.fault? = some .closed := by
  simp [fault?, h]

theorem Takes.shortfall? (h : log.Takes) : log.shortfall? = none := by
  unfold Log.shortfall?
  cases hanswers : log.answers with
  | nil => rfl
  | cons answer answers => exact h answer (by simp [hanswers])

theorem Takes.fault? (h : log.Takes) (hopen : log.isOpen = true) : log.fault? = none := by
  simp [Log.fault?, hopen, h.shortfall?]

theorem Takes.push (h : log.Takes) (more : ByteArray) : (log.push more).Takes := by
  unfold Log.push
  split
  · exact fun answer hanswer => h answer (List.mem_of_mem_tail hanswer)
  · exact h

/-- All that is handed on is on its way. -/
theorem Takes.pending_push (h : log.Takes) (hopen : log.isOpen = true) (more : ByteArray) :
    (log.push more).pending = log.pending ++ more := by
  simp [Log.push, hopen, h.shortfall?]

end Calls

section Steps

theorem grows_append (h : Sound p log t) (hopen : log.isOpen = true) (event : Json) :
    Grows p log t (log.push (line event).toUTF8) t [event] := by
  constructor
  · constructor
    · simpa using h.ready
    · exact h.takes.push _
    · simp [hopen]
  · exact place_push _ _
  · simp [total, text, h.takes.pending_push hopen, ByteArray.append_assoc]

/-- What is pending goes to the file, behind what it holds. -/
theorem grows_spill (h : Sound p log t) (hopen : log.isOpen = true) (isOpen : Bool) :
    Grows p log t { log.push .empty with pending := .empty, isOpen } ((log.push .empty).spill t)
      [] := by
  constructor
  · constructor
    · simpa [spill] using h.ready.extend _
    · exact h.takes.push _
    · intro _
      rfl
  · exact place_push _ _
  · simp [total, spill, text, Tree.content_extend h.ready.free, h.takes.pending_push hopen]

/-- An act takes an event only where the log is open, and closes it only where it says so. -/
theorem act_grows (h : Sound p log t) (a : Act) :
    Grows p log t (log.act t a).1 (log.act t a).2.1 (log.act t a).2.2 := by
  cases hopen : log.isOpen with
  | false =>
    cases a <;>
      simp [act, append, flush, close, hopen, fault?_of_closed, push_of_closed, Grows.refl h]
  | true =>
    have hfault := h.takes.fault? hopen
    cases a with
    | append event => simpa [act, append, hfault] using grows_append h hopen event
    | flush => simpa [act, flush, hfault, hopen] using grows_spill h hopen true
    | close => simpa [act, close, hopen] using grows_spill h hopen false

theorem acts_grow (h : Sound p log t) (as : List Act) :
    Grows p log t (log.acts t as).1 (log.acts t as).2.1 (log.acts t as).2.2 := by
  induction as generalizing log t with
  | nil => exact .refl h
  | cons a as ih =>
    have hstep := act_grows h a
    exact hstep.trans (ih hstep.sound)

theorem acts_of_closed (h : log.isOpen = false) (as : List Act) : log.acts t as = (log, t, []) := by
  induction as with
  | nil => rfl
  | cons a as ih =>
    cases a <;> simp [acts, act, append, flush, close, h, fault?_of_closed, push_of_closed, ih]

/-- The events taken are those appended before the log is closed. -/
theorem acts_taken (h : log.isOpen = true) (htakes : log.Takes) (as : List Act) :
    (log.acts t as).2.2 = taken as := by
  induction as generalizing log t with
  | nil => rfl
  | cons a as ih =>
    have hfault := htakes.fault? h
    cases a with
    | append event =>
      simpa [acts, act, append, hfault, taken] using ih (by simp [h]) (htakes.push _)
    | flush =>
      have hflushed : Takes { log.push .empty with pending := .empty } := htakes.push .empty
      simpa [acts, act, flush, hfault, taken] using ih (by simp [h]) hflushed
    | close => simp [acts, act, close, h, taken, acts_of_closed]

theorem acts_closed {as : List Act} (hclose : .close ∈ as) : (log.acts t as).1.isOpen = false := by
  cases hopen : log.isOpen with
  | false =>
    rw [acts_of_closed hopen]
    exact hopen
  | true =>
    induction as generalizing log t with
    | nil => simp at hclose
    | cons a as ih =>
      cases a with
      | append event =>
        cases hfault : log.fault? <;>
          simpa [acts, act, append, hfault] using ih (by simpa using hclose) (by simp [hopen])
      | flush =>
        cases hfault : log.fault? <;>
          simpa [acts, act, flush, hfault] using ih (by simpa using hclose) (by simp [hopen])
      | close => simp [acts, act, close, hopen, acts_of_closed]

end Steps

section Sessions

/-- Opening a log leaves what its file holds. -/
theorem sound_of_openAt (h : openAt t p = (t₁, .ok log)) :
    Sound p log t₁ ∧ log.isOpen = true ∧ total log t₁ = t.content log.place := by
  unfold openAt at h
  rcases hprepare : t.prepare p with ⟨t₂, fault | place⟩
  · rw [hprepare] at h
    cases h
  · rw [hprepare] at h
    obtain ⟨hready, -⟩ := Tree.ready_of_prepare hprepare
    obtain ⟨rfl, hlog⟩ := Prod.mk.inj h
    obtain rfl := Except.ok.inj hlog
    have hcontent := Tree.content_of_prepare hprepare
    refine ⟨⟨hready.extend _, by simp [Takes], by simp⟩, rfl, ?_⟩
    simp [total, Tree.content_extend hready.free, hcontent]

/-- Where the file of a path can be written to, its log is opened and nothing else is changed. -/
theorem openAt_of_ready {place : Place} (h : t.Ready p place) :
    openAt t p = (t.extend place .empty, .ok ⟨place, .empty, true, []⟩) := by
  rw [openAt, h.prepare]
  rfl

/-- A session leaves its log closed, and the file longer by the lines of the events that it took. -/
theorem session_grows {as : List Act} (h : Sound p log t) (hopen : log.isOpen = true)
    (hclose : .close ∈ as) :
    (log.acts t as).2.1.Ready p log.place ∧
      (log.acts t as).2.1.content log.place = total log t ++ (text (taken as)).toUTF8 := by
  have hgrows := acts_grow h as
  have hpending := hgrows.sound.pending (acts_closed hclose)
  have htotal := hgrows.total
  rw [total, hpending, hgrows.place, acts_taken hopen h.takes] at htotal
  constructor
  · rw [← hgrows.place]
    exact hgrows.sound.ready
  · simpa using htotal

theorem sessions_of_ready {place : Place} (h : t.Ready p place) (all : List (List Act))
    (hclose : ∀ as ∈ all, .close ∈ as) :
    ∃ t', sessions p all t = (t', .ok (all.flatMap taken)) ∧
      t'.content place = t.content place ++ (text (all.flatMap taken)).toUTF8 := by
  induction all generalizing t with
  | nil => exact ⟨t, rfl, by simp [text]⟩
  | cons as all ih =>
    rw [List.forall_mem_cons] at hclose
    have hopened : Sound p ⟨place, .empty, true, []⟩ (t.extend place .empty) :=
      ⟨h.extend _, by simp [Takes], by simp⟩
    obtain ⟨hready, hcontent⟩ := session_grows hopened rfl hclose.1
    obtain ⟨t', hrun, hlast⟩ := ih hready hclose.2
    refine ⟨t', ?_, ?_⟩
    · rw [sessions, openAt_of_ready h]
      simp [hrun, acts_taken rfl hopened.takes, Except.map]
    · rw [hlast, hcontent, List.flatMap_cons, text_append, toUTF8_append]
      simp [total, Tree.content_extend h.free, ByteArray.append_assoc]

/-- Where the log of a path can be opened, any number of sessions on it go well. The file holds what
it held, followed by one line for each event that was taken, in order. Such a line is its event
written without a line feed, and the event is read off it. -/
theorem content_sessions {t t₁ : Tree} {p : Path} {log : Log} (hopen : openAt t p = (t₁, .ok log))
    (all : List (List Act)) (hclose : ∀ as ∈ all, .close ∈ as) :
    ∃ t' events, sessions p all t = (t', .ok events) ∧ events = all.flatMap taken ∧
      t'.content log.place =
        t.content log.place ++ (String.join (events.map (·.compact ++ "\n"))).toUTF8 ∧
      ∀ event ∈ events, '\n' ∉ event.compact.toList ∧
        (event.Regular → Json.parse event.compact = .ok event) := by
  have hlines : ∀ event ∈ all.flatMap taken, '\n' ∉ event.compact.toList ∧
      (event.Regular → Json.parse event.compact = .ok event) :=
    fun event _ => ⟨Json.newline_not_mem_compact event, Json.parse_compact⟩
  cases all with
  | nil => exact ⟨t, [], rfl, rfl, by simp, by simp⟩
  | cons as all =>
    rw [List.forall_mem_cons] at hclose
    obtain ⟨hsound, hisOpen, htotal⟩ := sound_of_openAt hopen
    obtain ⟨hready, hcontent⟩ := session_grows hsound hisOpen hclose.1
    obtain ⟨t', hrun, hlast⟩ := sessions_of_ready hready all hclose.2
    refine ⟨t', _, ?_, rfl, ?_, hlines⟩
    · rw [sessions, hopen]
      simp [hrun, acts_taken hisOpen hsound.takes, Except.map]
    · show t'.content log.place = t.content log.place ++ (text _).toUTF8
      rw [hlast, hcontent, htotal, List.flatMap_cons, text_append, toUTF8_append,
        ByteArray.append_assoc]

/-- Two sessions on a file whose last line has no end. In the first an event comes after the log is
closed; the strings of the other hold line feeds, a quote and a control character. -/
theorem content_sessions_late :
    let event : Json := .object
      [("a\n\"b", .string "\u2028\x01\n"), ("half", .real (.finite false (2 ^ 52) (-53)))]
    ∃ t', sessions ⟨false, ["log"]⟩
        [[.append event, .flush, .close, .append .null, .close], [.append (.number 7), .close]]
        ⟨[], [(["log"], .file "old".toUTF8)]⟩ = (t', .ok [event, .number 7]) ∧
      t'.content ["log"] = "old".toUTF8 ++ (event.compact ++ "\n7\n").toUTF8 ∧
      '\n' ∉ event.compact.toList ∧ Json.parse event.compact = .ok event := by
  intro event
  have hopen : openAt ⟨[], [(["log"], .file "old".toUTF8)]⟩ ⟨false, ["log"]⟩ =
      (⟨[], [(["log"], .file ("old".toUTF8 ++ .empty))]⟩, .ok ⟨["log"], .empty, true, []⟩) := rfl
  have hregular : event.Regular := by
    have hcanonical : (Binary64.finite false (2 ^ 52) (-53)).IsCanonical := by
      simp [Binary64.IsCanonical, Binary64.leastExponent, Binary64.greatestExponent]
    exact .object (by decide) (List.forall_mem_cons.2
      ⟨.string _, List.forall_mem_cons.2 ⟨.real hcanonical, List.forall_mem_nil _⟩⟩)
  obtain ⟨t', events, hrun, rfl, hcontent, hlines⟩ := content_sessions hopen
    [[.append event, .flush, .close, .append .null, .close], [.append (.number 7), .close]] (by simp)
  obtain ⟨hnewline, hparse⟩ := hlines event (by simp [taken])
  refine ⟨t', hrun, ?_, hnewline, hparse hregular⟩
  rw [hcontent]
  simp [taken]
  rfl

end Sessions

end MathMarkup.Log
