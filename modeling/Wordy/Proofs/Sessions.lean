import Mathlib
import Wordy.Machine
import Wordy.Proofs.Incomplete

/-! Sessions as conversations. The lines that a session reads fall into commands, blank lines and
snippets, one after another, each of which is answered once. -/

namespace Wordy

open Text

/-- The text of a snippet that is typed in lines. -/
def snippet (lines : List String) : String := "\n".intercalate lines

namespace Session

def IsBlank (line : String) : Prop := trim line.toList = []

def IsExit (line : String) : Prop := isExit (trim line.toList) = true

def IsCommand (line : String) : Prop := ¬ IsExit line ∧ (trim line.toList).head? = some '.'

def Begins (line : String) : Prop := ¬ IsExit line ∧ ¬ IsCommand line ∧ ¬ IsBlank line

/-- The lines are incomplete, so that more are waited for. -/
def Waits (lines : List String) : Prop :=
  ∃ d, parse (snippet lines) = .error d ∧ d.isIncomplete (snippet lines) = true

/-- The lines that are read so far of a snippet, or none. -/
structure Gathering (lines : List String) : Prop where
  begins : ∀ line ∈ lines.head?, Begins line
  not_blank : ∀ line ∈ lines.tail, ¬ IsBlank line
  waits : ∀ k, 0 < k → k ≤ lines.length → Waits (lines.take k)

/-- The lines of a whole snippet. -/
structure Finished (lines : List String) : Prop where
  ne_nil : lines ≠ []
  begins : ∀ line ∈ lines.head?, Begins line
  not_blank : ∀ line ∈ lines.tail.dropLast, ¬ IsBlank line
  waits : ∀ k, 0 < k → k < lines.length → Waits (lines.take k)
  ends : (∃ p, parse (snippet lines) = .ok p) ∨
    (∃ d, parse (snippet lines) = .error d ∧ d.isIncomplete (snippet lines) = false) ∨
    ∃ line ∈ lines.tail.getLast?, IsBlank line

end Session

/-- What a command changes in the settings. -/
inductive Directive
  | toggleAst
  | select (target : Target)
deriving DecidableEq, Repr

/-- A command that selects a target has to name one. -/
def Directive.ofCommand? (line : List Char) : Option Directive :=
  if String.ofList (word line) = ".ast" then some toggleAst
  else if String.ofList (word line) = ".target" then
    (Target.ofName? (.ofList (word (afterWord line)))).map select
  else none

def Settings.obey (settings : Settings) : Directive → Settings
  | .toggleAst => { settings with printAst := !settings.printAst }
  | .select target => { settings with target }

/-- What is said in one go. -/
inductive Event
  | blank (line : String)
  | command (line : String)
  | snippet (lines : List String)

namespace Event

def lines : Event → List String
  | blank line => [line]
  | command line => [line]
  | snippet lines => lines

def Valid : Event → Prop
  | blank line => Session.IsBlank line
  | command line => Session.IsCommand line
  | snippet lines => Session.Finished lines

def directive? : Event → Option Directive
  | command line => Directive.ofCommand? (trim line.toList)
  | _ => none

/-- The answer on standard output, and that on standard error. -/
def answer (settings : Settings) : Event → String × String
  | blank _ => ("", "")
  | command line => (((Session.begin settings).command (trim line.toList)).out, "")
  | snippet lines =>
    match settings.compile (Wordy.snippet lines) with
    | .ok c => (c.preamble ++ c.code, "")
    | .error d => ("", (CompileError.invalid d).message ++ "\n")

end Event

/-- The settings after the commands among the events. -/
def Settings.after (settings : Settings) (events : List Event) : Settings :=
  (events.filterMap Event.directive?).foldl Settings.obey settings

/-- The prompts for the lines of one event. -/
def prompts : List String → String
  | [] => ""
  | _ :: later => "> " ++ String.join (later.map fun _ => "... ")

namespace Session

def holding (settings : Settings) (pending : List String) : Session :=
  ⟨settings, snippet pending, !pending.isEmpty⟩

theorem snippet_append_of_ne_nil {pending : List String} (hne : pending ≠ []) (line : String) :
    snippet (pending ++ [line]) = snippet pending ++ "\n" ++ line :=
  String.intercalate_append_of_ne_nil hne (List.cons_ne_nil line [])

/-- What a session that holds some lines does with one more. -/
inductive Step (settings : Settings) (pending : List String) (line : String) : Turn → Prop
  | stop (hp : pending = []) (h : IsExit line) :
      Step settings pending line { out := "Goodbye!\n", next := .stop 0 }
  | answer (e : Event) (hl : e.lines = pending ++ [line]) (hv : e.Valid) :
      Step settings pending line
        { out := (e.answer settings).1
          err := (e.answer settings).2
          next := .session (begin (settings.after [e])) }
  | wait (h : Gathering (pending ++ [line])) :
      Step settings pending line { next := .session (holding settings (pending ++ [line])) }

variable {settings : Settings} {pending : List String} {line : String}

theorem Gathering.nil : Gathering [] := ⟨by simp, by simp, by simp; omega⟩

theorem Gathering.waits_append (h : Gathering pending) {k : Nat} (hk : 0 < k)
    (hlt : k < (pending ++ [line]).length) : Waits ((pending ++ [line]).take k) := by
  have hle : k ≤ pending.length := by
    rw [List.length_append, List.length_singleton] at hlt
    omega
  rw [List.take_append_of_le_length hle]
  exact h.waits k hk hle

theorem Gathering.begins_append (h : Gathering pending) (hb : pending = [] → Begins line) :
    ∀ first ∈ (pending ++ [line]).head?, Begins first := by
  cases pending with
  | nil => simpa using hb
  | cons first later => simpa using h.begins

theorem Gathering.append (h : Gathering pending) (hb : pending = [] → Begins line)
    (hne : pending ≠ [] → ¬ IsBlank line) (hw : Waits (pending ++ [line])) :
    Gathering (pending ++ [line]) where
  begins := h.begins_append hb
  not_blank := by
    cases pending with
    | nil => simp
    | cons first later =>
      intro l hl
      rcases List.mem_append.mp (show l ∈ later ++ [line] from hl) with hl | hl
      · exact h.not_blank l hl
      · rw [List.mem_singleton.mp hl]
        exact hne (List.cons_ne_nil first later)
  waits := by
    intro k hk hle
    by_cases hlt : k < (pending ++ [line]).length
    · exact h.waits_append hk hlt
    · rwa [List.take_of_length_le (Nat.le_of_not_lt hlt)]

theorem Gathering.finish (h : Gathering pending) (hb : pending = [] → Begins line)
    (hends : (∃ p, parse (snippet (pending ++ [line])) = .ok p) ∨
      (∃ d, parse (snippet (pending ++ [line])) = .error d ∧
        d.isIncomplete (snippet (pending ++ [line])) = false) ∨
      pending ≠ [] ∧ IsBlank line) : Finished (pending ++ [line]) where
  ne_nil := by simp
  begins := h.begins_append hb
  not_blank := by
    cases pending with
    | nil => simp
    | cons first later => simpa using h.not_blank
  waits := fun _ hk hlt => h.waits_append hk hlt
  ends := by
    refine hends.imp id (Or.imp id ?_)
    rintro ⟨hne, hblank⟩
    cases pending with
    | nil => exact absurd rfl hne
    | cons first later => exact ⟨line, by simp, hblank⟩

/-- A snippet is answered by what it compiles to, and leaves the settings as they are. -/
theorem Step.snippet (hf : Finished (pending ++ [line])) {turn : Turn}
    (hout : (turn.out, turn.err) = (Event.snippet (pending ++ [line])).answer settings)
    (hnext : turn.next = .session (begin settings)) : Step settings pending line turn := by
  have h : Step settings pending line _ := .answer (.snippet (pending ++ [line])) rfl hf
  rw [← hout] at h
  obtain ⟨out, err, next⟩ := turn
  obtain rfl : next = .session (begin settings) := hnext
  exact h

end Session

/-- How a conversation comes to its end. -/
inductive Ending
  /-- The lines after the exit are not read. -/
  | exit (line : String) (unread : List String)
  | endOfInput (pending : List String)

namespace Ending

def lines : Ending → List String
  | exit line unread => line :: unread
  | endOfInput pending => pending

def unread : Ending → List String
  | exit _ unread => unread
  | endOfInput _ => []

def Valid : Ending → Prop
  | exit line _ => Session.IsExit line
  | endOfInput pending => Session.Gathering pending

/-- A snippet that is not finished gets its prompts, and no answer. -/
def out : Ending → String
  | exit line _ => prompts [line] ++ "Goodbye!\n"
  | endOfInput pending => prompts pending ++ (if pending.isEmpty then "> " else "... ") ++ "\nGoodbye!\n"

end Ending

structure Conversation where
  events : List Event
  ending : Ending

namespace Conversation

def lines (c : Conversation) : List String := c.events.flatMap Event.lines ++ c.ending.lines

structure Valid (c : Conversation) : Prop where
  events : ∀ e ∈ c.events, e.Valid
  ending : c.ending.Valid

/-- The answers to the events in order, each after its prompts and under the settings that the
events before it have left. -/
def answers (settings : Settings) (events : List Event) : List (String × String) :=
  events.mapIdx fun i e =>
    let answer := e.answer (settings.after (events.take i))
    (prompts e.lines ++ answer.1, answer.2)

def out (settings : Settings) (c : Conversation) : String :=
  String.join ((answers settings c.events).map (·.1)) ++ c.ending.out

def err (settings : Settings) (c : Conversation) : String :=
  String.join ((answers settings c.events).map (·.2))

end Conversation

/-- The session after some lines, unless they have ended it. -/
def Session.afterLines? (s : Session) : List String → Option Session
  | [] => some s
  | line :: lines =>
    match (s.enter line).next with
    | .session next => next.afterLines? lines
    | .stop _ => none

/-- What a session that waits for more has kept of the lines so far. -/
structure Session.Keeps (s : Session) (settings : Settings) (lines : List String)
    (events : List Event) (pending : List String) : Prop where
  lines_eq : lines = events.flatMap Event.lines ++ pending
  gathering : Gathering pending
  settings_eq : s.settings = settings.after events
  buffer_eq : s.buffer = snippet pending
  isGathering_eq_false_iff : s.isGathering = false ↔ s.buffer = ""

theorem Settings.after_cons (settings : Settings) (e : Event) (events : List Event) :
    settings.after (e :: events) = (settings.after [e]).after events := by
  cases h : e.directive? <;> simp [after, h]

theorem Conversation.answers_cons (settings : Settings) (e : Event) (events : List Event) :
    answers settings (e :: events) =
      (prompts e.lines ++ (e.answer settings).1, (e.answer settings).2) ::
        answers (settings.after [e]) events := by
  have hafter (i : Nat) : settings.after ((e :: events).take (i + 1)) =
      (settings.after [e]).after (events.take i) := settings.after_cons e (events.take i)
  simp only [answers, List.mapIdx_cons, hafter]
  rfl

namespace Session

/-- No session waits in vain: some line ends the snippet. -/
theorem Gathering.exists_line {pending : List String} (h : Gathering pending) (hne : pending ≠ []) :
    ∃ line p, parse (Wordy.snippet (pending ++ [line])) = .ok p := by
  obtain ⟨d, hd, hi⟩ := h.waits pending.length (List.length_pos_iff.mpr hne) (Nat.le_refl _)
  rw [List.take_length] at hd hi
  obtain ⟨e, s, hread, hplaced, rfl⟩ := placed_of_parseWith Phrasebook.standard_hasNoEmptyPhrase hd
  obtain ⟨line, p, -, hp⟩ :=
    exists_line_of_rest_eq_nil hread hplaced (hplaced.isIncomplete_iff.mp hi)
  exact ⟨line, p, by rwa [snippet_append_of_ne_nil hne]⟩

theorem Gathering.snippet_eq_iff {pending : List String} (h : Gathering pending) :
    Wordy.snippet pending = "" ↔ pending = [] := by
  cases pending with
  | nil => simp [Wordy.snippet]
  | cons first later =>
    have hblank := (h.begins first (by simp)).2.2
    have hne : first ≠ "" := by
      rintro rfl
      exact hblank rfl
    have hsnippet : Wordy.snippet (first :: later) ≠ "" := by
      cases later with
      | nil => simpa [Wordy.snippet] using hne
      | cons second later => simp [Wordy.snippet, String.intercalate_cons_cons]
    simp [hsnippet]

theorem Gathering.keeps {settings : Settings} {pending : List String} (h : Gathering pending) :
    (holding settings pending).Keeps settings pending [] pending where
  lines_eq := rfl
  gathering := h
  settings_eq := rfl
  buffer_eq := rfl
  isGathering_eq_false_iff := by
    simp only [holding, h.snippet_eq_iff]
    simp

theorem Keeps.cons {s : Session} {settings : Settings} {lines pending : List String} {e : Event}
    {events : List Event} (h : s.Keeps (settings.after [e]) lines events pending) :
    s.Keeps settings (e.lines ++ lines) (e :: events) pending where
  lines_eq := by simp [h.lines_eq]
  gathering := h.gathering
  settings_eq := by rw [h.settings_eq, Settings.after_cons settings e events]
  buffer_eq := h.buffer_eq
  isGathering_eq_false_iff := h.isGathering_eq_false_iff

def leave (s : Session) (turn : Turn) (rest : List Input) (m : Machine) : Machine :=
  { m with input := rest, out := m.out ++ s.prompt ++ turn.out, err := m.err ++ turn.err }

theorem run_turn_line {m : Machine} {s : Session} {line : String} {rest : List Input}
    (h : m.input = .line line :: rest) :
    (Command.turn Machine.host s).run m =
      ((s.enter line).next, s.leave (s.enter line) rest m) := by
  obtain ⟨directory, input, out, err⟩ := m
  obtain rfl : input = .line line :: rest := h
  rfl

theorem run_converse_succ (n : Nat) (s : Session) (m : Machine) :
    (Machine.converse (n + 1) (.session s)).run m =
      (Machine.converse n ((Command.turn Machine.host s).run m).1).run
        ((Command.turn Machine.host s).run m).2 :=
  rfl

theorem run_converse_stop (n exit : Nat) (m : Machine) :
    (Machine.converse n (.stop exit)).run m = (exit, m) := by
  cases n <;> rfl

/-- With some lines pending, whose prompts are out already, the machine goes through the rest of a
conversation. -/
structure Converses (settings : Settings) (pending lines : List String) (n : Nat) (before : String)
    (m : Machine) (c : Conversation) : Prop where
  valid : c.Valid
  lines_eq : c.lines = pending ++ lines
  run_eq : (Machine.converse n (.session (holding settings pending))).run m =
    (0, { m with
      input := c.ending.unread.map .line
      out := before ++ c.out settings
      err := m.err ++ c.err settings })
  keeps : ∀ k s, (holding settings pending).afterLines? (lines.take k) = some s →
    ∃ events pending', events <+: c.events ∧
      s.Keeps settings (pending ++ lines.take k) events pending'

theorem afterLines?_cons {s t : Session} {line : String} {lines : List String}
    (h : s.afterLines? (line :: lines) = some t) :
    ∃ next, (s.enter line).next = .session next ∧ next.afterLines? lines = some t := by
  rw [afterLines?] at h
  cases hn : (s.enter line).next with
  | session next =>
    rw [hn] at h
    exact ⟨next, rfl, h⟩
  | stop exit =>
    rw [hn] at h
    cases h

section

variable {settings : Settings} {pending lines : List String} {line : String} {n : Nat} {m : Machine}
  {before : String} {c : Conversation}

theorem Converses.run_succ {settings' : Settings} {pending' : List String}
    (h : Converses settings' pending' lines n before ((holding settings pending).leave
      ((holding settings pending).enter line) (lines.map .line) m) c)
    (hinput : m.input = .line line :: lines.map .line)
    (hnext : ((holding settings pending).enter line).next = .session (holding settings' pending')) :
    (Machine.converse (n + 1) (.session (holding settings pending))).run m =
      (0, { m with
        input := c.ending.unread.map .line
        out := before ++ c.out settings'
        err := m.err ++ ((holding settings pending).enter line).err ++ c.err settings' }) := by
  rw [run_converse_succ, run_turn_line hinput, hnext]
  exact h.run_eq

theorem Converses.answer {e : Event} (hp : Gathering pending) (hl : e.lines = pending ++ [line])
    (hv : e.Valid) (hinput : m.input = .line line :: lines.map .line)
    (hturn : (holding settings pending).enter line =
      { out := (e.answer settings).1
        err := (e.answer settings).2
        next := .session (begin (settings.after [e])) })
    (h : Converses (settings.after [e]) [] lines n
      (before ++ (prompts e.lines ++ (e.answer settings).1)) ((holding settings pending).leave
        ((holding settings pending).enter line) (lines.map .line) m) c) :
    Converses settings pending (line :: lines) (n + 1) before m ⟨e :: c.events, c.ending⟩ where
  valid := ⟨List.forall_mem_cons.mpr ⟨hv, h.valid.events⟩, h.valid.ending⟩
  lines_eq := by
    have hlines : c.events.flatMap Event.lines ++ c.ending.lines = lines := h.lines_eq
    simp [Conversation.lines, hl, hlines]
  run_eq := by
    rw [h.run_succ hinput (by rw [hturn]; rfl), hturn]
    simp [Conversation.out, Conversation.err, Conversation.answers_cons,
      String.append_assoc]
  keeps := by
    intro k s hs
    cases k with
    | zero =>
      obtain rfl := Option.some.inj hs
      exact ⟨[], pending, List.nil_prefix, by simpa using hp.keeps⟩
    | succ k =>
      obtain ⟨next, hnext, hs⟩ := afterLines?_cons hs
      rw [hturn] at hnext
      obtain rfl := Next.session.inj hnext
      obtain ⟨events, pending', hprefix, hkeeps⟩ := h.keeps k s hs
      refine ⟨e :: events, pending', List.prefix_cons_inj e |>.mpr hprefix, ?_⟩
      have hcons := hkeeps.cons
      rwa [hl, List.nil_append, List.append_assoc, List.singleton_append] at hcons

theorem Converses.wait (hp : Gathering pending)
    (hinput : m.input = .line line :: lines.map .line)
    (hturn : (holding settings pending).enter line =
      { next := .session (holding settings (pending ++ [line])) })
    (h : Converses settings (pending ++ [line]) lines n before ((holding settings pending).leave
      ((holding settings pending).enter line) (lines.map .line) m) c) :
    Converses settings pending (line :: lines) (n + 1) before m c where
  valid := h.valid
  lines_eq := by simp [h.lines_eq]
  run_eq := by
    rw [h.run_succ hinput (by rw [hturn]), hturn, String.append_empty]
  keeps := by
    intro k s hs
    cases k with
    | zero =>
      obtain rfl := Option.some.inj hs
      exact ⟨[], pending, List.nil_prefix, by simpa using hp.keeps⟩
    | succ k =>
      obtain ⟨next, hnext, hs⟩ := afterLines?_cons hs
      rw [hturn] at hnext
      obtain rfl := Next.session.inj hnext
      obtain ⟨events, pending', hprefix, hkeeps⟩ := h.keeps k s hs
      exact ⟨events, pending', hprefix, by simpa using hkeeps⟩

end

end Session

end Wordy
