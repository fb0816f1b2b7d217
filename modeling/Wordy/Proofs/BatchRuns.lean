import Mathlib
import Wordy.Proofs.Invocations
import Wordy.Proofs.Sessions

/-! Runs on a file or on code that is given with the arguments. Nothing is written before the whole
source is read and parsed, and the output file is written at once or not at all. -/

namespace Wordy

def Invocation.settings (invocation : Invocation) : Settings :=
  ⟨invocation.target, invocation.printAst⟩

namespace Directory

variable {before after : Directory} {path name : String} {content : ByteArray}

/-- The path leads to one file, which holds the content afterwards, and all others are as before. -/
structure Replaced (before after : Directory) (path : String) (content : ByteArray) : Prop where
  read_eq : after.read path = .ok content
  exists_name : ∃ name, before.resolve path = .ok (.inside, name) ∧
    after.content? name = some content ∧
    ∀ other, other ≠ name → after.content? other = before.content? other

theorem content?_put (directory : Directory) (name : String) (content : ByteArray) :
    (directory.put name content).content? name = some content := by
  have hnone : (directory.files.filter (·.1 != name)).find? (·.1 == name) = none := by
    simp
  rw [content?, put, List.find?_append, hnone]
  simp

theorem content?_put_of_ne {other : String} (h : other ≠ name) :
    (before.put name content).content? other = before.content? other := by
  have hfind : (before.files.filter (·.1 != name)).find? (·.1 == other) =
      before.files.find? (·.1 == other) := by
    rw [List.find?_filter]
    congr 1
    funext file
    by_cases hf : file.1 = other
    · simp [hf, h]
    · simp [hf]
  have hlast : [(name, content)].find? (·.1 == other) = none := by simp [Ne.symm h]
  rw [content?, put, List.find?_append, hfind, hlast, Option.or_none, content?]

theorem fileName_eq_ok {place : Place} {last : String} (h : place.fileName last = .ok name) :
    place = .inside ∧ name = last := by
  unfold Place.fileName at h
  split_ifs at h
  cases place with
  | inside => exact ⟨rfl, (Except.ok.inj h).symm⟩
  | around => cases h

theorem step_eq_ok_iff {place next : Place} {part : String} :
    before.step place part = .ok next ↔
      part = "." ∧ place = next ∨ part ≠ "." ∧ part = ".." ∧ .around = next := by
  unfold step
  split_ifs with hdot hdots
  · simp [hdot, pure, Except.pure]
  · simp [hdots, pure, Except.pure]
  · cases hname : place.fileName part <;> simp [hdot, hdots, bind, Except.bind]

/-- Where a path leads does not depend on the files that are there. -/
theorem follow_eq_ok {place : Place} {parts : List String} {found : Place × String}
    (h : before.follow place parts = .ok found) : after.follow place parts = .ok found := by
  induction parts generalizing place with
  | nil => cases h
  | cons part parts ih =>
    cases parts with
    | nil => exact h
    | cons next parts =>
      simp only [follow] at h ⊢
      cases hstep : before.step place part with
      | error error => rw [hstep] at h; cases h
      | ok middle =>
        rw [hstep] at h
        rw [step_eq_ok_iff.mpr (step_eq_ok_iff.mp hstep)]
        exact ih h

theorem resolve_eq_ok {found : Place × String} (h : before.resolve path = .ok found) :
    after.resolve path = .ok found := by
  unfold resolve at h ⊢
  split_ifs at h ⊢
  exact follow_eq_ok h

theorem write_eq_ok (h : before.write path content = .ok after) :
    ∃ name, before.resolve path = .ok (.inside, name) ∧ Place.inside.fileName name = .ok name ∧
      endsInSlash path = false ∧ after = before.put name content := by
  unfold write at h
  cases hresolve : before.resolve path with
  | error error => rw [hresolve] at h; cases h
  | ok found =>
    obtain ⟨place, last⟩ := found
    rw [hresolve] at h
    change (if endsInSlash path = true then _ else _) = _ at h
    split_ifs at h with hslash
    cases hname : place.fileName last with
    | error error => rw [hname] at h; cases h
    | ok name =>
      obtain ⟨rfl, rfl⟩ := fileName_eq_ok hname
      rw [hname] at h
      exact ⟨name, rfl, hname, by simpa using hslash, (Except.ok.inj h).symm⟩

theorem replaced_of_write (h : before.write path content = .ok after) :
    Replaced before after path content := by
  obtain ⟨name, hresolve, hname, hslash, rfl⟩ := write_eq_ok h
  refine ⟨?_, name, hresolve, content?_put before name content, fun _ hne => ?_⟩
  · have hafter : (before.put name content).resolve path = .ok (.inside, name) :=
      resolve_eq_ok hresolve
    rw [read, hafter]
    simp [bind, Except.bind, hname, content?_put, hslash]
  · exact content?_put_of_ne hne

end Directory

namespace Host

/-- The files of a machine may be out of reach for any reason, but what is read is what is there, a
file is written as a whole or not at all, and printing only prints. -/
structure Atomic (host : Host (StateM Machine)) : Prop where
  run_readFile (path : String) (m : Machine) :
    (host.readFile path).run m = (m.directory.read path, m) ∨
      ∃ error, (host.readFile path).run m = (.error error, m)
  run_writeFile (path : String) (content : ByteArray) (m : Machine) :
    (∃ error, (host.writeFile path content).run m = (.error error, m)) ∨
      ∃ directory, m.directory.Replaced directory path content ∧
        (host.writeFile path content).run m = (.ok (), { m with directory })
  run_print (text : String) (m : Machine) :
    (host.print text).run m = ((), { m with out := m.out ++ text })
  run_printError (text : String) (m : Machine) :
    (host.printError text).run m = ((), { m with err := m.err ++ text })

/-- The text that a run compiles: that of its file, or else its code. A session has none. -/
def source? (host : Host (StateM Machine)) (invocation : Invocation) (machine : Machine) :
    Option (Except FileError String) :=
  match invocation.file, invocation.code with
  | some path, _ => some (FileError.decode ((host.readFile path).run machine).1)
  | none, some code => some (.ok code)
  | none, none => none

/-- What the machine is like after code has been handed out, to a file if there is an output. -/
def Delivered (host : Host (StateM Machine)) (output : Option String) (preamble code : String)
    (before : Machine) (exit : Nat) (after : Machine) : Prop :=
  match output with
  | none =>
    exit = 0 ∧ after.out = before.out ++ preamble ++ code ∧ after.directory = before.directory
  | some path =>
    after.out = before.out ++ preamble ∧
      match ((host.writeFile path code.toUTF8).run
        { before with out := before.out ++ preamble }).1 with
      | .error _ => exit = 1 ∧ after.directory = before.directory
      | .ok () => exit = 0 ∧ before.directory.Replaced after.directory path code.toUTF8

/-- What a run on a source comes to. If the source cannot be read or parsed, nothing is printed or
written; otherwise the code is what the source compiles to, whether or not the program is printed
before it. -/
structure AllOrNothing (host : Host (StateM Machine)) (invocation : Invocation)
    (source : Except FileError String) (before : Machine) (exit : Nat) (after : Machine) : Prop where
  nothing : (∀ text program, source = .ok text → parse text ≠ .ok program) →
    exit = 1 ∧ after.out = before.out ∧ after.directory = before.directory
  all : ∀ text program, source = .ok text → parse text = .ok program →
    ∃ code, compile text invocation.target = .ok code ∧
      host.Delivered invocation.output
        (if invocation.printAst then program.dump.text ++ "\n" else "") code before exit after

end Host

theorem Machine.host_atomic : Machine.host.Atomic where
  run_readFile _ _ := .inl rfl
  run_writeFile path content m := by
    cases hwrite : m.directory.write path content with
    | error error =>
      refine .inl ⟨error, ?_⟩
      simp only [host, StateT.run_bind, StateT.run_get, pure_bind, hwrite]
      rfl
    | ok directory =>
      refine .inr ⟨directory, Directory.replaced_of_write hwrite, ?_⟩
      simp only [host, StateT.run_bind, StateT.run_get, pure_bind, hwrite]
      rfl
  run_print _ _ := rfl
  run_printError _ _ := rfl

namespace Command

variable {host : Host (StateM Machine)} {output : Option String} {m machine after : Machine}
  {invocation : Invocation} {arguments : List String}

theorem run_bind {α β : Type} {first : StateM Machine α} {value : α} (next : α → StateM Machine β)
    (h : first.run m = (value, after)) : (first >>= next).run m = (next value).run after := by
  rw [StateT.run_bind, h]
  rfl

theorem exists_run_emit (hhost : host.Atomic) (output : Option String) (c : Compilation)
    (m : Machine) :
    ∃ exit after, (emit host output c).run m = (exit, after) ∧
      host.Delivered output c.preamble c.code m exit after := by
  unfold emit
  rw [run_bind _ (hhost.run_print c.preamble m)]
  cases output with
  | none =>
    refine ⟨0, { m with out := m.out ++ c.preamble ++ c.code }, ?_, rfl, rfl, rfl⟩
    rw [run_bind _ (hhost.run_print c.code _)]
    rfl
  | some path =>
    obtain ⟨error, hwrite⟩ | ⟨directory, hreplaced, hwrite⟩ :=
      hhost.run_writeFile path c.code.toUTF8 { m with out := m.out ++ c.preamble }
    · refine ⟨1, { m with
        out := m.out ++ c.preamble
        err := m.err ++ fileReport "write" path error }, ?_, ?_⟩
      · rw [run_bind _ hwrite]
        exact run_bind _ (hhost.run_printError _ _)
      · rw [Host.Delivered, hwrite]
        exact ⟨rfl, rfl, rfl⟩
    · refine ⟨0, _, run_bind _ hwrite, ?_⟩
      rw [Host.Delivered, hwrite]
      exact ⟨rfl, rfl, hreplaced⟩

theorem preamble_compilation (settings : Settings) (program : Program) :
    (settings.compilation program).preamble =
      if settings.printAst then program.dump.text ++ "\n" else "" := by
  obtain ⟨target, printAst⟩ := settings
  cases printAst <;> rfl

theorem run_finish_error (hhost : host.Atomic) (output : Option String) (error : CompileError)
    (m : Machine) : (finish host output (.error error)).run m =
      (1, { m with err := m.err ++ (error.message ++ "\n") }) :=
  run_bind _ (hhost.run_printError _ _)

/-- Reading a file changes nothing, and decides what a run with that file compiles. -/
theorem exists_run_readFile (hhost : host.Atomic) (machine : Machine) {path : String}
    (hfile : invocation.file = some path) :
    ∃ content, host.source? invocation machine = some (FileError.decode content) ∧
      (start host invocation).run machine = StateT.run (
        match invocation.settings.compileFile content with
        | .error (.unreadable error) => do
          host.printError (fileReport "read" path error)
          return .stop 1
        | result => return .stop (← finish host invocation.output result)) machine := by
  obtain ⟨content, hread⟩ : ∃ content, (host.readFile path).run machine = (content, machine) := by
    obtain hread | ⟨error, hread⟩ := hhost.run_readFile path machine
    · exact ⟨_, hread⟩
    · exact ⟨_, hread⟩
  obtain ⟨file, code, output, target, repl, printAst, verbose⟩ := invocation
  obtain rfl : file = some path := hfile
  refine ⟨content, ?_, run_bind _ hread⟩
  simp only [Host.source?, hread]

theorem run_start_ok (hhost : host.Atomic) {text : String} {exit : Nat}
    {result : Except Diagnostic Compilation}
    (hsource : host.source? invocation machine = some (.ok text))
    (hcompile : invocation.settings.compile text = result)
    (hfinish : (finish host invocation.output (result.mapError .invalid)).run machine =
      (exit, after)) :
    (start host invocation).run machine = (.stop exit, after) := by
  cases hfile : invocation.file with
  | some path =>
    obtain ⟨content, hcontent, hstart⟩ := exists_run_readFile hhost machine hfile
    have htext : FileError.decode content = .ok text := by simpa [hcontent] using hsource
    rw [hstart, Settings.compileFile, htext]
    simp only [hcompile]
    cases result with
    | ok c => exact run_bind _ hfinish
    | error diagnostic => exact run_bind _ hfinish
  | none =>
    obtain ⟨file, code, output, target, repl, printAst, verbose⟩ := invocation
    obtain rfl : file = none := hfile
    cases code with
    | some code =>
      obtain rfl : code = text := by simpa [Host.source?] using hsource
      rw [← hcompile] at hfinish
      exact run_bind _ hfinish
    | none => cases hsource

theorem run_start_error (hhost : host.Atomic) {error : FileError}
    (hsource : host.source? invocation machine = some (.error error)) :
    ∃ report, (start host invocation).run machine =
      (.stop 1, { machine with err := machine.err ++ report }) := by
  cases hfile : invocation.file with
  | some path =>
    obtain ⟨content, hcontent, hstart⟩ := exists_run_readFile hhost machine hfile
    have herror : FileError.decode content = .error error := by simpa [hcontent] using hsource
    rw [hstart, Settings.compileFile, herror]
    exact ⟨_, run_bind _ (hhost.run_printError _ _)⟩
  | none =>
    obtain ⟨file, code, output, target, repl, printAst, verbose⟩ := invocation
    obtain rfl : file = none := hfile
    cases code <;> cases hsource

theorem run_begin (harguments : Invocation.ofArguments arguments = .ok invocation) :
    (begin host arguments).run machine = (start host invocation).run machine := by
  unfold begin
  rw [harguments]

theorem exists_run_start (hhost : host.Atomic) {source : Except FileError String}
    (hsource : host.source? invocation machine = some source) :
    ∃ exit after, (start host invocation).run machine = (.stop exit, after) ∧
      host.AllOrNothing invocation source machine exit after := by
  -- The source is not read, or not parsed, or the code that it compiles to is handed out.
  cases source with
  | error error =>
    obtain ⟨report, hrun⟩ := run_start_error hhost hsource
    exact ⟨1, _, hrun, fun _ => ⟨rfl, rfl, rfl⟩, fun _ _ htext => nomatch htext⟩
  | ok text =>
    cases hparse : parse text with
    | error diagnostic =>
      have hcompile : invocation.settings.compile text = .error diagnostic := by
        rw [Settings.compile, hparse]
        rfl
      refine ⟨1, _, run_start_ok hhost hsource hcompile (run_finish_error hhost _ _ machine),
        fun _ => ⟨rfl, rfl, rfl⟩, ?_⟩
      intro text program htext hprogram
      obtain rfl := Except.ok.inj htext
      rw [hparse] at hprogram
      cases hprogram
    | ok program =>
      have hcompile : invocation.settings.compile text =
          .ok (invocation.settings.compilation program) := by
        rw [Settings.compile, hparse]
        rfl
      obtain ⟨exit, after, hemit, hdelivered⟩ :=
        exists_run_emit hhost invocation.output (invocation.settings.compilation program) machine
      refine ⟨exit, after, run_start_ok hhost hsource hcompile hemit, ?_, ?_⟩
      · intro hnone
        exact absurd hparse (hnone text program rfl)
      · intro text program htext hprogram
        obtain rfl := Except.ok.inj htext
        obtain rfl := Except.ok.inj (hparse.symm.trans hprogram)
        refine ⟨invocation.target.render program, by rw [compile, hparse]; rfl, ?_⟩
        rw [preamble_compilation] at hdelivered
        exact hdelivered

/-- A run on a file or on code is all or nothing, and there are arguments for every such run. -/
theorem begin_all_or_nothing (hhost : host.Atomic) {source : Except FileError String}
    (hsource : host.source? invocation machine = some source) :
    (∃ arguments, Invocation.ofArguments arguments = .ok invocation) ∧
    ∀ arguments, Invocation.ofArguments arguments = .ok invocation →
      ∃ exit after, (begin host arguments).run machine = (.stop exit, after) ∧
        (host = Machine.host → machine.run arguments = (exit, after)) ∧
        host.AllOrNothing invocation source machine exit after := by
  refine ⟨⟨_, Invocation.ofArguments_arguments invocation⟩, fun arguments harguments => ?_⟩
  obtain ⟨exit, after, hstart, hall⟩ := exists_run_start hhost hsource
  have hrun : (begin host arguments).run machine = (.stop exit, after) := by
    rw [run_begin harguments, hstart]
  refine ⟨exit, after, hrun, ?_, hall⟩
  rintro rfl
  exact (run_bind _ hrun).trans (Session.run_converse_stop _ exit after)

/-- A run that writes its output over its own source. -/
theorem begin_all_or_nothing_own_source :
    let machine : Machine := { directory := ⟨[("a", "print 1".toUTF8)]⟩, input := [] }
    let invocation : Invocation := { file := some "a", output := some "a", printAst := true }
    Machine.host.Atomic ∧ Machine.host.source? invocation machine = some (.ok "print 1") ∧
      ∃ after, machine.run ["-f", "a", "--print-ast", "-o=a"] = (0, after) ∧
        after.directory.read "a" = .ok "VM.print(1);\n".toUTF8 := by
  intro machine invocation
  have hsource : Machine.host.source? invocation machine = some (.ok "print 1") := by
    decide +kernel
  have hparse : parse "print 1" = .ok ⟨[.statement (.print (.atom (.number "1")))]⟩ := by
    decide +kernel
  obtain ⟨exit, after, -, hrun, hall⟩ :=
    (begin_all_or_nothing Machine.host_atomic hsource).2 ["-f", "a", "--print-ast", "-o=a"]
      (by decide +kernel)
  obtain ⟨code, hcode, -, hwritten⟩ := hall.all _ _ rfl hparse
  have hcompile : compile "print 1" .javascript = .ok "VM.print(1);\n" := by decide +kernel
  obtain rfl := Except.ok.inj (hcode.symm.trans hcompile)
  obtain ⟨rfl, hreplaced⟩ := hwritten
  exact ⟨Machine.host_atomic, hsource, after, hrun rfl, hreplaced.read_eq⟩

end Command

end Wordy
