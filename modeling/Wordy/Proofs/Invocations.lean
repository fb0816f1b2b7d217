import Mathlib
import Wordy.Invocation

/-! The arguments that an invocation is read from. Every setting can be given with its value behind
an equals sign, whatever the value is, so that there are arguments for every invocation. -/

namespace Wordy

namespace Setting

def name : Setting → String
  | file => "file"
  | code => "eval"
  | output => "output"
  | target => "target"

def argument (setting : Setting) (value : String) : String := "--" ++ setting.name ++ "=" ++ value

end Setting

namespace Flag

def name : Flag → String
  | repl => "repl"
  | printAst => "print-ast"
  | verbose => "verbose"

def argument (flag : Flag) : String := "--" ++ flag.name

end Flag

namespace Invocation.Progress

variable {p : Progress} {setting : Setting} {flag : Flag} {value : String} {rest : List String}

theorem readArgument_setting (p : Progress) (setting : Setting) (value : String) :
    p.readArgument (setting.argument value) = p.receive setting (some value) := by
  have hlist : (setting.argument value).toList =
      '-' :: '-' :: (setting.name.toList ++ '=' :: value.toList) := by
    simp [Setting.argument]
  have hname : Switch.ofName? setting.name = some (.setting setting) := by cases setting <;> rfl
  have hfree : ∀ c ∈ setting.name.toList, (c != '=') = true := by
    cases setting <;> simp [Setting.name]
  have htake : (setting.name.toList ++ '=' :: value.toList).takeWhile (· != '=') =
      setting.name.toList := by
    rw [List.takeWhile_append_of_pos hfree]
    simp
  have hdrop : (setting.name.toList ++ '=' :: value.toList).dropWhile (· != '=') =
      '=' :: value.toList := by
    rw [List.dropWhile_append_of_pos hfree]
    simp
  have hread : p.readName (setting.name.toList ++ '=' :: value.toList) =
      p.receive setting (some value) := by
    rw [readName, htake, hdrop, String.ofList_toList, hname]
    simp only [String.ofList_toList]
  rw [readArgument, hlist]
  exact hread

theorem readArgument_flag (p : Progress) (flag : Flag) :
    p.readArgument flag.argument = p.raise flag := by
  cases flag <;> rfl

theorem argument_ne_dashes (setting : Setting) (value : String) :
    setting.argument value ≠ "--" := by
  intro h
  have hlist := congrArg String.toList h
  cases setting <;> simp [Setting.argument, Setting.name] at hlist

def plain (invocation : Invocation) (given : List Switch) : Progress := ⟨invocation, given, none⟩

variable {invocation next : Invocation} {given : List Switch}

theorem readAll_setting (hgiven : .setting setting ∉ given)
    (hset : invocation.set value setting = .ok next) :
    (plain invocation given).readAll (setting.argument value :: rest) =
      (plain next (.setting setting :: given)).readAll rest := by
  have hread : (plain invocation given).readArgument (setting.argument value) =
      .ok (plain next (.setting setting :: given)) := by
    rw [readArgument_setting]
    simp [receive, settle, plain, assign, mark, hgiven, hset, bind, Except.bind, pure, Except.pure]
  rw [readAll, if_neg (argument_ne_dashes setting value), hread]
  rfl

theorem readAll_flag (hgiven : .flag flag ∉ given) :
    (plain invocation given).readAll (flag.argument :: rest) =
      (plain (invocation.raise flag) (.flag flag :: given)).readAll rest := by
  have hread : (plain invocation given).readArgument flag.argument =
      .ok (plain (invocation.raise flag) (.flag flag :: given)) := by
    rw [readArgument_flag]
    simp [raise, settle, plain, mark, hgiven, bind, Except.bind, pure, Except.pure]
  have hne : flag.argument ≠ "--" := by cases flag <;> decide
  rw [readAll, if_neg hne, hread]
  rfl

theorem readAll_settings {values : Option String} (next : Invocation)
    (hgiven : .setting setting ∉ given) (hsome : ∀ v ∈ values, invocation.set v setting = .ok next)
    (hnone : values = none → next = invocation) :
    (plain invocation given).readAll ((values.map setting.argument).toList ++ rest) =
      (plain next ((values.map fun _ => .setting setting).toList ++ given)).readAll rest := by
  cases values with
  | none => rw [hnone rfl]; rfl
  | some v => exact readAll_setting hgiven (hsome v rfl)

theorem readAll_flags (hgiven : .flag flag ∉ given) (isRaised : Bool) :
    (plain invocation given).readAll ((if isRaised then [flag.argument] else []) ++ rest) =
      (plain (if isRaised then invocation.raise flag else invocation)
        ((if isRaised then [.flag flag] else []) ++ given)).readAll rest := by
  cases isRaised with
  | false => rfl
  | true => exact readAll_flag hgiven

end Invocation.Progress

namespace Invocation

/-- The arguments that say just this. -/
def arguments (i : Invocation) : List String :=
  (i.file.map (Setting.argument .file)).toList ++ ((i.code.map (Setting.argument .code)).toList ++
    ((i.output.map (Setting.argument .output)).toList ++ Setting.argument .target i.target.name ::
      ((if i.repl then [Flag.argument .repl] else []) ++
        ((if i.printAst then [Flag.argument .printAst] else []) ++
          ((if i.verbose then [Flag.argument .verbose] else []) ++ [])))))

theorem ofArguments_arguments (i : Invocation) : ofArguments i.arguments = .ok i := by
  obtain ⟨file, code, output, target, repl, printAst, verbose⟩ := i
  have hnamed : Target.named? target.name = some target := by cases target <;> decide
  have htarget (i : Invocation) : i.set target.name .target = .ok { i with target } := by
    simp only [set, hnamed]
  have hfile : ∀ v ∈ file, ({} : Invocation).set v .file = .ok { file } := by
    rintro v rfl
    rfl
  have hcode : ∀ v ∈ code, { file : Invocation }.set v .code = .ok { file, code } := by
    rintro v rfl
    rfl
  have houtput : ∀ v ∈ output,
      { file, code : Invocation }.set v .output = .ok { file, code, output } := by
    rintro v rfl
    rfl
  change ((Progress.plain {} []).readAll (arguments ⟨_, _, _, _, _, _, _⟩)).map _ = _
  rw [arguments, Progress.readAll_settings _ (by simp) hfile (by rintro rfl; rfl),
    Progress.readAll_settings _ (by simp) hcode (by rintro rfl; rfl),
    Progress.readAll_settings _ (by simp) houtput (by rintro rfl; rfl),
    Progress.readAll_setting (by simp) (htarget _), Progress.readAll_flags (by simp),
    Progress.readAll_flags (by simp), Progress.readAll_flags (by simp)]
  cases repl <;> cases printAst <;> cases verbose <;> rfl

end Invocation

end Wordy
