import Wordy.Command

/-! Runs in a directory of files and with an input that is known in advance. -/

namespace Wordy

structure Machine where
  directory : Directory
  input : List Input
  out : String := ""
  err : String := ""

namespace Machine

def host : Host (StateM Machine) where
  readFile path := return (← get).directory.read path
  writeFile path content := do
    match (← get).directory.write path content with
    | .ok directory =>
      modify fun m => { m with directory }
      return .ok ()
    | .error error => return .error error
  readInput := do
    match (← get).input with
    | [] => return .finish
    | input :: rest =>
      modify fun m => { m with input := rest }
      return input
  print text := modify fun m => { m with out := m.out ++ text }
  printError text := modify fun m => { m with err := m.err ++ text }

/-- Every turn but the last uses up an input, so that one turn more than there are inputs is
enough. -/
def converse : Nat → Next → StateM Machine Nat
  | _, .stop exit => return exit
  | 0, .session _ => return 0
  | turns + 1, .session session => do converse turns (← Command.turn host session)

def run (machine : Machine) (arguments : List String) : Nat × Machine :=
  (do converse (machine.input.length + 1) (← Command.begin host arguments)).run machine

end Machine

end Wordy
