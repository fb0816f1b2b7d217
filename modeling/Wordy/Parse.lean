import Wordy.Program.Read

/-! From a source to a program, or to the first thing that is wrong with it and where. -/

namespace Wordy

def placeOf (source rest : List Char) : Position :=
  (LineTable.ofText source).position (Text.byteLength source - Text.byteLength rest)

def Failure.locate (source : List Char) (failure : Failure) : Diagnostic :=
  ⟨failure.fault, placeOf source failure.rest⟩

def parseWith (book : Phrasebook) (source : String) : Except Diagnostic Program :=
  match (Program.read book).run (.start source.toList) with
  | .ok program _ => .ok program
  | .error failure _ => .error (failure.locate source.toList)

def parse (source : String) : Except Diagnostic Program := parseWith .standard source

section

variable {book : Phrasebook} {source : String} {c : Cursor}

theorem parseWith_of_ok {p : Program} (h : Program.read book (.start source.toList) = .ok p c) :
    parseWith book source = .ok p := by
  simp only [parseWith, EStateM.run, h]

theorem parseWith_of_error {failure : Failure}
    (h : Program.read book (.start source.toList) = .error failure c) :
    parseWith book source = .error (failure.locate source.toList) := by
  simp only [parseWith, EStateM.run, h]

end

end Wordy
