import Wordy.Command

/-! The program itself, on standard input, standard output and the files around it. -/

namespace Wordy.Main

/-- The number of an error of the system, which may be given negated. -/
def errorNumber (code : UInt32) : UInt32 := min code (-code)

def fileError : IO.Error → FileError
  | .noFileOrDirectory .. => .notFound
  | .inappropriateType _ code _ => if errorNumber code = 20 then .notDirectory else .isDirectory
  | .invalidArgument _ code reason =>
    if errorNumber code = 36 then .nameTooLong else .other reason
  | .permissionDenied .. => .other "Permission denied (os error 13)"
  | error => .other (toString error)

/-- The bytes up to and including the next line feed. -/
partial def readLine (stream : IO.FS.Stream) (line : ByteArray) : IO ByteArray := do
  let bytes ← stream.read 1
  if bytes.isEmpty then
    return line
  else if bytes[0]? == some 10 then
    return line ++ bytes
  else
    readLine stream (line ++ bytes)

def host : Host IO where
  readFile path := do
    try
      return .ok (← IO.FS.readBinFile path)
    catch error =>
      return .error (fileError error)
  writeFile path content := do
    try
      IO.FS.writeBinFile path content
      return .ok ()
    catch error =>
      return .error (fileError error)
  readInput := return .ofBytes (← readLine (← IO.getStdin) .empty)
  print text := do
    let out ← IO.getStdout
    out.putStr text
    out.flush
  printError text := do (← IO.getStderr).putStr text

partial def converse : Next → IO Nat
  | .stop exit => return exit
  | .session session => do converse (← Command.turn host session)

end Wordy.Main

def main (arguments : List String) : IO UInt32 := do
  return .ofNat (← Wordy.Main.converse (← Wordy.Command.begin Wordy.Main.host arguments))
