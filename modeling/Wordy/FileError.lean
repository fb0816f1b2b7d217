/-! Why a file could not be read or written. -/

namespace Wordy

inductive FileError
  | notFound
  | notDirectory
  | isDirectory
  | nameTooLong
  | notText
  | other (reason : String)
deriving DecidableEq, Repr

namespace FileError

def message : FileError → String
  | notFound => "No such file or directory (os error 2)"
  | notDirectory => "Not a directory (os error 20)"
  | isDirectory => "Is a directory (os error 21)"
  | nameTooLong => "File name too long (os error 36)"
  | notText => "stream did not contain valid UTF-8"
  | other reason => reason

/-- The text of a file. A byte order mark is part of it. -/
def decode (content : Except FileError ByteArray) : Except FileError String := do
  match String.fromUTF8? (← content) with
  | some text => .ok text
  | none => .error notText

end FileError

end Wordy
