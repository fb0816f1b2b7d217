import Wordy.FileError

/-! A directory that holds files only, and the paths that lead to them. Of what lies around the
directory nothing is known but that there are directories above it. -/

namespace Wordy

structure Directory where
  files : List (String × ByteArray)

namespace Directory

def content? (directory : Directory) (name : String) : Option ByteArray :=
  (directory.files.find? (·.1 == name)).map (·.2)

def put (directory : Directory) (name : String) (content : ByteArray) : Directory :=
  ⟨directory.files.filter (·.1 != name) ++ [(name, content)]⟩

def maxName : Nat := 255

def maxPath : Nat := 4095

/-- The parts of a path: several slashes count as one. -/
def parts (path : String) : List String :=
  ((path.toList.splitOn '/').filter (· ≠ [])).map String.ofList

def endsInSlash (path : String) : Bool := path.toList.getLast? == some '/'

/-- Where a path has led so far. -/
inductive Place
  | inside | around
deriving DecidableEq, Repr

namespace Place

def start (path : String) : Place := if path.toList.head? = some '/' then around else inside

def fileName (place : Place) (name : String) : Except FileError String :=
  if maxName < name.utf8ByteSize then .error .nameTooLong
  else
    match place with
    | inside => .ok name
    | around => .error .notFound

end Place

/-- One step of a path that goes on after it, and so has to lead to a directory. -/
def step (directory : Directory) (place : Place) (part : String) : Except FileError Place := do
  if part = "." then
    return place
  else if part = ".." then
    return .around
  else
    let name ← place.fileName part
    .error (if (directory.content? name).isSome then .notDirectory else .notFound)

/-- The last part of a path, which is to be the name of a file, and the place where it stands. -/
def follow (directory : Directory) : Place → List String → Except FileError (Place × String)
  | _, [] => .error .isDirectory
  | place, [last] => if last = "." || last = ".." then .error .isDirectory else .ok (place, last)
  | place, part :: parts => do directory.follow (← directory.step place part) parts

def resolve (directory : Directory) (path : String) : Except FileError (Place × String) :=
  if path = "" then .error .notFound
  else if maxPath < path.utf8ByteSize then .error .nameTooLong
  else directory.follow (.start path) (parts path)

def read (directory : Directory) (path : String) : Except FileError ByteArray := do
  let (place, last) ← directory.resolve path
  match directory.content? (← place.fileName last) with
  | some content => if endsInSlash path then .error .notDirectory else .ok content
  | none => .error .notFound

/-- A file is replaced as a whole, and made if it is not there. -/
def write (directory : Directory) (path : String) (content : ByteArray) :
    Except FileError Directory := do
  let (place, last) ← directory.resolve path
  if endsInSlash path then
    .error .isDirectory
  else
    return directory.put (← place.fileName last) content

end Directory

end Wordy
