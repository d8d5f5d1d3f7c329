import ScriptCore.Bytes

/-!
# The machine

What the program asks of the machine it runs on, in terms of paths and their
contents. The answers come in any monad: a disk gives them as it is at the
time, a `FileTree` as its state.
-/

namespace ScriptCore.CommandLine

/-- An error of the system: its number, and its words. -/
structure SystemError where
  number : Nat
  reason : String
  deriving DecidableEq, Repr

namespace SystemError

/-- There is nothing at a path. -/
def missing : SystemError := ⟨2, "No such file or directory"⟩

/-- What is at a path may not be used. -/
def denied : SystemError := ⟨13, "Permission denied"⟩

/-- A path goes on from a file. -/
def notDirectory : SystemError := ⟨20, "Not a directory"⟩

/-- A directory has no bytes. -/
def isDirectory : SystemError := ⟨21, "Is a directory"⟩

/-- A path has a null character, which would end it. -/
def invalid : SystemError := ⟨22, "Invalid argument"⟩

/-- A name, or a whole path, is longer than any. -/
def nameTooLong : SystemError := ⟨36, "File name too long"⟩

/-- The errors that have a name here. -/
def known : List SystemError :=
  [missing, denied, notDirectory, isDirectory, invalid, nameTooLong]

/-- How an error is shown. -/
def message (e : SystemError) : String :=
  e.reason ++ " (os error " ++ toString e.number ++ ")"

/-- The word for an error. -/
def kind (e : SystemError) : String :=
  match e.number with
  | 2 => "NotFound"
  | 13 => "PermissionDenied"
  | 20 => "NotADirectory"
  | 21 => "IsADirectory"
  | 22 => "InvalidInput"
  | 36 => "InvalidFilename"
  | _ => "Uncategorized"

/-- How an error is shown in full. -/
def details (e : SystemError) : String :=
  "Os \x7b code: " ++ toString e.number ++ ", kind: " ++ e.kind ++ ", message: \"" ++
    e.reason ++ "\" \x7d"

end SystemError

/-- What a path leads to. -/
inductive Node
  | file (contents : Bytes)
  | directory
  deriving DecidableEq, Repr

/-- The bytes of a file. -/
def Node.read : Node → Except SystemError Bytes
  | file contents => .ok contents
  | directory => .error .isDirectory

/-- A machine. -/
structure Machine (m : Type → Type) where
  /-- What a path leads to, from the working directory. -/
  look : String → m (Except SystemError Node)
  /-- Opens a file that is written at its end. The file is made if need be, and so
      are the directories on the way to it. -/
  openFile : String → m (Except SystemError Unit)
  /-- The number of directories above the working directory. -/
  depth : m Nat
  /-- The date of the day: the year in four digits, the month and the day in two,
      with dashes between. -/
  date : m String
  /-- The bytes of the standard input. -/
  input : m Bytes
  /-- Whether the standard input is typed in. -/
  isTyped : m Bool

end ScriptCore.CommandLine
