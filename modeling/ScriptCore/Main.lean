import ScriptCore.CommandLine
import Std.Time.Format

/-!
# The program

The outer layer: the disk and the standard streams as a machine, and a run on
it.
-/

namespace ScriptCore.CommandLine

/-- The error of a number, which may come with its sign changed. The words that
    came with it stand only if it is none of those known. -/
def SystemError.ofNumber (number : UInt32) (reason : String) : SystemError :=
  let number := (if number < 0x80000000 then number else -number).toNat
  (known.find? (·.number = number)).getD ⟨number, reason⟩

/-- An error of the disk in the program's terms. -/
def SystemError.ofDisk : IO.Error → SystemError
  | .noFileOrDirectory .. => missing
  | .permissionDenied _ number reason
  | .inappropriateType _ number reason
  | .invalidArgument _ number reason
  | .alreadyExists _ number reason
  | .resourceExhausted _ number reason => .ofNumber number reason
  | e => ⟨5, toString e⟩

/-- What a path leads to on the disk. -/
def lookOnDisk (path : String) : IO (Except SystemError Node) := do
  try
    return .ok (.file (← IO.FS.readBinFile path).toList)
  catch e =>
    let e := SystemError.ofDisk e
    return if e.number = SystemError.isDirectory.number then .ok .directory else .error e

/-- Opens a file on the disk that is written at its end. -/
def openOnDisk (path : String) : IO (Except SystemError Unit) := do
  try
    if let some parent := ((← IO.currentDir) / path).parent then IO.FS.createDirAll parent
    let _ ← IO.FS.Handle.mk path .append
    return .ok ()
  catch e => return .error (.ofDisk e)

/-- The date of the clock, in universal time. -/
def dateOfClock : IO String := do
  let day := (← Std.Time.Timestamp.now).toDaysSinceUnixEpoch
  return (Std.Time.PlainDate.ofEpochDay day).toSQLDateString

/-- The number of directories above the working directory. -/
def depthOnDisk : IO Nat :=
  return (← IO.currentDir).components.length - 1

/-- What is left of the standard input, after what was read of it. -/
partial def readInput (stdin : IO.FS.Stream) (done : ByteArray) : IO Bytes := do
  let chunk ← stdin.read 65536
  if chunk.isEmpty then return done.toList else readInput stdin (done ++ chunk)

/-- The machine that the program runs on. -/
def disk : Machine IO where
  look := lookOnDisk
  openFile := openOnDisk
  depth := depthOnDisk
  date := dateOfClock
  input := do readInput (← IO.getStdin) .empty
  isTyped := do (← IO.getStdin).isTty

end ScriptCore.CommandLine

/-- Runs the program with its arguments. -/
def main (args : List String) : IO UInt32 := do
  let outcome ← ScriptCore.CommandLine.run ScriptCore.Toml.read? ScriptCore.CommandLine.disk args
  IO.eprint outcome.messages
  IO.print outcome.output
  return outcome.code.toUInt32
