import ScriptCore.Object.Action

/-!
# Functions and native methods

A function is a piece of code with the names it can use. A native method is
written in another language: it has a name, and perhaps a receiver, and can be
called with a tuple of arguments. What it does then is up to the host, the
program that it is a part of.
-/

namespace ScriptCore.Object

/-- What native methods do, given a receiver and a tuple of arguments. -/
abbrev Host : Type :=
  Native → Option Ref → Ref → Action Ref

namespace Action

/-- The code and the names of a function. -/
def function (r : Ref) : Action (Ref × Ref) := do
  let .function code globals ← payload r | throw .badCall
  return (code, globals)

/-- The code of a function. -/
def functionCode (r : Ref) : Action Ref := do
  share (← function r).1

/-- The names that a function can use. -/
def functionGlobals (r : Ref) : Action Ref := do
  share (← function r).2

/-- An attribute of a function. -/
def functionAttribute (r : Ref) (name : String) : Action Ref :=
  if name = "func_code" then functionCode r
  else if name = "func_globals" then functionGlobals r
  else throw (.unknownName name)

/-- The name of a native method, what it does, and its receiver. -/
def method (r : Ref) : Action (String × Native × Option Ref) := do
  let .method name native receiver ← payload r | throw .badCall
  return (name, native, receiver)

/-- Calls a native method. -/
def call (host : Host) (r arguments : Ref) : Action Ref := do
  let (_, native, receiver) ← method r
  host native receiver arguments

/-- Calls a native method without its receiver. -/
def callUnbound (host : Host) (r arguments : Ref) : Action Ref := do
  let (_, native, _) ← method r
  host native none arguments

/-- The native method that a table has under a name, for a receiver. -/
def findNative (table : List (String × Native)) (receiver : Ref) (name : String) : Action Ref := do
  match table.lookup name with
  | some native => alloc (.method name native (some receiver))
  | none => throw (.unknownName name)

end Action

open Action in
/-- A host with four native methods: one answers with its receiver, one with the
    number of its arguments, one with the pair of both, and one refuses. -/
def Host.basic : Host := fun native receiver arguments =>
  let itself : Action Ref := match receiver with
    | some r => share r
    | none => shareNone
  if native.symbol = "echo" then itself
  else if native.symbol = "count" then do
    alloc (.integer (.ofNat (← items arguments).length))
  else if native.symbol = "pair" then do
    let r ← itself
    let pair ← alloc (.tuple [r, arguments])
    release r
    return pair
  else throw .refused

end ScriptCore.Object
