import ScriptCore.Object.Method
import ScriptCore.Quoted
import ScriptCore.Utf8

/-!
# Showing objects

Objects are shown as they would be written in a program, where that is
possible: strings are quoted, tuples and dictionaries show what they hold.
Objects can be printed, too; then a string may come without quotes.

A tuple or a dictionary is shown item by item, and the text of each item is
made as a string object of its own, which is released at once.
-/

namespace ScriptCore.Object

/-- Whether a string is printed with quotes or without. -/
inductive PrintMode
  | normal
  | raw
  deriving DecidableEq, Repr

/-- The characters of a type's name that are shown. -/
def shownLength : Nat := 80

/-- How the object of a type is shown, given the type's name. -/
def typeText (name : String) : Bytes :=
  .ofString ("<type '" ++ name ++ "'>")

/-- The texts of items, with commas in between. -/
def joinItems (parts : List Bytes) : Bytes :=
  (Bytes.ofString ", ").intercalate parts

/-- The text of a tuple, given the texts of its items. -/
def tupleText (parts : List Bytes) : Bytes :=
  let close := if parts.length = 1 then ",)" else ")"
  Bytes.ofString "(" ++ joinItems parts ++ Bytes.ofString close

/-- The text of a dictionary, given the texts of its values. -/
def dictText (names : List String) (parts : List Bytes) : Bytes :=
  Bytes.ofString "\x7b" ++
    joinItems (List.zipWith (fun k v => Quoted.quote (.ofString k) ++ Bytes.ofString ": " ++ v)
      names parts) ++
    Bytes.ofString "\x7d"

/-- The text of a native method, given the type of its receiver. -/
def methodText (name : String) : Option ObjectType → Bytes
  | none => .ofString ("<built-in function '" ++ name ++ "'>")
  | some t => .ofString ("<built-in method '" ++ name ++ "' of some " ++ t.name ++ " object>")

namespace Action

/-- The text of a native method. -/
def nativeText (r : Ref) : Action Bytes := do
  match ← method r with
  | (name, _, none) => return methodText name none
  | (name, _, some receiver) => return methodText name (some (← typeOf receiver))

/-- The text of an object, by at most `n` nested steps. -/
def textTo : Nat → Ref → Action Bytes
  | 0, _ => throw .endless
  | n + 1, r => do
    let item (r : Ref) : Action Bytes := do
      let s ← alloc (.string (← textTo n r))
      let text ← bytes s
      release s
      return text
    match ← typeOf r with
    | .type => return typeText (String.ofList ((← typeObject r).name.toList.take shownLength))
    | .none => return .ofString "None"
    | .integer => return .ofString (toString (← integer r).toInt)
    | .string => return Quoted.quote (← bytes r)
    | .tuple => return tupleText (← (← items r).mapM item)
    | .dict =>
      let entries ← entries r
      return dictText entries.names (← entries.values.mapM item)
    | .method => nativeText r
    | t => throw (.unsupported .repr t)

/-- The text of an object. -/
def text (r : Ref) : Action Bytes := do
  textTo (← get).depth r

/-- The string that shows an object. -/
def repr (r : Ref) : Action Ref := do
  alloc (.string (← text r))

/-- The text that is printed for an object. -/
def printed (mode : PrintMode) (r : Ref) : Action Bytes := do
  match ← typeOf r with
  | .type => return typeText (← typeObject r).name
  | .none => return .ofString "None"
  | .integer => return .ofString (toString (← integer r).toInt)
  | .string =>
    let bs ← bytes r
    match mode with
    | .normal => return Quoted.quote bs
    | .raw => return bs
  | .tuple | .dict | .method => text r
  | t => throw (.unsupported .print t)

end Action

/-- What came of printing: the bytes that were written, and the error. -/
structure Printed where
  written : Bytes
  error : Option Error
  deriving DecidableEq, Repr

/-- Writes bytes to a writer that takes no more than a limit. -/
def Printed.write (limit : Option Nat) (bs : Bytes) : Printed :=
  match limit with
  | none => ⟨bs, none⟩
  | some n =>
    if bs.length ≤ n then ⟨bs, none⟩ else ⟨bs.take n, some (.writer "disk full")⟩

namespace Action

/-- Prints an object to a writer that takes no more than a limit. -/
def print (mode : PrintMode) (limit : Option Nat) (r : Ref) : Action Printed :=
  try Printed.write limit <$> printed mode r
  catch e => pure ⟨[], some e⟩

end Action

end ScriptCore.Object
