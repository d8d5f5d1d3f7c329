import ScriptCore.Json

/-!
# Printing JSON

A value is printed on one line without blanks, or in lines: each item of an
array and each field of an object on a line of its own, two spaces further in
than what holds it. Empty arrays and objects stay on their line. Characters
that are not ASCII are printed as they are.
-/

namespace ScriptCore.Json

/-- How a value is laid out. -/
inductive Layout
  | compact
  | lines
  deriving DecidableEq, Repr

/-- The break in front of an item at a depth. -/
def Layout.break : Layout → Nat → List Char
  | compact, _ => []
  | lines, depth => '\n' :: List.replicate (2 * depth) ' '

/-- What stands between the name of a field and its value. -/
def Layout.colon : Layout → List Char
  | compact => [':']
  | lines => [':', ' ']

/-- A code of a character written with four hexadecimal digits. -/
def codeEscape (n : Nat) : List Char :=
  ['\\', 'u', Nat.digitChar (n / 4096 % 16), Nat.digitChar (n / 256 % 16),
    Nat.digitChar (n / 16 % 16), Nat.digitChar (n % 16)]

/-- One symbol of a string as it is written. -/
def Symbol.print : Symbol → List Char
  | .surrogate n => codeEscape n
  | .char c =>
    if c = '"' ∨ c = '\\' then ['\\', c]
    else if c = '\x08' then ['\\', 'b']
    else if c = '\x0c' then ['\\', 'f']
    else if c = '\n' then ['\\', 'n']
    else if c = '\r' then ['\\', 'r']
    else if c = '\t' then ['\\', 't']
    else if c < ' ' then codeEscape c.toNat
    else [c]

/-- A string with its quotes. -/
def printString (symbols : List Symbol) : List Char :=
  '"' :: (symbols.flatMap Symbol.print ++ ['"'])

/-- The parts of an array or object at a depth, each after its break, with
    commas in between. -/
def Layout.join (layout : Layout) (depth : Nat) : List (List Char) → List Char
  | [] => []
  | [p] => layout.break (depth + 1) ++ p ++ layout.break depth
  | p :: ps => layout.break (depth + 1) ++ p ++ ',' :: layout.join depth ps

mutual

/-- A value at a depth. -/
def print (layout : Layout) (depth : Nat) : Json → List Char
  | .null => "null".toList
  | .bool b => if b then "true".toList else "false".toList
  | .number literal => literal
  | .string symbols => printString symbols
  | .array items => '[' :: (layout.join depth (printItems layout (depth + 1) items) ++ [']'])
  | .object fields =>
    '\x7b' :: (layout.join depth (printFields layout (depth + 1) fields) ++ ['\x7d'])

/-- The items of an array at a depth. -/
def printItems (layout : Layout) (depth : Nat) : List Json → List (List Char)
  | [] => []
  | j :: js => print layout depth j :: printItems layout depth js

/-- The fields of an object at a depth. -/
def printFields (layout : Layout) (depth : Nat) :
    List (List Symbol × Json) → List (List Char)
  | [] => []
  | (name, j) :: fs =>
    (printString name ++ layout.colon ++ print layout depth j) :: printFields layout depth fs

end

/-- The text of a value. -/
def render (layout : Layout) (j : Json) : String :=
  String.ofList (j.print layout 0)

end ScriptCore.Json
