import ScriptCore.Toml

/-!
# Printing TOML

A document is printed line by line, each line ended by a newline. Texts are
printed between double quotes; what cannot stand there for itself is printed
with a backslash.
-/

namespace ScriptCore.Toml

/-- A hexadecimal digit, with a capital letter above 9. -/
def hexDigit (d : Nat) : Char :=
  d.digitChar.toUpper

/-- One character of a text as it is written. A control character without a
    letter of its own is written by its code. -/
def printChar (c : Char) : List Char :=
  if c = '"' ∨ c = '\\' then ['\\', c]
  else if c = '\x08' then ['\\', 'b']
  else if c = '\x0c' then ['\\', 'f']
  else if c = '\n' then ['\\', 'n']
  else if c = '\r' then ['\\', 'r']
  else if c = '\t' then ['\\', 't']
  else if c < ' ' ∨ c = '\x7f' then
    ['\\', 'u', '0', '0', hexDigit (c.toNat / 16), hexDigit (c.toNat % 16)]
  else [c]

/-- An integer in decimal. -/
def printInteger (n : Int) : List Char :=
  if n < 0 then '-' :: Nat.toDigits 10 n.natAbs else Nat.toDigits 10 n.natAbs

/-- A value as it is written. -/
def Value.print : Value → List Char
  | text s => '"' :: (s.toList.flatMap printChar ++ ['"'])
  | integer n => printInteger n
  | other spelling => spelling
  | truth b => if b then "true".toList else "false".toList

/-- A line as it is written. -/
def Line.print : Line → List Char
  | blank => []
  | header name => '[' :: (name.toList ++ [']'])
  | entry key value => key.toList ++ ' ' :: '=' :: ' ' :: value.print

/-- The text of a document. -/
def render (t : Toml) : String :=
  String.ofList (t.toLines.flatMap fun l => l.print ++ ['\n'])

end ScriptCore.Toml
