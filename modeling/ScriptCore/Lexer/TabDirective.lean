import ScriptCore.Bytes

/-!
# Tab size directives

A comment may set the tab size, as in `# vi:set tabsize=4:`. After the hash
mark and perhaps spaces come `vi:set`, perhaps spaces, `tabsize=`, perhaps
spaces and a sign, and the digits of a number, which fits into 64 bits with a
sign and must be from 1 to 40. What follows the digits does not matter.
-/

namespace ScriptCore.Lexer.TabDirective

/-- The largest tab size that a directive may set. -/
def largest : Nat := 40

/-- What follows a run of spaces. -/
def skipSpaces (bs : Bytes) : Bytes :=
  bs.dropWhile Byte.isSpace

/-- What follows a word, if the bytes begin with it. -/
def after? (word : Bytes) (bs : Bytes) : Option Bytes :=
  if word <+: bs then some (bs.drop word.length) else none

/-- The word that a directive begins with. -/
def editorWord : Bytes := "vi:set".toList.map Char.toUInt8

/-- The word in front of the size. -/
def sizeWord : Bytes := "tabsize=".toList.map Char.toUInt8

/-- Whether bytes begin with a minus sign, and what follows a sign, if there is one. -/
def sign : Bytes → Bool × Bytes
  | [] => (false, [])
  | b :: bs =>
    if b = '-'.toUInt8 then (true, bs)
    else if b = '+'.toUInt8 then (false, bs)
    else (false, b :: bs)

/-- The largest number that fits into 64 bits with a sign. -/
def largestNumber : Nat := 9223372036854775807

/-- The number that digits stand for, if there are any and the number fits. -/
def number? (digits : Bytes) : Option Int :=
  let n := Bytes.decimal digits
  if digits = [] ∨ largestNumber < n then none else some n

/-- The tab size that a comment sets, given what follows its hash mark. -/
def parse? (comment : Bytes) : Option Nat := do
  let rest ← after? editorWord (skipSpaces comment)
  let rest ← after? sizeWord (skipSpaces rest)
  let (negative, rest) := sign (skipSpaces rest)
  let n ← number? (rest.takeWhile Byte.isDigit)
  let size := if negative then -n else n
  if 1 ≤ size ∧ size ≤ largest then some size.toNat else none

end ScriptCore.Lexer.TabDirective
