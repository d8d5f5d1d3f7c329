/-!
# Bytes

Input is read as bytes. The characters that matter to the language are all
ASCII, so its classes of characters are classes of bytes; a byte above 127
belongs to none of them.
-/

namespace ScriptCore

/-- A byte string. -/
abbrev Bytes := List UInt8

namespace Byte

/-- `0` to `9`. -/
def isDigit (b : UInt8) : Bool :=
  '0'.toUInt8 ≤ b && b ≤ '9'.toUInt8

/-- `0` to `7`. -/
def isOctalDigit (b : UInt8) : Bool :=
  '0'.toUInt8 ≤ b && b ≤ '7'.toUInt8

/-- `A` to `Z` and `a` to `z`. -/
def isLetter (b : UInt8) : Bool :=
  ('A'.toUInt8 ≤ b && b ≤ 'Z'.toUInt8) || ('a'.toUInt8 ≤ b && b ≤ 'z'.toUInt8)

/-- `0` to `9`, `A` to `F` and `a` to `f`. -/
def isHexDigit (b : UInt8) : Bool :=
  isDigit b || ('A'.toUInt8 ≤ b && b ≤ 'F'.toUInt8) || ('a'.toUInt8 ≤ b && b ≤ 'f'.toUInt8)

/-- Space, tab, newline, form feed and carriage return. -/
def isSpace (b : UInt8) : Bool :=
  b == ' '.toUInt8 || b == '\t'.toUInt8 || b == '\n'.toUInt8 || b == '\x0c'.toUInt8 ||
    b == '\r'.toUInt8

/-- What separates tokens within a line: space, tab and carriage return. -/
def isBlank (b : UInt8) : Bool :=
  b == ' '.toUInt8 || b == '\t'.toUInt8 || b == '\r'.toUInt8

/-- What may begin a name: a letter or an underscore. -/
def beginsName (b : UInt8) : Bool :=
  isLetter b || b == '_'.toUInt8

/-- What may continue a name: what may begin one, or a digit. -/
def continuesName (b : UInt8) : Bool :=
  beginsName b || isDigit b

end Byte

/-- The value of a decimal numeral, most significant digit first. -/
def Bytes.decimal (digits : Bytes) : Nat :=
  digits.foldl (fun n d => 10 * n + (d - '0'.toUInt8).toNat) 0

end ScriptCore
