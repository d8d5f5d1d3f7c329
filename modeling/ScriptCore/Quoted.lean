import ScriptCore.Bytes

/-!
# Quoted byte strings

A byte string is shown between single quotes. Quotes, backslashes, newlines
and tabs are escaped by a backslash, the other printable ASCII characters
stand for themselves, and any other byte is written `\x` and two hexadecimal
digits. `unquote` reads what `quote` writes.
-/

namespace ScriptCore.Quoted

/-- The lower case hexadecimal digit of a number below 16. -/
def hexDigit (n : UInt8) : UInt8 :=
  if n < 10 then '0'.toUInt8 + n else 'a'.toUInt8 + (n - 10)

/-- The value of a lower case hexadecimal digit. -/
def hexValue? (d : UInt8) : Option UInt8 :=
  if Byte.isDigit d then some (d - '0'.toUInt8)
  else if 'a'.toUInt8 ≤ d && d ≤ 'f'.toUInt8 then some (d - 'a'.toUInt8 + 10)
  else none

/-- Printable ASCII: a byte that stands for itself unless it has an escape. -/
def isPrintable (b : UInt8) : Bool :=
  ' '.toUInt8 ≤ b && b ≤ '~'.toUInt8

/-- One byte as it is written between the quotes. -/
def escape (b : UInt8) : Bytes :=
  if b = '\\'.toUInt8 ∨ b = '\''.toUInt8 then ['\\'.toUInt8, b]
  else if b = '\n'.toUInt8 then ['\\'.toUInt8, 'n'.toUInt8]
  else if b = '\t'.toUInt8 then ['\\'.toUInt8, 't'.toUInt8]
  else if isPrintable b then [b]
  else ['\\'.toUInt8, 'x'.toUInt8, hexDigit (b / 16), hexDigit (b % 16)]

/-- A byte string as it is shown. -/
def quote (bs : Bytes) : Bytes :=
  '\''.toUInt8 :: (bs.flatMap escape ++ ['\''.toUInt8])

/-- Where a reader stands between the quotes: at a byte or an escape, after a
    backslash, or before a first or a second hexadecimal digit. -/
inductive Place
  | plain
  | escaped
  | high
  | low (high : UInt8)
  deriving DecidableEq, Repr

/-- Reads the rest of a quoted byte string, its closing quote included. -/
def unquoteFrom : Place → Bytes → Option Bytes
  | _, [] => none
  | .plain, b :: bs =>
    if b = '\''.toUInt8 then if bs = [] then some [] else none
    else if b = '\\'.toUInt8 then unquoteFrom .escaped bs
    else (unquoteFrom .plain bs).map (b :: ·)
  | .escaped, b :: bs =>
    if b = '\\'.toUInt8 ∨ b = '\''.toUInt8 then (unquoteFrom .plain bs).map (b :: ·)
    else if b = 'n'.toUInt8 then (unquoteFrom .plain bs).map ('\n'.toUInt8 :: ·)
    else if b = 't'.toUInt8 then (unquoteFrom .plain bs).map ('\t'.toUInt8 :: ·)
    else if b = 'x'.toUInt8 then unquoteFrom .high bs
    else none
  | .high, b :: bs => (hexValue? b).bind fun high => unquoteFrom (.low high) bs
  | .low high, b :: bs =>
    (hexValue? b).bind fun low => (unquoteFrom .plain bs).map ((16 * high + low) :: ·)

/-- The byte string that is shown as the given bytes. -/
def unquote : Bytes → Option Bytes
  | q :: bs => if q = '\''.toUInt8 then unquoteFrom .plain bs else none
  | [] => none

end ScriptCore.Quoted
