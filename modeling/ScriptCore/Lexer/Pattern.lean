import ScriptCore.Bytes

/-!
# The patterns of the language

What a name, a number, a string, a comment and the space between tokens look
like. A pattern has places: a byte leads from one place to the next, or does
not belong to the pattern any more. At some places it is complete, and the
next byte does not matter.
-/

namespace ScriptCore.Lexer

/-- A pattern with places in `σ`: how a byte leads on, and where the pattern is
    complete. -/
structure Pattern (σ : Type) where
  step : σ → UInt8 → Option σ
  isComplete : σ → Bool := fun _ => false

/-- Takes bytes while they have a property. -/
def Pattern.while (test : UInt8 → Bool) : Pattern Unit where
  step _ b := if test b then some () else none

/-- The rest of a name. -/
def namePattern : Pattern Unit :=
  .while Byte.continuesName

/-- The rest of a comment: everything up to the newline. -/
def commentPattern : Pattern Unit :=
  .while (· != '\n'.toUInt8)

/-- The places in a number. -/
inductive NumberPlace
  | start
  | zero
  | octal
  | hex
  | whole
  | fraction
  | mark
  | exponent
  deriving DecidableEq, Repr

/-- Numbers. A zero begins an octal number, unless an `x` makes it hexadecimal
    or a point makes it decimal; other decimal numbers have digits first, and
    then perhaps a point with digits and an exponent. -/
def numberStep : NumberPlace → UInt8 → Option NumberPlace
  | .start, b =>
    if b = '0'.toUInt8 then some .zero else if Byte.isDigit b then some .whole else none
  | .zero, b =>
    if b = '.'.toUInt8 then some .fraction
    else if b = 'x'.toUInt8 ∨ b = 'X'.toUInt8 then some .hex
    else if Byte.isOctalDigit b then some .octal
    else none
  | .octal, b => if Byte.isOctalDigit b then some .octal else none
  | .hex, b => if Byte.isHexDigit b then some .hex else none
  | .whole, b =>
    if Byte.isDigit b then some .whole
    else if b = '.'.toUInt8 then some .fraction
    else if b = 'e'.toUInt8 ∨ b = 'E'.toUInt8 then some .mark
    else none
  | .fraction, b =>
    if Byte.isDigit b then some .fraction
    else if b = 'e'.toUInt8 ∨ b = 'E'.toUInt8 then some .mark
    else none
  | .mark, b =>
    if b = '+'.toUInt8 ∨ b = '-'.toUInt8 ∨ Byte.isDigit b then some .exponent else none
  | .exponent, b => if Byte.isDigit b then some .exponent else none

/-- Numbers, as `numberStep` says. -/
def numberPattern : Pattern NumberPlace where
  step := numberStep

/-- The places in a string after its opening quote. -/
inductive StringPlace
  | inside
  | escaped
  | closed
  | broken
  deriving DecidableEq, Repr

/-- The rest of a string: up to the next quote that no backslash precedes. A
    newline breaks the string, after a backslash too. -/
def stringStep : StringPlace → UInt8 → Option StringPlace
  | .inside, b =>
    if b = '\''.toUInt8 then some .closed
    else if b = '\\'.toUInt8 then some .escaped
    else if b = '\n'.toUInt8 then some .broken
    else some .inside
  | .escaped, b => if b = '\n'.toUInt8 then some .broken else some .inside
  | .closed, _ | .broken, _ => none

/-- The rest of a string, as `stringStep` says. -/
def stringPattern : Pattern StringPlace where
  step := stringStep
  isComplete s := s = .closed ∨ s = .broken

/-- The places in the space between two tokens. The last of them keeps the
    length of a backslash with what follows it, where no newline does. -/
inductive GapPlace
  | between
  | backslash
  | returned
  | broken (length : Nat)
  deriving DecidableEq, Repr

/-- The space between two tokens: blanks, and backslashes that each end a line
    before its newline, perhaps with a carriage return in between. -/
def gapStep : GapPlace → UInt8 → Option GapPlace
  | .between, b =>
    if Byte.isBlank b then some .between
    else if b = '\\'.toUInt8 then some .backslash
    else none
  | .backslash, b =>
    if b = '\r'.toUInt8 then some .returned
    else if b = '\n'.toUInt8 then some .between
    else some (.broken 2)
  | .returned, b => if b = '\n'.toUInt8 then some .between else some (.broken 3)
  | .broken _, _ => none

/-- The space between two tokens, as `gapStep` says. -/
def gapPattern : Pattern GapPlace where
  step := gapStep
  isComplete
    | .broken _ => true
    | _ => false

/-- The number of bytes, at the end of a gap, that are not part of it: a
    backslash that ends no line, with what follows it. -/
def GapPlace.excess : GapPlace → Nat
  | between => 0
  | backslash => 1
  | returned => 2
  | broken n => n

end ScriptCore.Lexer
