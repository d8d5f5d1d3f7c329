import ScriptCore.Object

/-!
# Errors of operations on objects

Why an operation on objects fails, and what is said of it.
-/

namespace ScriptCore.Object

/-- The operations that a type may not support. -/
inductive Operation
  | attributeLookup
  | attributeAssignment
  | comparison
  | repr
  | print
  | arithmetic
  | sequence
  | mapping
  | negation
  | plus
  | repetition
  | indexing
  | slicing
  | itemAssignment
  | sliceAssignment
  | subscriptAssignment
  deriving DecidableEq, Repr

/-- What an operation is called in an error. -/
def Operation.name : Operation → String
  | attributeLookup => "attribute lookup"
  | attributeAssignment => "attribute assignment"
  | comparison => "comparison"
  | repr => "repr"
  | print => "print"
  | arithmetic => "arithmetic"
  | sequence => "sequence operation"
  | mapping => "mapping operation"
  | negation => "unary -"
  | plus => "unary +"
  | repetition => "repetition"
  | indexing => "indexing"
  | slicing => "slicing"
  | itemAssignment => "item assignment"
  | sliceAssignment => "slice assignment"
  | subscriptAssignment => "subscript assignment"

/-- The operations on two objects that a pair of types may not support. -/
inductive PairOperation
  | add
  | sub
  | mul
  | div
  | rem
  | pow
  | concat
  deriving DecidableEq, Repr

/-- What an operation on two objects is called in an error. -/
def PairOperation.name : PairOperation → String
  | add => "+"
  | sub => "-"
  | mul => "*"
  | div => "/"
  | rem => "%"
  | pow => "**"
  | concat => "concatenation"

/-- The results that can be too large. -/
inductive Excess
  | sum
  | difference
  | product
  | quotient
  | power
  | negative
  | repeatedString
  | repeatedTuple
  deriving DecidableEq, Repr

/-- What is said of a result that is too large. -/
def Excess.message : Excess → String
  | sum => "integer addition"
  | difference => "integer subtraction"
  | product => "integer multiplication"
  | quotient => "integer division"
  | power => "integer power"
  | negative => "integer negation"
  | repeatedString => "repeated string is too long"
  | repeatedTuple => "repeated tuple is too long"

/-- Why an operation fails. -/
inductive Error
  /-- Objects of the type do not support the operation. -/
  | unsupported (operation : Operation) (t : ObjectType)
  /-- Objects of the two types do not support the operation. -/
  | unsupportedPair (operation : PairOperation) (left right : ObjectType)
  /-- Objects of two different types have no order. -/
  | incomparable (left right : ObjectType)
  /-- Only strings can be keys. -/
  | keyNotString
  /-- Nothing is stored under the name. -/
  | unknownName (name : String)
  /-- A string or a tuple has no such element. -/
  | outOfRange (t : ObjectType)
  /-- A function was given an object of a type it is not meant for. -/
  | badCall
  /-- A string or a tuple can only be joined to its like. -/
  | badArgument
  | divisionByZero
  | moduloByZero
  | overflow (excess : Excess)
  | negativePower
  /-- A native method refuses. -/
  | refused
  /-- A writer takes no more. -/
  | writer (reason : String)
  /-- Objects refer to each other in a circle, so that there is no answer. -/
  | endless
  deriving DecidableEq, Repr

/-- How an error is shown. -/
def Error.message : Error → String
  | unsupported operation t =>
    "type error: unsupported operation '" ++ operation.name ++ "' for '" ++ t.name ++ "' object"
  | unsupportedPair operation left right =>
    "type error: unsupported operand types for " ++ operation.name ++ ": '" ++ left.name ++
      "' and '" ++ right.name ++ "'"
  | incomparable left right =>
    "type error: cannot compare '" ++ left.name ++ "' and '" ++ right.name ++ "' objects"
  | keyNotString => "type error: dictionary keys must be strings"
  | unknownName name => "name error: " ++ name
  | outOfRange t => "index error: " ++ t.name ++ " index out of range"
  | badCall => "system error: bad call of internal function"
  | badArgument => "type error: bad argument type for built-in operation"
  | divisionByZero => "zero division error: integer division"
  | moduloByZero => "zero division error: integer modulo"
  | overflow excess => "overflow error: " ++ excess.message
  | negativePower => "value error: integer to the negative power"
  | refused => "value error: refused"
  | writer reason => "i/o error: " ++ reason
  | endless => "system error: objects without end"

end ScriptCore.Object
