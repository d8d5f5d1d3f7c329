import ScriptCore.Numeral

/-!
# JSON values

The values of JSON as they stand in a text. A number is kept as it is spelled,
so that a plain integer can be told from a number with a fraction or an
exponent. A string is kept as the characters and the unpaired surrogates that
it spells; only a string without the latter is a text (`Json.text?`).
-/

namespace ScriptCore

/-- One element of a JSON string: a character, or half of one. -/
inductive Json.Symbol
  | char (c : Char)
  | surrogate (code : Nat)
  deriving DecidableEq, Repr

/-- A JSON value. The fields of an object are kept in order, duplicates too. -/
inductive Json
  | null
  | bool (b : Bool)
  | number (literal : List Char)
  | string (symbols : List Json.Symbol)
  | array (items : List Json)
  | object (fields : List (List Json.Symbol × Json))

namespace Json

/-- The JSON string of a text. -/
def ofString (s : String) : Json :=
  .string (s.toList.map .char)

/-- The JSON number of an integer. -/
def ofInt (n : Int) : Json :=
  .number (if n < 0 then '-' :: Nat.toDigits 10 n.natAbs else Nat.toDigits 10 n.natAbs)

/-- The JSON number of a natural number. -/
def ofNat (n : Nat) : Json :=
  .number (Nat.toDigits 10 n)

/-- The character that a symbol is. -/
def Symbol.char? : Symbol → Option Char
  | .char c => some c
  | .surrogate _ => none

/-- The text of a string that has no unpaired surrogates. -/
def Symbol.text? (symbols : List Symbol) : Option String :=
  (symbols.mapM Symbol.char?).map String.ofList

/-- The text of a JSON string. -/
def text? : Json → Option String
  | .string symbols => Symbol.text? symbols
  | _ => none

/-- The items of a JSON array. -/
def items? : Json → Option (List Json)
  | .array items => some items
  | _ => none

/-- The value of a number that is spelled as an integer. Negative zero is no
    integer. -/
def int? : Json → Option Int
  | .number ('-' :: ds) =>
    (Numeral.value? 10 ds).bind fun n => if n = 0 then none else some (-(n : Int))
  | .number ds => (Numeral.value? 10 ds).map Int.ofNat
  | _ => none

/-- The value of an integer from `low` to `high`. -/
def intWithin? (low high : Int) (j : Json) : Option Int :=
  j.int?.bind fun n => if low ≤ n ∧ n ≤ high then some n else none

/-- The value of a natural number up to `high`. -/
def natUpTo? (high : Nat) (j : Json) : Option Nat :=
  (j.intWithin? 0 high).map Int.toNat

/-- A list of values that are each read by `f`. -/
def listOf? {α : Type} (f : Json → Option α) (j : Json) : Option (List α) :=
  j.items?.bind (·.mapM f)

/-- The value of a field among fields with texts as names. -/
def field? (fields : List (String × Json)) (name : String) : Option Json :=
  fields.lookup name

/-- The values of a record's fields, in the order of their names. A record is
    written as an object, where other fields are ignored but none of these may
    occur twice, or as an array of its values in order, of which the first
    `least` must be there. -/
def record? (names : List String) (least : Nat) : Json → Option (List (Option Json))
  | .array items =>
    if least ≤ items.length ∧ items.length ≤ names.length then
      some (items.map some ++ List.replicate (names.length - items.length) none)
    else none
  | .object fields => do
    let fields ← fields.mapM fun (name, j) => (Symbol.text? name).map (·, j)
    if names.all fun name => (fields.filter (·.1 == name)).length ≤ 1 then
      some (names.map (field? fields))
    else none
  | _ => none

end Json

end ScriptCore
