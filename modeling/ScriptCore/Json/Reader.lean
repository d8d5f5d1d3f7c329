import ScriptCore.Json

/-!
# Reading JSON

The grammar of JSON, to the letter: no zeros in front of a number, no control
characters in a string, and nothing but blanks after the value. Values may be
nested to any depth.

A reader answers with what it read and what follows it.
-/

namespace ScriptCore.Json

/-- The characters that may stand between the parts of a text. -/
def isSpace (c : Char) : Bool :=
  c == ' ' || c == '\n' || c == '\t' || c == '\r'

/-- What follows a run of blanks. -/
def skipSpaces (s : List Char) : List Char :=
  s.dropWhile isSpace

/-- What a backslash and a character stand for. -/
def escaped? : Char → Option Char
  | '"' => some '"'
  | '\\' => some '\\'
  | '/' => some '/'
  | 'b' => some '\x08'
  | 'f' => some '\x0c'
  | 'n' => some '\n'
  | 'r' => some '\r'
  | 't' => some '\t'
  | _ => none

/-- The symbols of a string as they are spelled, each surrogate by itself, up
    to the closing quote. -/
def stringTail : List Char → Option (List Symbol × List Char)
  | [] => none
  | '"' :: s => some ([], s)
  | '\\' :: 'u' :: a :: b :: c :: d :: s =>
    match Numeral.value? 16 [a, b, c, d], stringTail s with
    | some n, some (symbols, s) =>
      some ((if 0xD800 ≤ n ∧ n ≤ 0xDFFF then .surrogate n else .char (Char.ofNat n)) :: symbols, s)
    | _, _ => none
  | '\\' :: e :: s =>
    match escaped? e, stringTail s with
    | some c, some (symbols, s) => some (.char c :: symbols, s)
    | _, _ => none
  | c :: s =>
    if c < ' ' then none
    else (stringTail s).map fun (symbols, s) => (.char c :: symbols, s)

/-- Puts each high surrogate and a low one right after it together. -/
def pairSurrogates : List Symbol → List Symbol
  | .surrogate high :: .surrogate low :: symbols =>
    if high < 0xDC00 ∧ 0xDC00 ≤ low then
      .char (Char.ofNat (0x10000 + (high - 0xD800) * 0x400 + (low - 0xDC00))) ::
        pairSurrogates symbols
    else .surrogate high :: pairSurrogates (.surrogate low :: symbols)
  | x :: symbols => x :: pairSurrogates symbols
  | [] => []

/-- A string without its opening quote. -/
def stringBody (s : List Char) : Option (List Symbol × List Char) :=
  (stringTail s).map fun (symbols, s) => (pairSurrogates symbols, s)

/-- A run of digits, perhaps empty, after what was read of a number. -/
def digitsAfter (done : List Char) (s : List Char) : List Char × List Char :=
  (done ++ s.takeWhile Char.isDigit, s.dropWhile Char.isDigit)

/-- A sign that may stand in front of digits. -/
def signAfter (signs : List Char) (done : List Char) : List Char → List Char × List Char
  | [] => (done, [])
  | c :: s => if c ∈ signs then (done ++ [c], s) else (done, c :: s)

/-- The fraction of a number, if there is one. -/
def fractionAfter (done : List Char) : List Char → Option (List Char × List Char)
  | '.' :: s => if (s.head?.any Char.isDigit) then some (digitsAfter (done ++ ['.']) s) else none
  | s => some (done, s)

/-- The exponent of a number, if there is one. -/
def exponentAfter (done : List Char) : List Char → Option (List Char × List Char)
  | [] => some (done, [])
  | c :: s =>
    if c = 'e' ∨ c = 'E' then
      let (done, s) := signAfter ['+', '-'] (done ++ [c]) s
      if s.head?.any Char.isDigit then some (digitsAfter done s) else none
    else some (done, c :: s)

/-- A number. -/
def numberBody (s : List Char) : Option (List Char × List Char) :=
  let (sign, s) := signAfter ['-'] [] s
  let whole := s.takeWhile Char.isDigit
  if whole = [] ∨ (whole.head? = some '0' ∧ 1 < whole.length) then none
  else
    (fractionAfter (sign ++ whole) (s.dropWhile Char.isDigit)).bind fun (done, s) =>
      exponentAfter done s

/-- What follows a word, if the text begins with it. -/
def word? (word : List Char) (s : List Char) : Option (List Char) :=
  if word <+: s then some (s.drop word.length) else none

/-- The values that are no arrays or objects, or the start of one. -/
def scalar (s : List Char) : Option (Json × List Char) :=
  match word? "null".toList s, word? "true".toList s, word? "false".toList s with
  | some s, _, _ => some (.null, s)
  | _, some s, _ => some (.bool true, s)
  | _, _, some s => some (.bool false, s)
  | none, none, none => (numberBody s).map fun (literal, s) => (.number literal, s)

mutual

/-- A value, by at most `n` nested steps. -/
def value : Nat → List Char → Option (Json × List Char)
  | 0, _ => none
  | n + 1, s =>
    match skipSpaces s with
    | '"' :: s => (stringBody s).map fun (symbols, s) => (.string symbols, s)
    | '[' :: s =>
      match skipSpaces s with
      | ']' :: s => some (.array [], s)
      | s => (itemsTail n s).map fun (items, s) => (.array items, s)
    | '\x7b' :: s =>
      match skipSpaces s with
      | '\x7d' :: s => some (.object [], s)
      | s => (fieldsTail n s).map fun (fields, s) => (.object fields, s)
    | s => scalar s

/-- The items of an array, of which there is one, and the closing bracket. -/
def itemsTail : Nat → List Char → Option (List Json × List Char)
  | 0, _ => none
  | n + 1, s =>
    (value n s).bind fun (j, s) =>
      match skipSpaces s with
      | ',' :: s => (itemsTail n s).map fun (items, s) => (j :: items, s)
      | ']' :: s => some ([j], s)
      | _ => none

/-- The fields of an object, of which there is one, and the closing brace. -/
def fieldsTail : Nat → List Char → Option (List (List Symbol × Json) × List Char)
  | 0, _ => none
  | n + 1, s =>
    match skipSpaces s with
    | '"' :: s =>
      (stringBody s).bind fun (name, s) =>
        match skipSpaces s with
        | ':' :: s =>
          (value n s).bind fun (j, s) =>
            match skipSpaces s with
            | ',' :: s => (fieldsTail n s).map fun (fields, s) => ((name, j) :: fields, s)
            | '\x7d' :: s => some ([(name, j)], s)
            | _ => none
        | _ => none
    | _ => none

end

/-- The value that a text spells. Two steps for each character are enough. -/
def read? (text : String) : Option Json :=
  (value (2 * text.toList.length + 2) text.toList).bind fun (j, s) =>
    if skipSpaces s = [] then some j else none

end ScriptCore.Json
