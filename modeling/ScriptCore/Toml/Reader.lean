import ScriptCore.Numeral
import ScriptCore.Toml

/-!
# Reading TOML

A text is read line by line. A line holds a header or an entry, or neither;
a comment may end it. Lines end with a newline, which may have a carriage
return in front of it.

A reader answers with what it read and what follows it.

Only the plain way to spell a document is read: dotted or quoted keys, and tables,
lists, dates or texts of several lines as values, are refused.
-/

namespace ScriptCore.Toml

/-! ## Characters -/

/-- A space or a tab. -/
def isBlank (c : Char) : Bool :=
  c == ' ' || c == '\t'

/-- What may stand in a comment, and for itself in a text: a tab, or any
    character that is no ASCII control character. -/
def isPlain (c : Char) : Bool :=
  c == '\t' || (' ' ≤ c && c ≠ '\x7f')

/-- What names and keys are made of. -/
def isKeyChar (c : Char) : Bool :=
  c.isAlphanum || c == '_' || c == '-'

/-- What follows a run of blanks. -/
def skipBlanks (s : List Char) : List Char :=
  s.dropWhile isBlank

/-! ## Texts -/

/-- What a backslash and a character stand for. -/
def escaped? : Char → Option Char
  | '"' => some '"'
  | '\\' => some '\\'
  | 'b' => some '\x08'
  | 'f' => some '\x0c'
  | 'n' => some '\n'
  | 'r' => some '\r'
  | 't' => some '\t'
  | _ => none

/-- The character with a code. -/
def ofCode? (digits : List Char) : Option Char :=
  (Numeral.value? 16 digits).bind fun n => if n.isValidChar then some (Char.ofNat n) else none

/-- One character in front of what else was read. -/
def push? (c : Option Char) (tail : Option (List Char × List Char)) :
    Option (List Char × List Char) :=
  c.bind fun c => tail.map fun (cs, s) => (c :: cs, s)

/-- The characters of a text up to the closing double quote. -/
def quotedTail : List Char → Option (List Char × List Char)
  | [] => none
  | '"' :: s => some ([], s)
  | '\\' :: 'u' :: a :: b :: c :: d :: s => push? (ofCode? [a, b, c, d]) (quotedTail s)
  | '\\' :: 'U' :: a :: b :: c :: d :: e :: f :: g :: h :: s =>
    push? (ofCode? [a, b, c, d, e, f, g, h]) (quotedTail s)
  | '\\' :: c :: s => push? (escaped? c) (quotedTail s)
  | c :: s => push? (if isPlain c then some c else none) (quotedTail s)

/-- The characters of a text up to the closing single quote. None of them
    stands for another. -/
def literalTail (s : List Char) : Option (List Char × List Char) :=
  let cs := s.takeWhile (· ≠ '\'')
  match s.dropWhile (· ≠ '\'') with
  | _ :: rest => if cs.all isPlain then some (cs, rest) else none
  | [] => none

/-! ## Numbers -/

/-- A run of digits without the single underscores that may stand between two
    of them. -/
def ungroup? : List Char → Option (List Char)
  | [] => some []
  | '_' :: _ => none
  | d :: '_' :: e :: s => (ungroup? (e :: s)).map (d :: ·)
  | d :: s => (ungroup? s).map (d :: ·)

/-- The value of a run of digits that may be grouped. -/
def grouped? (base : Nat) (s : List Char) : Option Nat :=
  (ungroup? s).bind (Numeral.value? base)

/-- The value of a decimal numeral, which has no zero in front of its digits. -/
def decimal? (s : List Char) : Option Nat :=
  if s.head? = some '0' ∧ 1 < s.length then none else grouped? 10 s

/-- Whether a number has a minus sign, and what follows its sign. -/
def sign : List Char → Bool × List Char
  | '-' :: s => (true, s)
  | '+' :: s => (false, s)
  | s => (false, s)

/-- An integer. Only a decimal one may have a sign. -/
def integer? : List Char → Option Int
  | '0' :: 'x' :: s => (grouped? 16 s).map Int.ofNat
  | '0' :: 'o' :: s => (grouped? 8 s).map Int.ofNat
  | '0' :: 'b' :: s => (grouped? 2 s).map Int.ofNat
  | s =>
    let (negative, s) := sign s
    (decimal? s).map fun n => if negative then -(n : Int) else n

/-- An integer of 64 bits. -/
def integer64? (s : List Char) : Option Int :=
  (integer? s).bind fun n =>
    if Int64.minValue.toInt ≤ n ∧ n ≤ Int64.maxValue.toInt then some n else none

/-- The digits of a run that may be grouped. -/
def digits? (s : List Char) : Option (List Char) :=
  (ungroup? s).filter fun ds => (Numeral.value? 10 ds).isSome

/-- Whether a run of digits, with the point moved to the right by `scale`, is
    beyond the largest double: at least halfway from it to the next power of
    two. The smaller numbers are told by the length of the run. -/
def isBeyondDouble (digits : List Char) (scale : Int) : Bool :=
  let n := (Numeral.value? 10 digits).getD 0
  let bound := Nat.pow 2 1024 - Nat.pow 2 970
  if n = 0 ∨ digits.length + scale < 309 then false
  else if 309 ≤ scale then true
  else if 0 ≤ scale then bound ≤ n * Nat.pow 10 scale.toNat
  else bound * Nat.pow 10 (-scale).toNat ≤ n

/-- What stands in front of the first character of a kind, and what follows it
    if it is there. -/
def cut (p : Char → Bool) (s : List Char) : List Char × Option (List Char) :=
  match s.dropWhile (!p ·) with
  | [] => (s, none)
  | _ :: rest => (s.takeWhile (!p ·), some rest)

/-- The digits of a number with a fraction or an exponent or both, and how far
    its point is moved. -/
def scaled? (s : List Char) : Option (List Char × Int) := do
  let (mantissa, exponent) := cut (fun c => c == 'e' || c == 'E') s
  let (whole, fraction) := cut (· == '.') mantissa
  guard ((decimal? whole).isSome ∧ (fraction.isSome ∨ exponent.isSome))
  let whole ← digits? whole
  let fraction ← match fraction with
    | some s => digits? s
    | none => some []
  let exponent ← match exponent with
    | some s =>
      let (negative, s) := sign s
      (grouped? 10 s).map fun n => if negative then -(n : Int) else n
    | none => some 0
  return (whole ++ fraction, exponent - fraction.length)

/-- Whether a word is a number with a fraction or an exponent or both, or names
    an infinity or no number. A number without a minus sign must not be too
    large for a double. -/
def isFloat (word : List Char) : Bool :=
  let (negative, s) := sign word
  s = "inf".toList || s = "nan".toList ||
    (scaled? s).any fun (digits, scale) => negative || !isBeyondDouble digits scale

/-! ## Lines -/

/-- The value that a word without quotes spells. -/
def Value.ofWord? (word : List Char) : Option Value :=
  if word = "true".toList then some (.truth true)
  else if word = "false".toList then some (.truth false)
  else match integer64? word with
    | some n => some (.integer n)
    | none => if isFloat word then some (.other word) else none

/-- What a word is made of: it ends where a blank or a comment begins. -/
def isWordChar (c : Char) : Bool :=
  !isBlank c && c ≠ '#'

/-- A value. -/
def value? : List Char → Option (Value × List Char)
  | '"' :: s => (quotedTail s).map fun (cs, s) => (.text (String.ofList cs), s)
  | '\'' :: s => (literalTail s).map fun (cs, s) => (.text (String.ofList cs), s)
  | s => (Value.ofWord? (s.takeWhile isWordChar)).map (·, s.dropWhile isWordChar)

/-- A name or key. -/
def key? (s : List Char) : Option (String × List Char) :=
  let name := s.takeWhile isKeyChar
  if name = [] then none else some (String.ofList name, s.dropWhile isKeyChar)

/-- Whether nothing but blanks and a comment is left of a line. -/
def isRest (s : List Char) : Bool :=
  match skipBlanks s with
  | [] => true
  | c :: s => c == '#' && s.all isPlain

/-- What a line says. -/
def Line.read? (s : List Char) : Option Line :=
  match skipBlanks s with
  | '[' :: s =>
    (key? (skipBlanks s)).bind fun (name, s) =>
      match skipBlanks s with
      | ']' :: s => if isRest s then some (.header name) else none
      | _ => none
  | s =>
    if isRest s then some .blank
    else (key? s).bind fun (key, s) =>
      match skipBlanks s with
      | '=' :: s =>
        (value? (skipBlanks s)).bind fun (value, s) =>
          if isRest s then some (.entry key value) else none
      | _ => none

/-- The lines of a text. What follows the last newline is a line too. -/
def splitLines : List Char → List (List Char)
  | [] => [[]]
  | '\n' :: s => [] :: splitLines s
  | '\r' :: '\n' :: s => [] :: splitLines s
  | c :: s =>
    match splitLines s with
    | [] => [[c]]
    | l :: ls => (c :: l) :: ls

/-- What follows a byte order mark, if there is one. -/
def skipMark : List Char → List Char
  | '\ufeff' :: s => s
  | s => s

/-- The document that a text spells. -/
def read? (text : String) : Option Toml :=
  ((splitLines (skipMark text.toList)).mapM Line.read?).bind ofLines?

end ScriptCore.Toml
