import ScriptCore.Lexer.Indentation
import ScriptCore.Lexer.Pattern
import ScriptCore.Lexer.TabDirective

/-!
# The lexer

The lexer hands out the tokens of its input one by one. At the beginning of a
line it measures the indentation; then it hands out the tokens owed for it,
and then the tokens of the line, each after the space in front of it. At the
end of the input it hands out end markers.

An error token is handed out once, and end markers from then on. After an
interrupted read, `recover` begins anew with the next line.

A line may begin beyond the last column that can be counted. Then the program
breaks off (`breaksOff`), and what `get` hands out from there on is of no account.

`Lexeme` keeps, beside the kind of a token, the bytes that were taken for it,
so that the lexemes of a run spell out the input.
-/

namespace ScriptCore

namespace Lexer

/-- A token with the bytes taken for it: those passed over in front of it, and
    its own. -/
structure Lexeme where
  kind : Token.Kind
  skipped : Bytes := []
  bytes : Bytes := []
  deriving DecidableEq, Repr

/-- The text of a lexeme. A newline is not shown. -/
def Lexeme.text (x : Lexeme) : String :=
  if x.kind = .newline then "" else Utf8.decode x.bytes

/-- What can be chosen about a lexer. -/
structure Options where
  tabSize : UInt64 := 8
  maxIndent : Nat := 100
  prompts : Prompts := {}
  deriving DecidableEq, Repr

end Lexer

/-- A lexer at work. -/
structure Lexer where
  input : Lexer.Input
  indentation : Lexer.Indentation := {}
  tabSize : UInt64
  maxIndent : Nat
  /-- Whether a line is about to begin. -/
  lineStart : Bool := true
  /-- The line that was begun last, counted from 1. -/
  line : Nat := 0
  /-- Whether an error token was handed out. -/
  latched : Bool := false
  /-- Whether an end marker was handed out. -/
  finished : Bool := false
  deriving DecidableEq, Repr

namespace Lexer

/-- A lexer at the beginning of a source. Tabs and levels are at least 1. -/
def start (source : Source) (options : Options := {}) : Lexer where
  input := { source, prompts := options.prompts }
  tabSize := max 1 options.tabSize
  maxIndent := max 1 options.maxIndent

/-- How things stand. -/
def status (l : Lexer) : Status :=
  l.input.status

/-- The number of open levels of indentation. -/
def depth (l : Lexer) : Nat :=
  l.indentation.depth

/-- Notes a fault, unless the input has already stopped by an error. -/
def fault (l : Lexer) (f : Fault) : Lexer :=
  if l.status.isError then l else { l with input := { l.input with status := .malformed f } }

/-- Begins a line, if one is to begin: the blanks in front of it, and the fault
    in its indentation. -/
def beginLine (l : Lexer) : Bytes × Option Fault × Lexer :=
  if l.lineStart then
    let (blanks, column, input) := l.input.munch (columnPattern l.tabSize) 0
    let l := { l with lineStart := false, line := l.line + 1, input }
    if l.status.isError then (blanks, none, l)
    else
      let (indentation, fault) := l.indentation.enter l.maxIndent column
      (blanks, fault, { l with indentation })
  else ([], none, l)

/-- Takes the byte at hand. -/
def advance (l : Lexer) : Lexer :=
  { l with input := l.input.advance }

/-- Takes a lexeme that begins with the byte at hand and goes on as a pattern
    does; the place where the pattern ends decides on the kind or the fault. -/
def take {σ : Type} (l : Lexer) (b : UInt8) (p : Pattern σ) (s : σ)
    (verdict : σ → Token.Kind ⊕ Fault) : Lexeme × Lexer :=
  let (bytes, s, input) := l.input.advance.munch p s
  let l := { l with input }
  match verdict s with
  | .inl kind => ({ kind, bytes := b :: bytes }, l)
  | .inr f => ({ kind := .error, bytes := b :: bytes }, l.fault f)

/-- What is handed out where no byte is at hand. -/
def atEnd (l : Lexer) : Lexeme × Lexer :=
  ({ kind := if l.status = .endOfInput then .endMarker else .error }, l)

/-- Takes the end of a line. -/
def endLine (l : Lexer) (b : UInt8) : Lexeme × Lexer :=
  ({ kind := .newline, bytes := [b] }, { l.advance with lineStart := true })

/-- Sets the tab size, if the comment that begins here says so. All the bytes
    at hand are looked at, even beyond the end of the line. -/
def obeyComment (l : Lexer) : Lexer :=
  match TabDirective.parse? l.input.pending with
  | some n => { l with tabSize := n.toUInt64 }
  | none => l

/-- Takes a comment, whose hash mark is at hand, and the end of its line. -/
def takeComment (l : Lexer) (b : UInt8) : Lexeme × Lexer :=
  let l := l.advance.obeyComment
  let (bytes, _, input) := l.input.munch commentPattern ()
  let l := { l with input }
  let (x, l) := match input.head? with
    | some c => l.endLine c
    | none => l.atEnd
  ({ x with skipped := b :: bytes }, l)

/-- Takes the token that begins with the byte at hand. -/
def takeToken (l : Lexer) (b : UInt8) : Lexeme × Lexer :=
  if b = '#'.toUInt8 then l.takeComment b
  else if Byte.beginsName b then l.take b namePattern () fun _ => .inl .name
  else if b = '\n'.toUInt8 then l.endLine b
  else if b = '0'.toUInt8 then l.take b numberPattern .zero fun _ => .inl .number
  else if Byte.isDigit b then l.take b numberPattern .whole fun _ => .inl .number
  else if b = '\''.toUInt8 then
    l.take b stringPattern .inside fun s =>
      if s = .closed then .inl .string else .inr .unterminatedString
  else ({ kind := .ofByte b, bytes := [b] }, l.advance)

/-- Takes the space in front of a token, and the token. -/
def scanToken (l : Lexer) : Lexeme × Lexer :=
  let (gap, place, input) := l.input.munch gapPattern .between
  let skipped := gap.take (gap.length - place.excess)
  let l := { l with input, line := l.line + skipped.count '\n'.toUInt8 }
  if place.excess = 0 then
    let (x, l) := match input.head? with
      | some b => l.takeToken b
      | none => l.atEnd
    ({ x with skipped := skipped ++ x.skipped }, l)
  else
    ({ kind := .error, skipped, bytes := gap.drop skipped.length }, l.fault .badContinuation)

/-- The next lexeme. -/
def scan (l : Lexer) : Lexeme × Lexer :=
  let (blanks, f, l) := l.beginLine
  match f with
  | some f => ({ kind := .error, skipped := blanks }, l.fault f)
  | none =>
    if l.status.isError then ({ kind := .error, skipped := blanks }, l)
    else match l.indentation.next? with
      | some (kind, indentation) => ({ kind, skipped := blanks }, { l with indentation })
      | none =>
        let (x, l) := l.scanToken
        ({ x with skipped := blanks ++ x.skipped }, l)

/-- The next token. -/
def get (l : Lexer) : Token × Lexer :=
  if l.latched then ({ kind := .endMarker, text := "", line := l.line }, l)
  else
    let (x, l) := l.scan
    ({ kind := x.kind, text := x.text, line := l.line },
      { l with latched := decide (x.kind = .error) })

/-- Whether the program breaks off where the next token is asked for: a line is to
    begin, and its blanks cannot be measured. -/
def breaksOff (l : Lexer) : Bool :=
  !l.latched && l.lineStart &&
    (measure? l.tabSize (l.input.munch (columnPattern l.tabSize) 0).1).isNone

/-- The next token, if the program does not break off. -/
def get? (l : Lexer) : Option (Token × Lexer) :=
  if l.breaksOff then none else some l.get

/-- The next token of a run, which ends after its first end marker. -/
def next? (l : Lexer) : Option (Token × Lexer) :=
  if l.finished then none
  else
    let (t, l) := l.get
    some (t, { l with finished := decide (t.kind = .endMarker) })

/-- Goes on after an interrupted read, as if at the beginning of the source.
    Other errors are final. -/
def recover? (l : Lexer) : Option Lexer :=
  if l.status = .interrupted then
    some { l with
      input := l.input.restart
      indentation := {}
      lineStart := true
      latched := false
      finished := false }
  else none

/-- Interrupts the next read, if the source allows it. -/
def interrupt (l : Lexer) : Lexer :=
  { l with input := { l.input with source := l.input.source.interrupt } }

/-- At most `n` tokens of a run, each with the lexer after it. -/
def runFor : Nat → Lexer → List (Token × Lexer)
  | 0, _ => []
  | n + 1, l =>
    match l.next? with
    | none => []
    | some (t, l) => (t, l) :: runFor n l

/-- A bound on the number of tokens that are still to come: a token takes a
    byte, or is owed for a level of indentation, or is one of the last two. -/
def bound (l : Lexer) : Nat :=
  2 * l.input.remaining + l.depth + l.indentation.owed.natAbs + 3

/-- The tokens up to the end marker, each with the lexer after it. -/
def run (l : Lexer) : List (Token × Lexer) :=
  l.runFor l.bound

/-- The tokens up to the end marker. -/
def tokens (l : Lexer) : List Token :=
  l.run.map (·.1)

end Lexer

end ScriptCore
