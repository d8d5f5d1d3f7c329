import ScriptCore.Lexer
import ScriptCore.Lexer.Buffer

/-!
# Lexing from a buffer

The lexer, with the buffer that its input is read into. What it takes is a span
of the buffer, and the text of a token is looked up in the buffer when the token
is handed out.

`Scanner.lexer` is the lexer without the buffer, which hands out the same.
-/

namespace ScriptCore.Lexer

/-- A span of a buffer, and the kind of the token that it is. -/
structure Span where
  kind : Token.Kind
  start : Nat
  stop : Nat
  deriving DecidableEq, Repr

/-- A span without bytes. -/
def Span.empty (kind : Token.Kind) (place : Nat) : Span where
  kind
  start := place
  stop := place

/-- The bytes of a span. -/
def Buffer.slice (b : Buffer) (x : Span) : Bytes :=
  (b.bytes.take x.stop).drop x.start

/-- A pattern that counts the newlines it takes. -/
def Pattern.counting {σ : Type} (p : Pattern σ) : Pattern (σ × Nat) where
  step s b := (p.step s.1 b).map fun s' => (s', s.2 + if b = '\n'.toUInt8 then 1 else 0)
  isComplete s := p.isComplete s.1

/-- A lexer at work, with its buffer. -/
structure Scanner where
  buffer : Buffer
  indentation : Indentation := {}
  tabSize : UInt64
  maxIndent : Nat
  lineStart : Bool := true
  line : Nat := 0
  latched : Bool := false
  finished : Bool := false
  deriving DecidableEq, Repr

namespace Scanner

/-- The lexer without its buffer. -/
def lexer (s : Scanner) : Lexer :=
  { s with input := s.buffer.input }

/-- A scanner at the beginning of a source. -/
def start (source : Source) (options : Options := {}) : Scanner where
  buffer := .start source options.prompts
  tabSize := max 1 options.tabSize
  maxIndent := max 1 options.maxIndent

/-- How things stand. -/
def status (s : Scanner) : Status :=
  s.buffer.status

/-- Notes a fault, unless the input has already stopped by an error. -/
def fault (s : Scanner) (f : Fault) : Scanner :=
  if s.status.isError then s else { s with buffer := { s.buffer with status := .malformed f } }

/-- Begins a line, if one is to begin. -/
def beginLine (s : Scanner) : Option Fault × Scanner :=
  if s.lineStart then
    let (column, buffer) := s.buffer.munch (columnPattern s.tabSize) 0
    let s := { s with lineStart := false, line := s.line + 1, buffer }
    if s.status.isError then (none, s)
    else
      let (indentation, fault) := s.indentation.enter s.maxIndent column
      (fault, { s with indentation })
  else (none, s)

/-- Takes what goes on as a pattern does, behind a byte at the place `start`. -/
def take {σ : Type} (s : Scanner) (start : Nat) (p : Pattern σ) (place : σ)
    (verdict : σ → Token.Kind ⊕ Fault) : Span × Scanner :=
  let (place, buffer) := s.buffer.munch p place
  let s := { s with buffer }
  match verdict place with
  | .inl kind => ({ kind, start, stop := buffer.cursor }, s)
  | .inr f => ({ kind := .error, start, stop := buffer.cursor }, s.fault f)

/-- What is handed out where no byte comes. -/
def atEnd (s : Scanner) (start : Nat) : Span × Scanner :=
  (.empty (if s.status = .endOfInput then .endMarker else .error) start, s)

/-- What is handed out behind the end of a line. -/
def endLine (s : Scanner) : Span × Scanner :=
  (.empty .newline (s.buffer.cursor - 1), { s with lineStart := true })

/-- Sets the tab size, if the comment that begins here says so. -/
def obeyComment (s : Scanner) : Scanner :=
  match TabDirective.parse? (s.buffer.bytes.drop s.buffer.cursor) with
  | some n => { s with tabSize := n.toUInt64 }
  | none => s

/-- Takes a comment behind its hash mark, and the end of its line. -/
def takeComment (s : Scanner) (start : Nat) : Span × Scanner :=
  let s := s.obeyComment
  let (_, buffer) := s.buffer.munch commentPattern ()
  match buffer.next with
  | (some _, buffer) => { s with buffer }.endLine
  | (none, buffer) => { s with buffer }.atEnd start

/-- Takes the token that begins with the byte in front of the cursor. -/
def takeToken (s : Scanner) (c : UInt8) : Span × Scanner :=
  let start := s.buffer.cursor - 1
  if c = '#'.toUInt8 then s.takeComment start
  else if Byte.beginsName c then s.take start namePattern () fun _ => .inl .name
  else if c = '\n'.toUInt8 then s.endLine
  else if c = '0'.toUInt8 then s.take start numberPattern .zero fun _ => .inl .number
  else if Byte.isDigit c then s.take start numberPattern .whole fun _ => .inl .number
  else if c = '\''.toUInt8 then
    s.take start stringPattern .inside fun place =>
      if place = .closed then .inl .string else .inr .unterminatedString
  else ({ kind := .ofByte c, start, stop := s.buffer.cursor }, s)

/-- Takes the space in front of a token, and the token. -/
def scanToken (s : Scanner) : Span × Scanner :=
  let ((place, newlines), buffer) := s.buffer.munch gapPattern.counting (.between, 0)
  let s := { s with buffer, line := s.line + newlines }
  if place.excess = 0 then
    match buffer.next with
    | (some c, buffer) => { s with buffer }.takeToken c
    | (none, buffer) => { s with buffer }.atEnd buffer.cursor
  else
    ({ kind := .error, start := buffer.cursor - place.excess, stop := buffer.cursor },
      s.fault .badContinuation)

/-- The next span. -/
def scan (s : Scanner) : Span × Scanner :=
  let (f, s) := s.beginLine
  match f with
  | some f => (.empty .error s.buffer.cursor, s.fault f)
  | none =>
    if s.status.isError then (.empty .error s.buffer.cursor, s)
    else match s.indentation.next? with
      | some (kind, indentation) => (.empty kind s.buffer.cursor, { s with indentation })
      | none => s.scanToken

/-- The next token. -/
def get (s : Scanner) : Token × Scanner :=
  if s.latched then ({ kind := .endMarker, text := "", line := s.line }, s)
  else
    let (x, s) := s.scan
    ({ kind := x.kind, text := Utf8.decode (s.buffer.slice x), line := s.line },
      { s with latched := decide (x.kind = .error) })

/-- The next token of a run, which ends after its first end marker. -/
def next? (s : Scanner) : Option (Token × Scanner) :=
  if s.finished then none
  else
    let (t, s) := s.get
    some (t, { s with finished := decide (t.kind = .endMarker) })

/-- Goes on after an interrupted read, as if at the beginning of the source. -/
def recover? (s : Scanner) : Option Scanner :=
  if s.status = .interrupted then
    some { s with
      buffer := s.buffer.restart
      indentation := {}
      lineStart := true
      latched := false
      finished := false }
  else none

/-- Interrupts the next read, if the source allows it. -/
def interrupt (s : Scanner) : Scanner :=
  { s with buffer := { s.buffer with source := s.buffer.source.interrupt } }

end Scanner

end ScriptCore.Lexer
