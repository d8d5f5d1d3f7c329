import ScriptCore.Lexer.Pattern
import ScriptCore.Lexer.Source

/-!
# Buffered input

The lexer looks one byte ahead and takes bytes one at a time. The input keeps
what was read and not yet taken, reads more only when that is used up and
another byte is asked for, and stops reading for good once a read brings none.

With prompts, the input is a dialogue: a prompt is shown before a read that
begins a line. The first one is shown at the start, the other one from the
second line on; when the input ends or fails, a newline is shown in the place
of the next prompt.

`munch` takes the longest run of bytes that a pattern accepts, and looks no
further than it must: where the pattern is complete, no byte is asked for.

Nothing here depends on where the bytes are kept that were taken. A program that
reads into a buffer keeps them there until the buffer is used up and ends with a
newline; no token goes on behind a newline, so each token is in the buffer as a
whole. `Buffer` is such input, with `Buffer.input` as its view, and
`Scanner.calls_eq` says that a lexer with a buffer hands out the same.
-/

namespace ScriptCore.Lexer

/-- What is wrong with a text that has no tokens. -/
inductive Fault
  | excessiveIndent
  | inconsistentDedent
  | unterminatedString
  | badContinuation
  deriving DecidableEq, Repr

/-- How a fault is shown. -/
def Fault.message : Fault → String
  | excessiveIndent => "excessive indent"
  | inconsistentDedent => "inconsistent dedent"
  | unterminatedString => "unterminated string literal"
  | badContinuation => "backslash not followed by end of line"

/-- How reading and lexing stand. Bytes are taken only while this is `ok`. There is
    always room for what is read, so nothing here tells that memory ran out. -/
inductive Status
  | ok
  | endOfInput
  | interrupted
  | malformed (fault : Fault)
  | failed (reason : String)
  deriving DecidableEq, Repr

namespace Status

/-- Whether lexing cannot go on, other than by the end of the input. -/
def isError : Status → Bool
  | ok | endOfInput => false
  | _ => true

/-- How a status is shown. -/
def message : Status → String
  | ok => "ok"
  | endOfInput => "end of input"
  | interrupted => "interrupted"
  | malformed fault => fault.message
  | failed reason => "read error: " ++ reason

end Status

/-- The prompts of a dialogue: for its first line and for the later ones. -/
structure Prompts where
  first : Option String := none
  later : Option String := none
  deriving DecidableEq, Repr

/-- Input as the lexer sees it. -/
structure Input where
  source : Source
  /-- The prompts to show. -/
  prompts : Prompts := {}
  /-- The prompt that is due before the next line. -/
  due : Option String := prompts.first
  /-- What was shown so far. -/
  shown : List String := []
  /-- What was read and not yet taken. -/
  pending : Bytes := []
  /-- Whether the byte taken last left a line unfinished. -/
  midLine : Bool := false
  status : Status := .ok
  deriving DecidableEq, Repr

namespace Input

/-- The number of bytes that may still be taken. -/
def remaining (i : Input) : Nat :=
  i.pending.length + i.source.size

/-- Shows the prompt that is due, if a line begins here. -/
def showPrompt (i : Input) : Input :=
  if i.midLine then i
  else match i.due with
    | some p => { i with shown := i.shown ++ [p], due := i.prompts.later }
    | none => i

/-- Stops reading; in a dialogue, the line of the prompt is ended. -/
def stop (i : Input) (s : Status) : Input :=
  { i with
    status := s
    shown := if i.due.isSome then i.shown ++ ["\n"] else i.shown }

/-- What one answer of the source makes of the input. -/
def receive (i : Input) : Read → Input
  | .bytes [] | .endOfInput => i.stop .endOfInput
  | .bytes (b :: bs) => { i with pending := b :: bs }
  | .interrupted => i.stop .interrupted
  | .failed reason => i.stop (.failed reason)

/-- Reads, if no byte is at hand and reading has not stopped. -/
def fill (i : Input) : Input :=
  match i.status, i.pending with
  | .ok, [] =>
    let r := i.source.next
    { i.showPrompt with source := r.2 }.receive r.1
  | _, _ => i

/-- The byte at hand. -/
def head? (i : Input) : Option UInt8 :=
  if i.status = .ok then i.pending.head? else none

/-- Takes the byte at hand. -/
def advance (i : Input) : Input :=
  match i.pending with
  | [] => i
  | b :: bs => { i with pending := bs, midLine := b ≠ '\n'.toUInt8 }

/-- Forgets what was read and goes on after an interrupted read, at the
    beginning of a dialogue. -/
def restart (i : Input) : Input :=
  { i with status := .ok, pending := [], midLine := false, due := i.prompts.first }

theorem remaining_receive (i : Input) (r : Read) (h : i.pending = []) :
    (i.receive r).remaining = i.remaining + r.size := by
  cases r with
  | bytes bs =>
    cases bs <;> simp [receive, stop, remaining, Read.size, h]
    omega
  | _ => simp [receive, stop, remaining, Read.size]

theorem pending_showPrompt (i : Input) : i.showPrompt.pending = i.pending := by
  unfold showPrompt
  split
  · rfl
  · split <;> rfl

theorem source_showPrompt (i : Input) : i.showPrompt.source = i.source := by
  unfold showPrompt
  split
  · rfl
  · split <;> rfl

/-- Reading neither loses bytes nor makes any. -/
theorem remaining_fill (i : Input) : i.fill.remaining = i.remaining := by
  unfold fill
  split
  · next hp =>
    have h := i.source.size_next
    rw [remaining_receive _ _ (by simpa [pending_showPrompt] using hp)]
    simp only [remaining, pending_showPrompt, hp]
    omega
  · rfl

theorem remaining_advance {i : Input} {b : UInt8} (h : i.head? = some b) :
    i.advance.remaining + 1 = i.remaining := by
  unfold head? at h
  split at h
  · cases hp : i.pending with
    | nil => simp [hp] at h
    | cons c bs => simp [advance, remaining, hp]; omega
  · cases h

/-- Takes the longest run of bytes that a pattern accepts from the place `s`:
    the run, the place it ends at, and the input after it. -/
def munch {σ : Type} (p : Pattern σ) (s : σ) (i : Input) : Bytes × σ × Input :=
  if p.isComplete s then ([], s, i)
  else
    match _h : i.fill.head? with
    | none => ([], s, i.fill)
    | some b =>
      match p.step s b with
      | none => ([], s, i.fill)
      | some s' =>
        let r := munch p s' i.fill.advance
        (b :: r.1, r.2)
  termination_by i.remaining
  decreasing_by
    have h₁ := remaining_advance _h
    have h₂ := remaining_fill i
    omega

end Input

end ScriptCore.Lexer
