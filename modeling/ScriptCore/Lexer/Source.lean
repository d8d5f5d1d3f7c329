import ScriptCore.Utf8

/-!
# Sources of input

A source answers reads, each with some bytes or with a reason for giving none.
It is described by the answers still to come: all of a text at once
(`Source.ofBytes`), a text line by line (`Source.ofLines`), or any script of
answers. After its last answer a source is at its end. A source read line by
line can be interrupted: the interrupt waits for the next read, which it takes
the place of.
-/

namespace ScriptCore.Lexer

/-- The answer to one read. -/
inductive Read
  | bytes (bs : Bytes)
  | endOfInput
  | interrupted
  | failed (reason : String)
  deriving DecidableEq, Repr

/-- The number of bytes a read brings. -/
def Read.size : Read → Nat
  | bytes bs => bs.length
  | _ => 0

/-- A source of input: its answers to come, whether it can be interrupted, and
    whether an interrupt is waiting. -/
structure Source where
  reads : List Read
  interruptible : Bool := false
  interrupted : Bool := false
  deriving DecidableEq, Repr

namespace Source

/-- A text that comes in one read. -/
def ofBytes (bs : Bytes) : Source where
  reads := if bs = [] then [] else [.bytes bs]

/-- The lines of a text, each with the newline that ends it. -/
def lines : Bytes → List Bytes
  | [] => []
  | b :: bs =>
    if b = '\n'.toUInt8 then [b] :: lines bs
    else match lines bs with
      | [] => [[b]]
      | l :: ls => (b :: l) :: ls

/-- A text that comes line by line and can be interrupted. -/
def ofLines (bs : Bytes) : Source where
  reads := (lines bs).map .bytes
  interruptible := true

/-- The number of bytes still to come. -/
def size (s : Source) : Nat :=
  s.reads.foldr (fun r n => r.size + n) 0

/-- The number of reads that are still to be interrupted. -/
def pauses (s : Source) : Nat :=
  s.interrupted.toNat + s.reads.count .interrupted

/-- Reads once: the answer and the source after it. -/
def next (s : Source) : Read × Source :=
  if s.interrupted then (.interrupted, { s with interrupted := false })
  else match s.reads with
    | [] => (.endOfInput, s)
    | r :: rs => (r, { s with reads := rs })

/-- Interrupts the next read, if the source allows it. -/
def interrupt (s : Source) : Source :=
  { s with interrupted := s.interrupted || s.interruptible }

theorem size_next (s : Source) : s.next.1.size + s.next.2.size = s.size := by
  unfold next
  split
  · simp [Read.size, size]
  · split
    · next h => simp [Read.size, size, h]
    · next h => simp [size, h]

theorem flatten_lines (bs : Bytes) : (lines bs).flatten = bs := by
  induction bs with
  | nil => rfl
  | cons b bs ih =>
    simp only [lines]
    split
    · simp [ih]
    · split
      · next h => simp [h] at ih; simp [← ih]
      · next h => simp [h] at ih; simp [← ih]

end Source

end ScriptCore.Lexer
