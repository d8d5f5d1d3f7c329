import ScriptCore.Token
import ScriptCore.Lexer.Input

/-!
# Indentation

A line that begins further to the right than the one before it opens a level,
and one that begins further to the left closes the levels right of it, down to
a level that begins exactly there. Each change of level is told by a token of
its own, one at a time.

Columns are counted in 64 bits: a space moves to the next column and a tab to
the next multiple of the tab size. The arithmetic is checked, and the program
breaks off at the first result that 64 bits do not hold (`measure?`); without
the checks it would go on with what they keep of it, as `columnPattern` does.
-/

namespace ScriptCore.Lexer

/-! ## Columns -/

/-- A number with 64 bits, if they hold it. -/
def checked? (n : Nat) : Option UInt64 :=
  if n < UInt64.size then some n.toUInt64 else none

/-- The column to which a blank leads from a column. -/
def nextColumn? (tabSize column : UInt64) (b : UInt8) : Option UInt64 :=
  if b = '\t'.toUInt8 then do
    let stop ← checked? ((column / tabSize).toNat + 1)
    checked? (stop.toNat * tabSize.toNat)
  else checked? (column.toNat + 1)

/-- The column behind the blanks at the beginning of a line. -/
def measure? (tabSize : UInt64) (blanks : Bytes) : Option UInt64 :=
  blanks.foldlM (nextColumn? tabSize) 0

/-- The blanks at the beginning of a line; the place is their column, or what 64
    bits keep of it. -/
def columnPattern (tabSize : UInt64) : Pattern UInt64 where
  step column b :=
    if b = ' '.toUInt8 then some (column + 1)
    else if b = '\t'.toUInt8 then some ((column / tabSize + 1) * tabSize)
    else none

/-! ## Levels -/

/-- The open levels and the tokens owed for them. -/
structure Indentation where
  /-- The columns of the open levels, the innermost first; outside of them all
      stands column 0. -/
  levels : List UInt64 := []
  /-- How many levels were opened and not yet told, or closed if negative. -/
  owed : Int := 0
  deriving DecidableEq, Repr

namespace Indentation

/-- The column of the innermost level. -/
def column (i : Indentation) : UInt64 :=
  i.levels.headD 0

/-- The number of open levels. -/
def depth (i : Indentation) : Nat :=
  i.levels.length

/-- The columns of all levels, the outermost first. -/
def stack (i : Indentation) : List UInt64 :=
  0 :: i.levels.reverse

/-- Closes the levels right of a column. -/
def closeTo (i : Indentation) (c : UInt64) : Indentation :=
  let levels := i.levels.dropWhile (c < ·)
  { levels, owed := i.owed - (i.levels.length - levels.length : Nat) }

/-- Begins a line at a column, where no more than `limit` levels may stand,
    the outermost one included. -/
def enter (i : Indentation) (limit : Nat) (c : UInt64) : Indentation × Option Fault :=
  if i.column < c then
    if limit ≤ i.depth + 1 then (i, some .excessiveIndent)
    else ({ levels := c :: i.levels, owed := i.owed + 1 }, none)
  else
    let j := i.closeTo c
    (j, if j.column = c then none else some .inconsistentDedent)

/-- The next token owed, and what is owed after it. -/
def next? (i : Indentation) : Option (Token.Kind × Indentation) :=
  if i.owed < 0 then some (.dedent, { i with owed := i.owed + 1 })
  else if 0 < i.owed then some (.indent, { i with owed := i.owed - 1 })
  else none

end Indentation

end ScriptCore.Lexer
