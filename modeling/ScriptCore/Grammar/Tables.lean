import ScriptCore.Grammar.Validity

/-!
# Grammars from tables

Tables made by a generator become a grammar as they are: no label is left out
or moved. A first set that comes with a rule must be as long as the label
table asks for. `metaGrammar` is the grammar that grammars are written in.
-/

namespace ScriptCore.Grammar

/-- The table of a rule; the first set may come as its bytes. -/
structure RuleTable where
  symbol : Int
  name : String
  initial : Nat
  states : List State
  first : Option Bytes := none
  deriving DecidableEq, Repr

/-- The rule of a table in a grammar with `n` labels. -/
def RuleTable.toRule (n : Nat) (t : RuleTable) : Except Error Rule :=
  let rule : Rule :=
    { symbol := t.symbol, name := t.name, initial := t.initial, states := t.states }
  match t.first with
  | none => .ok rule
  | some bytes =>
    if bytes.length = BitSet.width n then .ok { rule with first := .done ⟨bytes⟩ }
    else .error (.firstLength t.name bytes.length (BitSet.width n))

/-- The grammar of tables, if they are valid. -/
def ofTables (tables : List RuleTable) (labels : List Label) (start : Int) :
    Except Error Grammar := do
  let rules ← tables.mapM (RuleTable.toRule labels.length)
  let g : Grammar := { rules, labels, start }
  g.validate
  return g

/-- The tables of the rules of the grammar of grammars. A text is a list of
    rules; a rule has a name and a right-hand side of alternatives; an
    alternative is a row of items, which are atoms, optional parts in square
    brackets, or repetitions; an atom is a name, a string, or a right-hand side
    in parentheses. -/
def metaTables : List RuleTable :=
  [{ symbol := 256, name := "MSTART", initial := 0, first := some [0x38, 0x00, 0x00]
     states := [[⟨2, 0⟩, ⟨3, 0⟩, ⟨4, 1⟩], [⟨0, 1⟩]] },
   { symbol := 257, name := "RULE", initial := 0, first := some [0x20, 0x00, 0x00]
     states := [[⟨5, 1⟩], [⟨6, 2⟩], [⟨7, 3⟩], [⟨3, 4⟩], [⟨0, 4⟩]] },
   { symbol := 258, name := "RHS", initial := 0, first := some [0x20, 0x08, 0x03]
     states := [[⟨8, 1⟩], [⟨9, 0⟩, ⟨0, 1⟩]] },
   { symbol := 259, name := "ALT", initial := 0, first := some [0x20, 0x08, 0x03]
     states := [[⟨10, 1⟩], [⟨10, 1⟩, ⟨0, 1⟩]] },
   { symbol := 260, name := "ITEM", initial := 0, first := some [0x20, 0x08, 0x03]
     states := [[⟨11, 1⟩, ⟨13, 2⟩], [⟨7, 3⟩], [⟨14, 4⟩, ⟨15, 4⟩, ⟨0, 2⟩], [⟨12, 4⟩], [⟨0, 4⟩]] },
   { symbol := 261, name := "ATOM", initial := 0, first := some [0x20, 0x00, 0x03]
     states := [[⟨5, 1⟩, ⟨16, 1⟩, ⟨17, 2⟩], [⟨0, 1⟩], [⟨7, 3⟩], [⟨18, 1⟩]] }]

/-- The labels of the grammar of grammars. -/
def metaLabels : List Label :=
  { symbol := 0, literal := some "EMPTY" } ::
    [256, 257, 4, 0, 1, 11, 258, 259, 18, 260, 9, 10, 261, 16, 14, 3, 7, 8].map
      fun symbol => { symbol, literal := none }

/-- The grammar that grammars are written in. -/
def metaGrammar : Grammar where
  rules := metaTables.map fun t =>
    { symbol := t.symbol
      name := t.name
      initial := t.initial
      states := t.states
      first := match t.first with
        | some bytes => .done ⟨bytes⟩
        | none => .unset }
  labels := metaLabels
  start := 256

end ScriptCore.Grammar
