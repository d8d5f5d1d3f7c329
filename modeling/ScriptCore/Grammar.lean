import ScriptCore.BitSet
import ScriptCore.Token

/-!
# Grammar tables

A grammar has a rule for each nonterminal symbol, and a table of labels that
the rules share. A rule is a finite automaton: its states have arcs to other
states of the rule, and an arc bears a label, which is a kind of token or the
symbol of a rule. Rules are numbered from 0, and rule `i` has the symbol
`Token.firstRule + i`; smaller symbols are the numbers of kinds of token.

Rules, states and labels refer to each other by their positions, and nothing
keeps these in range: `Grammar.validate` tells whether they are.
-/

namespace ScriptCore

namespace Grammar

/-- What an arc may bear: a kind of token or the symbol of a rule, perhaps with
    a literal. -/
structure Label where
  symbol : Int
  literal : Option String
  deriving DecidableEq, Repr

/-- Whether a label stands for a token, not a rule. -/
def Label.isTerminal (l : Label) : Bool :=
  l.symbol < Token.firstRule

/-- An arc: the position of its label, and the state it leads to. -/
structure Arc where
  label : Nat
  target : Nat
  deriving DecidableEq, Repr

/-- A state: the arcs that leave it. -/
abbrev State := List Arc

/-- What is known of the labels that a rule can begin with. -/
inductive First
  | unset
  | inProgress
  | done (set : BitSet)
  deriving DecidableEq, Repr

/-- The set, if it is known. -/
def First.set? : First → Option BitSet
  | done set => some set
  | _ => none

/-- A rule. -/
structure Rule where
  symbol : Int
  name : String
  initial : Nat := 0
  states : List State := []
  first : First := .unset
  deriving DecidableEq, Repr

/-- The arcs of all states, in order. -/
def Rule.arcs (r : Rule) : List Arc :=
  r.states.flatten

/-- The labels on the initial state, each once, in order. -/
def Rule.initialLabels (r : Rule) : List Nat :=
  match r.states[r.initial]? with
  | some arcs => (arcs.map (·.label)).eraseDups
  | none => []

/-- A rule with a new state, and the position of that state. -/
def Rule.addState (r : Rule) : Nat × Rule :=
  (r.states.length, { r with states := r.states ++ [[]] })

/-- A rule with a new arc; nothing is added to a state that does not exist. -/
def Rule.addArc (r : Rule) (source : Nat) (arc : Arc) : Rule :=
  { r with states := r.states.modify source (· ++ [arc]) }

end Grammar

/-- A grammar: its rules, its labels, and the symbol that parsing begins with. -/
structure Grammar where
  rules : List Grammar.Rule := []
  labels : List Grammar.Label := []
  start : Int
  deriving DecidableEq, Repr

namespace Grammar

/-- The symbol of the rule at a position. Symbols have 32 bits, so that with too many
    rules they start over from the least one. -/
def ruleSymbol (i : Nat) : Int :=
  (Int32.ofInt (Token.firstRule + i)).toInt

/-- The position that the rule of a symbol has. -/
def ruleIndex? (symbol : Int) : Option Nat :=
  if Token.firstRule ≤ symbol then some (symbol - Token.firstRule).toNat else none

/-- The position of the rule of a symbol, if it stands where it belongs. -/
def findIndex? (g : Grammar) (symbol : Int) : Option Nat :=
  (ruleIndex? symbol).filter fun i => g.rules[i]?.any (·.symbol = symbol)

/-- The rule of a symbol, if it stands where it belongs. -/
def findRule? (g : Grammar) (symbol : Int) : Option Rule :=
  (g.findIndex? symbol).bind (g.rules[·]?)

/-- A grammar with a new rule for the next symbol, and that symbol. -/
def addRule (g : Grammar) (name : String) : Int × Grammar :=
  let symbol := ruleSymbol g.rules.length
  (symbol, { g with rules := g.rules ++ [{ symbol, name }] })

/-- A grammar with the rule at a position changed. -/
def modifyRule (g : Grammar) (i : Nat) (f : Rule → Rule) : Grammar :=
  { g with rules := g.rules.modify i f }

/-- The rule of a symbol as it was, and the grammar with it changed. -/
def changeRule? (g : Grammar) (symbol : Int) (f : Rule → Rule) : Option (Rule × Grammar) := do
  let i ← g.findIndex? symbol
  let r ← g.rules[i]?
  return (r, g.modifyRule i f)

/-- The first position of a label. -/
def findLabel? (g : Grammar) (l : Label) : Option Nat :=
  g.labels.findIdx? (· = l)

/-- The position of a label, which is added if it is new. -/
def addLabel (g : Grammar) (l : Label) : Nat × Grammar :=
  match g.findLabel? l with
  | some i => (i, g)
  | none => (g.labels.length, { g with labels := g.labels ++ [l] })

/-- How a label is shown: the name of its rule or of its kind of token, with
    its literal. A literal on the end marker makes it the empty label. -/
def renderLabel (g : Grammar) (l : Label) : String :=
  if l.symbol = Token.Kind.endMarker.code ∧ l.literal.isSome then "EMPTY"
  else if l.isTerminal then
    let kind := match Token.Kind.ofCode? l.symbol with
      | some k => k.label
      | none => "<unknown>"
    match l.literal with
    | some literal => kind ++ "(" ++ literal ++ ")"
    | none => kind
  else match l.literal, g.findRule? l.symbol with
    | some literal, _ => literal
    | none, some r => r.name
    | none, none => "NT" ++ toString l.symbol

/-- How a set of labels is shown; positions without a label are left out. -/
def renderSet (g : Grammar) (s : BitSet) : String :=
  "\x7b " ++ String.join ((s.toList.filterMap (g.labels[·]?)).map fun l => g.renderLabel l ++ " ")
    ++ "\x7d"

end Grammar

end ScriptCore
