import ScriptCore.Grammar

/-!
# Validity of grammar tables

A grammar is valid if every position in it is in range: each rule stands where
its symbol says and has its initial state, each arc has its label and its
target, each label of a rule on an arc has its rule, and the start symbol has
one unless there are no rules. `Grammar.validate` finds the first violation,
in the order of the tables.
-/

namespace ScriptCore.Grammar

/-- What can be wrong with a grammar. -/
inductive Error
  | misplaced (rule : String) (position : Nat) (symbol : Int)
  | noInitial (rule : String) (initial states : Nat)
  | unknownLabel (rule : String) (label : Nat)
  | noTarget (rule : String) (target : Nat)
  | undefinedSymbol (rule : String) (symbol : Int)
  | noStart (symbol : Int)
  | firstLength (rule : String) (bytes expected : Nat)
  | noRule (index : Nat)
  deriving DecidableEq, Repr

/-- What is said of an error. -/
def Error.detail : Error → String
  | misplaced rule position symbol => s!"DFA '{rule}' at position {position} has symbol {symbol}"
  | noInitial rule initial states => s!"DFA '{rule}' has initial state {initial} of {states}"
  | unknownLabel rule label => s!"DFA '{rule}' uses unknown label {label}"
  | noTarget rule target => s!"DFA '{rule}' has an arc to missing state {target}"
  | undefinedSymbol rule symbol => s!"DFA '{rule}' refers to undefined nonterminal {symbol}"
  | noStart symbol => s!"start symbol {symbol} has no DFA"
  | firstLength rule bytes expected =>
    s!"DFA '{rule}' has a {bytes}-byte FIRST set, expected {expected}"
  | noRule index => s!"no DFA at index {index}"

/-- How an error is shown. -/
def Error.message (e : Error) : String :=
  "Grammar error: " ++ e.detail

/-- What is wrong with an arc of a rule, if anything. -/
def arcError? (g : Grammar) (r : Rule) (a : Arc) : Option Error :=
  match g.labels[a.label]? with
  | none => some (.unknownLabel r.name a.label)
  | some l =>
    if r.states.length ≤ a.target then some (.noTarget r.name a.target)
    else if !l.isTerminal && (g.findRule? l.symbol).isNone then
      some (.undefinedSymbol r.name l.symbol)
    else none

/-- What is wrong with the rule at a position, if anything. -/
def ruleError? (g : Grammar) (r : Rule) (i : Nat) : Option Error :=
  if ruleIndex? r.symbol ≠ some i then some (.misplaced r.name i r.symbol)
  else if r.states.length ≤ r.initial then some (.noInitial r.name r.initial r.states.length)
  else r.arcs.findSome? (g.arcError? r)

/-- What is wrong with the start symbol, if anything. -/
def startError? (g : Grammar) : Option Error :=
  if (g.findRule? g.start).isNone && !g.rules.isEmpty then some (.noStart g.start) else none

/-- The first thing wrong with a grammar, if anything. -/
def error? (g : Grammar) : Option Error :=
  (g.rules.zipIdx.findSome? fun (r, i) => g.ruleError? r i).or g.startError?

/-- Whether a grammar is valid, or why not. -/
def validate (g : Grammar) : Except Error Unit :=
  match g.error? with
  | some e => .error e
  | none => .ok ()

end ScriptCore.Grammar
