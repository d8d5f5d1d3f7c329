import ScriptCore.Grammar

/-!
# Building grammars

A grammar is built in steps, which add rules, labels, states and arcs to it in
any order. Each step answers with what later steps can refer to its result by.
-/

namespace ScriptCore.Grammar

/-- A step in building a grammar. -/
inductive Edit
  | addRule (name : String)
  | addLabel (l : Label)
  | addState (symbol : Int)
  | addArc (symbol : Int) (source : Nat) (arc : Arc)
  deriving DecidableEq, Repr

/-- What a step answers. -/
inductive Edit.Answer
  /-- The symbol of the new rule. -/
  | symbol (n : Int)
  /-- The position of the label. -/
  | label (i : Nat)
  /-- The position of the new state, if the symbol has a rule. -/
  | state (i : Option Nat)
  /-- Whether the symbol has a rule. -/
  | arc (found : Bool)
  deriving DecidableEq, Repr

/-- Performs a step; one for a symbol that has no rule changes nothing. -/
def edit (g : Grammar) : Edit → Edit.Answer × Grammar
  | .addRule name => (.symbol (g.addRule name).1, (g.addRule name).2)
  | .addLabel l => (.label (g.addLabel l).1, (g.addLabel l).2)
  | .addState symbol => match g.changeRule? symbol (·.addState.2) with
    | some (r, g) => (.state r.addState.1, g)
    | none => (.state none, g)
  | .addArc symbol source arc => match g.changeRule? symbol (·.addArc source arc) with
    | some (_, g) => (.arc true, g)
    | none => (.arc false, g)

/-- Performs steps one after the other. -/
def editAll (g : Grammar) : List Edit → List Edit.Answer × Grammar
  | [] => ([], g)
  | e :: es => (((g.edit e).1 :: ((g.edit e).2.editAll es).1), ((g.edit e).2.editAll es).2)

end ScriptCore.Grammar
