import ScriptCore.Grammar.Validity

/-!
# First sets

The first set of a rule holds the terminal labels that a text of the rule can
begin with: those on its initial state, and the first sets of the rules whose
labels are there. Sets are computed rule by rule, each after the rules it
needs, and kept with the rules; a rule that is met while its own set is under
way begins with itself, which is reported, and adds nothing.
-/

namespace ScriptCore.Grammar

/-- A report that a rule can begin with itself: its symbol and name, and the
    rule on whose initial state it was met. -/
structure LeftRecursion where
  symbol : Int
  name : String
  below : String
  deriving DecidableEq, Repr

/-- A computation of first sets under way: the grammar, and the reports. -/
structure Survey where
  grammar : Grammar
  reports : List LeftRecursion := []
  deriving DecidableEq, Repr

namespace Survey

/-- Sets what is known of the first set of the rule at a position. -/
def mark (s : Survey) (i : Nat) (first : First) : Survey :=
  { s with grammar := s.grammar.modifyRule i fun r => { r with first } }

/-- Adds a report. -/
def report (s : Survey) (x : LeftRecursion) : Survey :=
  { s with reports := s.reports ++ [x] }

/-- Whether nothing is known of the first set of the rule at a position. -/
def isUnset (s : Survey) (i : Nat) : Bool :=
  s.grammar.rules[i]?.any (·.first = .unset)

/-- Adds to a set what the labels of a rule stand for. The sets of other rules
    are computed by `visit` where they are not known. -/
def collect (visit : Nat → Survey → Except Error Unit × Survey) (r : Rule) :
    List Nat → BitSet → Survey → Except Error BitSet × Survey
  | [], set, s => (.ok set, s)
  | i :: is, set, s =>
    match s.grammar.labels[i]? with
    | none => (.error (.unknownLabel r.name i), s)
    | some l =>
      if l.isTerminal then collect visit r is (set.insert i) s
      else match s.grammar.findIndex? l.symbol with
        | none => (.error (.undefinedSymbol r.name l.symbol), s)
        | some j =>
          match if s.isUnset j then visit j s else (.ok (), s) with
          | (.error e, s) => (.error e, s)
          | (.ok (), s) =>
            match s.grammar.rules[j]? with
            | some { first := .done other, .. } =>
              collect visit r is (set.merge other s.grammar.labels.length) s
            | some { first := .inProgress, name, .. } =>
              collect visit r is set (s.report ⟨l.symbol, name, r.name⟩)
            | _ => collect visit r is set s

/-- Computes the first set of the rule at a position, and of the rules it
    needs, to the depth `n`. A rule whose set cannot be computed stays under
    way. -/
def visit : Nat → Nat → Survey → Except Error Unit × Survey
  | 0, _, s => (.ok (), s)
  | n + 1, i, s =>
    match s.grammar.rules[i]? with
    | none => (.ok (), s)
    | some r =>
      match collect (visit n) r r.initialLabels (.empty s.grammar.labels.length)
          (s.mark i .inProgress) with
      | (.error e, s) => (.error e, s)
      | (.ok set, s) => (.ok (), s.mark i (.done set))

/-- Computes the first sets of the rules at some positions in turn, where they
    are not known. Every rule on the way to another is under way itself, so
    the depth is at most the number of rules. -/
def visitAll : List Nat → Survey → Except Error Unit × Survey
  | [], s => (.ok (), s)
  | i :: is, s =>
    if s.grammar.rules.length ≤ i then (.error (.noRule i), s)
    else if s.isUnset i then
      match visit s.grammar.rules.length i s with
      | (.error e, s) => (.error e, s)
      | (.ok (), s) => visitAll is s
    else visitAll is s

end Survey

/-- Computes the first sets of the rules at some positions in turn: the reports
    or the error, and the grammar with what was computed. -/
def addFirstsInOrder (g : Grammar) (order : List Nat) :
    Except Error (List LeftRecursion) × Grammar :=
  match Survey.visitAll order { grammar := g } with
  | (.ok (), s) => (.ok s.reports, s.grammar)
  | (.error e, s) => (.error e, s.grammar)

/-- Computes the first sets of all rules in their order. -/
def addFirsts (g : Grammar) : Except Error (List LeftRecursion) × Grammar :=
  g.addFirstsInOrder (List.range g.rules.length)

/-- Forgets all first sets. -/
def clearFirsts (g : Grammar) : Grammar :=
  { g with rules := g.rules.map fun r => { r with first := .unset } }

/-- The first set of the rule of a symbol, if it is known. -/
def firstSet? (g : Grammar) (symbol : Int) : Option BitSet :=
  (g.findRule? symbol).bind (·.first.set?)

end ScriptCore.Grammar
