import ScriptCore.Grammar.Validity
import ScriptCore.Json.Printer
import ScriptCore.Json.Reader

/-!
# Grammars in JSON

A grammar is written as a JSON object, field by field; a first set is the word
`Unset` or `InProgress`, or the bytes of the set under `Done`. A grammar that
is read must be valid. A rule may leave out its first set, and a label its
literal.
-/

namespace ScriptCore.Grammar

/-! ## Writing -/

/-- A JSON object with texts as names. -/
def fields (fs : List (String × Json)) : Json :=
  .object (fs.map fun (name, j) => (name.toList.map .char, j))

/-- An arc as JSON. -/
def Arc.toJson (a : Arc) : Json :=
  fields [("label", .ofNat a.label), ("target", .ofNat a.target)]

/-- A first set as JSON. -/
def First.toJson : First → Json
  | unset => .ofString "Unset"
  | inProgress => .ofString "InProgress"
  | done set => fields [("Done", set.toJson)]

/-- A rule as JSON. -/
def Rule.toJson (r : Rule) : Json :=
  fields [("symbol", .ofInt r.symbol), ("name", .ofString r.name), ("initial", .ofNat r.initial),
    ("states", .array (r.states.map fun s => fields [("arcs", .array (s.map Arc.toJson))])),
    ("first", r.first.toJson)]

/-- A label as JSON. -/
def Label.toJson (l : Label) : Json :=
  fields [("ty", .ofInt l.symbol),
    ("literal", match l.literal with
      | some s => .ofString s
      | none => .null)]

/-- A grammar as JSON. -/
def toJson (g : Grammar) : Json :=
  fields [("dfas", .array (g.rules.map Rule.toJson)),
    ("labels", .array (g.labels.map Label.toJson)), ("start", .ofInt g.start)]

/-- The text of a grammar. -/
def toText (g : Grammar) : String :=
  g.toJson.render .lines

/-! ## Reading -/

/-- A position or number: a natural number of 64 bits. -/
def position? (j : Json) : Option Nat :=
  j.natUpTo? (UInt64.size - 1)

/-- A symbol: an integer of 32 bits. -/
def symbol? (j : Json) : Option Int :=
  j.intWithin? Int32.minValue.toInt Int32.maxValue.toInt

/-- An arc from JSON. -/
def Arc.ofJson? (j : Json) : Option Arc := do
  let [label, target] ← j.record? ["label", "target"] 2 | none
  return ⟨← position? (← label), ← position? (← target)⟩

/-- A state from JSON. -/
def stateOfJson? (j : Json) : Option State := do
  let [arcs] ← j.record? ["arcs"] 1 | none
  (← arcs).listOf? Arc.ofJson?

/-- A first set from JSON: a word, or the one field of an object. -/
def First.ofJson? (j : Json) : Option First :=
  match j with
  | .object [(name, value)] =>
    match Json.Symbol.text? name, value with
    | some "Unset", .null => some .unset
    | some "InProgress", .null => some .inProgress
    | some "Done", value => (BitSet.ofJson? value).map .done
    | _, _ => none
  | j => match j.text? with
    | some "Unset" => some .unset
    | some "InProgress" => some .inProgress
    | _ => none

/-- A rule from JSON. -/
def Rule.ofJson? (j : Json) : Option Rule := do
  let [symbol, name, initial, states, first] ←
    j.record? ["symbol", "name", "initial", "states", "first"] 4 | none
  return {
    symbol := ← symbol? (← symbol)
    name := ← (← name).text?
    initial := ← position? (← initial)
    states := ← (← states).listOf? stateOfJson?
    first := ← match first with
      | some first => First.ofJson? first
      | none => some .unset }

/-- The literal of a label from JSON. -/
def literalOfJson? : Json → Option (Option String)
  | .null => some none
  | j => j.text?.map some

/-- A label from JSON. -/
def Label.ofJson? (j : Json) : Option Label := do
  let [symbol, literal] ← j.record? ["ty", "literal"] 2 | none
  return ⟨← symbol? (← symbol), ← literalOfJson? (literal.getD .null)⟩

/-- A grammar from JSON, valid or not. -/
def ofJson? (j : Json) : Option Grammar := do
  let [rules, labels, start] ← j.record? ["dfas", "labels", "start"] 3 | none
  return {
    rules := ← (← rules).listOf? Rule.ofJson?
    labels := ← (← labels).listOf? Label.ofJson?
    start := ← symbol? (← start) }

/-- Why a text is no grammar: it is not the JSON of one, or the grammar is not
    valid. -/
inductive LoadError
  | malformed
  | invalid (error : Error)
  deriving DecidableEq, Repr

/-- The valid grammar that a text spells. -/
def ofText (text : String) : Except LoadError Grammar :=
  match (Json.read? text).bind ofJson? with
  | none => .error .malformed
  | some g =>
    match g.validate with
    | .ok () => .ok g
    | .error e => .error (.invalid e)

end ScriptCore.Grammar
