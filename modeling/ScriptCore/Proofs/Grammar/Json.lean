import ScriptCore.Grammar.Json
import ScriptCore.Proofs.Json.Text
import ScriptCore.Proofs.Json.Values

/-!
# Grammars read back from JSON

A grammar whose positions and symbols fit into words is read back from its text, if it is valid;
if it is not, the text is refused for what is wrong with the grammar.

* `BitSet.ofJson?_toJson`: sets are read back, of whatever length.
* `Grammar.Sized`: the positions and symbols of a grammar fit into words.
* `Grammar.ofJson?_toJson`: a grammar is found again in its JSON value, valid or not.
* `Grammar.ofText_of_read`, `Grammar.ofText_toText`: what becomes of the text of a grammar.
-/

namespace ScriptCore

open Json

/-! ## Sets -/

namespace BitSet

theorem plain_toJson (s : BitSet) : s.toJson.Plain :=
  .array (List.forall_mem_map.2 fun b _ => .natural b.toNat)

theorem ofJson?_toJson (s : BitSet) : ofJson? s.toJson = some s := by
  have hbyte : ∀ b ∈ s.bytes, ((ofNat b.toNat).natUpTo? 255).map Nat.toUInt8 = some b :=
    fun b _ => by
      rw [natUpTo?_ofNat (Nat.le_of_lt_succ b.toNat_lt), Option.map_some]
      exact congrArg some (UInt8.ofNat_toNat)
  rw [ofJson?, toJson, listOf?_array hbyte, Option.map_some]

end BitSet

namespace Grammar

theorem plain_fields {fs : List (String × Json)} (h : ∀ f ∈ fs, f.2.Plain) : (fields fs).Plain :=
  .object h

/-! ## Words -/

/-- Whether a position fits into a word of 64 bits. -/
def IsPosition (n : Nat) : Prop := n < UInt64.size

/-- Whether a symbol fits into a word of 32 bits. -/
def IsSymbol (n : Int) : Prop := Int32.minValue.toInt ≤ n ∧ n ≤ Int32.maxValue.toInt

instance (n : Nat) : Decidable (IsPosition n) :=
  inferInstanceAs (Decidable (n < UInt64.size))

instance (n : Int) : Decidable (IsSymbol n) :=
  inferInstanceAs (Decidable (Int32.minValue.toInt ≤ n ∧ n ≤ Int32.maxValue.toInt))

theorem position?_ofNat {n : Nat} (h : IsPosition n) : position? (ofNat n) = some n :=
  natUpTo?_ofNat (Nat.le_pred_of_lt h)

theorem symbol?_ofInt {n : Int} (h : IsSymbol n) : symbol? (ofInt n) = some n :=
  intWithin?_ofInt h

/-- Whether the symbol of a rule fits into a word, and the positions in it. -/
structure Rule.Sized (r : Rule) : Prop where
  symbol : IsSymbol r.symbol
  initial : IsPosition r.initial
  arcs : ∀ s ∈ r.states, ∀ a ∈ s, IsPosition a.label ∧ IsPosition a.target

instance (r : Rule) : Decidable r.Sized :=
  decidable_of_iff (IsSymbol r.symbol ∧ IsPosition r.initial ∧
    ∀ s ∈ r.states, ∀ a ∈ s, IsPosition a.label ∧ IsPosition a.target)
    ⟨fun ⟨hs, hi, ha⟩ => ⟨hs, hi, ha⟩, fun ⟨hs, hi, ha⟩ => ⟨hs, hi, ha⟩⟩

/-- Whether the symbols of a grammar fit into words, and the positions in it. -/
structure Sized (g : Grammar) : Prop where
  rules : ∀ r ∈ g.rules, r.Sized
  labels : ∀ l ∈ g.labels, IsSymbol l.symbol
  start : IsSymbol g.start

instance (g : Grammar) : Decidable g.Sized :=
  decidable_of_iff ((∀ r ∈ g.rules, r.Sized) ∧ (∀ l ∈ g.labels, IsSymbol l.symbol) ∧
    IsSymbol g.start)
    ⟨fun ⟨hr, hl, hs⟩ => ⟨hr, hl, hs⟩, fun ⟨hr, hl, hs⟩ => ⟨hr, hl, hs⟩⟩

/-! ## The parts of a grammar -/

theorem Arc.plain_toJson (a : Arc) : a.toJson.Plain :=
  plain_fields (List.forall_mem_cons.2
    ⟨.natural a.label, List.forall_mem_singleton.2 (.natural a.target)⟩)

theorem Arc.ofJson?_toJson {a : Arc} (ha : IsPosition a.label ∧ IsPosition a.target) :
    Arc.ofJson? a.toJson = some a := by
  have hrecord : a.toJson.record? ["label", "target"] 2 =
      some [some (ofNat a.label), some (ofNat a.target)] := record?_object (by rfl) (by decide) 2
  rw [Arc.ofJson?, hrecord]
  dsimp only [Option.bind_eq_bind, Option.bind_some]
  rw [position?_ofNat ha.1, position?_ofNat ha.2]
  rfl

/-- A state as JSON. -/
def stateToJson (s : State) : Json :=
  fields [("arcs", .array (s.map Arc.toJson))]

theorem plain_stateToJson (s : State) : (stateToJson s).Plain :=
  plain_fields (List.forall_mem_singleton.2
    (.array (List.forall_mem_map.2 fun a _ => a.plain_toJson)))

theorem stateOfJson?_stateToJson {s : State}
    (hs : ∀ a ∈ s, IsPosition a.label ∧ IsPosition a.target) :
    stateOfJson? (stateToJson s) = some s := by
  have hrecord : (stateToJson s).record? ["arcs"] 1 = some [some (.array (s.map Arc.toJson))] :=
    record?_object (by rfl) (by decide) 1
  rw [stateOfJson?, hrecord]
  exact listOf?_array fun a ha => Arc.ofJson?_toJson (hs a ha)

theorem First.plain_toJson (f : First) : f.toJson.Plain := by
  cases f with
  | unset => exact .string "Unset"
  | inProgress => exact .string "InProgress"
  | done set => exact plain_fields (List.forall_mem_singleton.2 set.plain_toJson)

theorem First.ofJson?_toJson (f : First) : First.ofJson? f.toJson = some f := by
  cases f with
  | unset =>
    rw [First.toJson, First.ofJson?, text?_ofString]
    · rfl
    · nofun
  | inProgress =>
    rw [First.toJson, First.ofJson?, text?_ofString]
    · rfl
    · nofun
  | done set =>
    rw [First.toJson, fields, List.map_singleton, First.ofJson?]
    · exact congrArg (Option.map First.done) set.ofJson?_toJson
    · exact Symbol.text?_char "Done"

theorem Rule.plain_toJson (r : Rule) : r.toJson.Plain := by
  refine plain_fields ?_
  simp only [List.forall_mem_cons]
  exact ⟨.integer _, .string _, .natural _,
    .array (List.forall_mem_map.2 fun s _ => plain_stateToJson s), r.first.plain_toJson, nofun⟩

theorem Rule.ofJson?_toJson {r : Rule} (hr : r.Sized) : Rule.ofJson? r.toJson = some r := by
  have hrecord : r.toJson.record? ["symbol", "name", "initial", "states", "first"] 4 =
      some [some (ofInt r.symbol), some (ofString r.name), some (ofNat r.initial),
        some (.array (r.states.map stateToJson)), some r.first.toJson] :=
    record?_object (by rfl) (by decide) 4
  have hstates : (Json.array (r.states.map stateToJson)).listOf? stateOfJson? = some r.states :=
    listOf?_array fun s hs => stateOfJson?_stateToJson (hr.arcs s hs)
  rw [Rule.ofJson?, hrecord]
  dsimp only [Option.bind_eq_bind, Option.bind_some]
  rw [symbol?_ofInt hr.symbol, text?_ofString, position?_ofNat hr.initial, hstates,
    First.ofJson?_toJson]
  rfl

theorem Label.plain_toJson (l : Label) : l.toJson.Plain := by
  refine plain_fields (List.forall_mem_cons.2 ⟨.integer _, List.forall_mem_singleton.2 ?_⟩)
  cases l.literal with
  | some s => exact .string s
  | none => exact .null

theorem literalOfJson?_ofString (s : String) : literalOfJson? (ofString s) = some (some s) := by
  rw [literalOfJson?, text?_ofString, Option.map_some]
  nofun

theorem Label.ofJson?_toJson {l : Label} (hl : IsSymbol l.symbol) :
    Label.ofJson? l.toJson = some l := by
  obtain ⟨symbol, literal⟩ := l
  cases literal with
  | none =>
    have hrecord : (Label.mk symbol none).toJson.record? ["ty", "literal"] 2 =
        some [some (ofInt symbol), some .null] := record?_object (by rfl) (by decide) 2
    rw [Label.ofJson?, hrecord]
    dsimp only [Option.bind_eq_bind, Option.bind_some, Option.getD_some]
    rw [symbol?_ofInt hl]
    rfl
  | some s =>
    have hrecord : (Label.mk symbol (some s)).toJson.record? ["ty", "literal"] 2 =
        some [some (ofInt symbol), some (ofString s)] := record?_object (by rfl) (by decide) 2
    rw [Label.ofJson?, hrecord]
    dsimp only [Option.bind_eq_bind, Option.bind_some, Option.getD_some]
    rw [symbol?_ofInt hl, literalOfJson?_ofString]
    rfl

/-! ## Grammars -/

variable {g : Grammar}

theorem plain_toJson (g : Grammar) : g.toJson.Plain := by
  refine plain_fields ?_
  simp only [List.forall_mem_cons]
  exact ⟨.array (List.forall_mem_map.2 fun r _ => r.plain_toJson),
    .array (List.forall_mem_map.2 fun l _ => l.plain_toJson), .integer _, nofun⟩

/-- A grammar is found again in its JSON value, valid or not. -/
theorem ofJson?_toJson (hg : g.Sized) : ofJson? g.toJson = some g := by
  have hrecord : g.toJson.record? ["dfas", "labels", "start"] 3 =
      some [some (.array (g.rules.map Rule.toJson)), some (.array (g.labels.map Label.toJson)),
        some (ofInt g.start)] := record?_object (by rfl) (by decide) 3
  rw [ofJson?, hrecord]
  dsimp only [Option.bind_eq_bind, Option.bind_some]
  rw [listOf?_array fun r hr => Rule.ofJson?_toJson (hg.rules r hr),
    listOf?_array fun l hl => Label.ofJson?_toJson (hg.labels l hl), symbol?_ofInt hg.start]
  rfl

/-- A text that spells a grammar is read if that is valid, and is otherwise refused with what is
    wrong with it. -/
theorem ofText_of_read {text : String} (h : (read? text).bind ofJson? = some g) :
    ofText text = match g.validate with
      | .ok () => .ok g
      | .error e => .error (.invalid e) := by
  cases hv : g.validate <;> simp only [ofText, h, hv]

/-- A grammar is read back from its text if it is valid, and is otherwise refused with what is
    wrong with it. -/
theorem ofText_toText (hg : g.Sized) : ofText g.toText = match g.validate with
    | .ok () => .ok g
    | .error e => .error (.invalid e) := by
  refine ofText_of_read ?_
  rw [toText, read?_render .lines g.plain_toJson, Option.bind_some, ofJson?_toJson hg]

/-- Three rules, with names that are no identifiers, labels that occur twice, and all kinds of
    first sets, one of them of no use for four labels. -/
def threeRules : Grammar where
  rules := [⟨256, "начало", 0, [[⟨0, 1⟩, ⟨2, 1⟩], []], .done ⟨[5, 255, 0]⟩⟩,
    ⟨257, "a \"rule\"\n", 1, [[⟨1, 1⟩], [⟨3, 0⟩]], .inProgress⟩, ⟨258, "", 0, [[]], .unset⟩]
  labels := [⟨1, some "\\\x01ß"⟩, ⟨257, none⟩, ⟨258, some ""⟩, ⟨1, some "\\\x01ß"⟩]
  start := 257

/-- The rules are read back, and refused where the first symbol is that of no rule. -/
theorem ofText_toText_of_three :
    ofText threeRules.toText = .ok threeRules ∧
      ofText (toText { threeRules with start := -1 }) = .error (.invalid (.noStart (-1))) := by
  constructor
  · exact ofText_toText (g := threeRules) (by decide)
  · exact ofText_toText (g := { threeRules with start := -1 }) (by decide)

end Grammar

end ScriptCore
