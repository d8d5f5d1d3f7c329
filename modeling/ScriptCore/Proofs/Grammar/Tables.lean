import ScriptCore.Grammar.Tables
import ScriptCore.Proofs.Grammar.Json
import ScriptCore.Proofs.Grammar.Validity

/-!
# Tables and texts of one grammar

A grammar comes from tables or from a text. Both are refused where the grammar is not
valid. But tables are refused, too, for a first set that is too long or too short for
the labels, and a text is not.

* `described`: the grammar that tables describe, valid or not.
* `ofTables_of_fits`, `ofTables_of_not_fits`: what becomes of tables.
* `loaders_agree_iff`: tables and a text of one grammar come to the same where all first
  sets have their length, or the grammar is not valid, and nowhere else.
-/

namespace ScriptCore.Grammar

variable {tables before after : List RuleTable} {labels : List Label} {start : Int}
  {t : RuleTable} {g : Grammar} {text : String} {bytes : Bytes} {n : Nat}

/-! ## What tables describe -/

/-- The rule that a table describes, whatever the length of its first set. -/
def RuleTable.rule (t : RuleTable) : Rule where
  symbol := t.symbol
  name := t.name
  initial := t.initial
  states := t.states
  first := match t.first with
    | none => .unset
    | some bytes => .done ⟨bytes⟩

/-- The grammar that tables describe, valid or not. -/
def described (tables : List RuleTable) (labels : List Label) (start : Int) : Grammar where
  rules := tables.map RuleTable.rule
  labels := labels
  start := start

/-- Whether the first set that comes with a table, if any, has the length that `n` labels
    ask for. -/
def RuleTable.Fits (n : Nat) (t : RuleTable) : Prop :=
  ∀ bytes ∈ t.first, bytes.length = BitSet.width n

instance (n : Nat) (t : RuleTable) : Decidable (t.Fits n) :=
  inferInstanceAs (Decidable (∀ bytes ∈ t.first, bytes.length = BitSet.width n))

/-- Whether a text spells a grammar, valid or not. -/
def IsSpelledBy (g : Grammar) (text : String) : Prop :=
  (Json.read? text).bind ofJson? = some g

/-- Whether tables and a text come to the same: to one grammar, or to errors that say what
    is wrong with one. -/
inductive Agree : Except Error Grammar → Except LoadError Grammar → Prop
  | ok (g : Grammar) : Agree (.ok g) (.ok g)
  | error (e e' : Error) : Agree (.error e) (.error (.invalid e'))

/-! ## Tables -/

theorem RuleTable.toRule_of_fits (h : t.Fits n) : t.toRule n = .ok t.rule := by
  rw [toRule, rule]
  cases hfirst : t.first with
  | none => rfl
  | some bytes => exact if_pos (h bytes hfirst)

theorem RuleTable.toRule_of_not_fits (hfirst : t.first = some bytes)
    (h : bytes.length ≠ BitSet.width n) :
    t.toRule n = .error (.firstLength t.name bytes.length (BitSet.width n)) := by
  rw [toRule, hfirst]
  exact if_neg h

theorem mapM_toRule_of_fits (h : ∀ t ∈ tables, t.Fits n) :
    tables.mapM (RuleTable.toRule n) = .ok (tables.map RuleTable.rule) := by
  induction tables with
  | nil => rfl
  | cons t tables ih =>
    obtain ⟨ht, htables⟩ := List.forall_mem_cons.1 h
    rw [List.mapM_cons, RuleTable.toRule_of_fits ht, ih htables]
    rfl

theorem mapM_toRule_of_not_fits (hbefore : ∀ t ∈ before, t.Fits n) (hfirst : t.first = some bytes)
    (h : bytes.length ≠ BitSet.width n) : (before ++ t :: after).mapM (RuleTable.toRule n) =
      .error (.firstLength t.name bytes.length (BitSet.width n)) := by
  rw [List.mapM_append, mapM_toRule_of_fits hbefore, List.mapM_cons,
    RuleTable.toRule_of_not_fits hfirst h]
  rfl

/-- Tables whose first sets have their length are refused only for what is wrong with the
    grammar that they describe. -/
theorem ofTables_of_fits (h : ∀ t ∈ tables, t.Fits labels.length) :
    ofTables tables labels start = (described tables labels start).validate.map
      fun _ => described tables labels start := by
  rw [ofTables, mapM_toRule_of_fits h, described]
  rfl

/-- Tables are refused for the first set that is too long or too short. -/
theorem ofTables_of_not_fits (hbefore : ∀ t ∈ before, t.Fits labels.length)
    (hfirst : t.first = some bytes) (h : bytes.length ≠ BitSet.width labels.length) :
    ofTables (before ++ t :: after) labels start =
      .error (.firstLength t.name bytes.length (BitSet.width labels.length)) := by
  rw [ofTables, mapM_toRule_of_not_fits hbefore hfirst h]
  rfl

/-- Where a first set does not have its length, there is a first such. -/
theorem exists_not_fits (h : ¬∀ t ∈ tables, t.Fits n) : ∃ before t after bytes,
    tables = before ++ t :: after ∧ (∀ t' ∈ before, t'.Fits n) ∧ t.first = some bytes ∧
      bytes.length ≠ BitSet.width n := by
  induction tables with
  | nil => exact absurd (List.forall_mem_nil _) h
  | cons t tables ih =>
    by_cases ht : t.Fits n
    · obtain ⟨before, t', after, bytes, rfl, hbefore, hrest⟩ :=
        ih fun htables => h (List.forall_mem_cons.2 ⟨ht, htables⟩)
      exact ⟨t :: before, t', after, bytes, rfl, List.forall_mem_cons.2 ⟨ht, hbefore⟩, hrest⟩
    · obtain ⟨bytes, hfirst, hne⟩ : ∃ bytes, t.first = some bytes ∧
          bytes.length ≠ BitSet.width n := by
        simpa only [RuleTable.Fits, not_forall, Option.mem_def, exists_prop] using ht
      exact ⟨[], t, tables, bytes, rfl, List.forall_mem_nil _, hfirst, hne⟩

/-! ## Texts -/

theorem isSpelledBy_toText (hg : g.Sized) : g.IsSpelledBy g.toText := by
  rw [IsSpelledBy, toText, Json.read?_render .lines g.plain_toJson, Option.bind_some,
    ofJson?_toJson hg]

theorem ofText_of_valid (h : g.IsSpelledBy text) (hg : g.validate = .ok ()) :
    ofText text = .ok g := by
  rw [ofText_of_read h, hg]

theorem ofText_of_error {e : Error} (h : g.IsSpelledBy text) (hg : g.validate = .error e) :
    ofText text = .error (.invalid e) := by
  rw [ofText_of_read h, hg]

/-! ## Both -/

/-- Where some first set does not have its length, tables and a text of a valid grammar do
    not come to the same. -/
theorem not_agree_of_not_fits (hg : (described tables labels start).validate = .ok ())
    (htext : (described tables labels start).IsSpelledBy text)
    (h : ¬∀ t ∈ tables, t.Fits labels.length) :
    ¬Agree (ofTables tables labels start) (ofText text) := by
  obtain ⟨before, t, after, bytes, rfl, hbefore, hfirst, hne⟩ := exists_not_fits h
  rw [ofTables_of_not_fits hbefore hfirst hne, ofText_of_valid htext hg]
  nofun

theorem agree_of_fits (htext : (described tables labels start).IsSpelledBy text)
    (h : ∀ t ∈ tables, t.Fits labels.length) :
    Agree (ofTables tables labels start) (ofText text) := by
  rw [ofTables_of_fits h]
  cases hg : (described tables labels start).validate with
  | ok _ =>
    rw [ofText_of_valid htext hg]
    exact .ok _
  | error e =>
    rw [ofText_of_error htext hg]
    exact .error e e

/-- The tables of a grammar that is not valid are refused, for that or for a first set. -/
theorem agree_of_error {e : Error} (htext : (described tables labels start).IsSpelledBy text)
    (hg : (described tables labels start).validate = .error e) :
    Agree (ofTables tables labels start) (ofText text) := by
  by_cases h : ∀ t ∈ tables, t.Fits labels.length
  · exact agree_of_fits htext h
  · obtain ⟨before, t, after, bytes, rfl, hbefore, hfirst, hne⟩ := exists_not_fits h
    rw [ofTables_of_not_fits hbefore hfirst hne, ofText_of_error htext hg]
    exact .error _ e

/-- What comes from tables has first sets of their length. -/
theorem fits_of_ofTables (h : ofTables tables labels start = .ok g) :
    ∀ t ∈ tables, t.Fits labels.length := by
  by_contra hnot
  obtain ⟨before, t, after, bytes, rfl, hbefore, hfirst, hne⟩ := exists_not_fits hnot
  rw [ofTables_of_not_fits hbefore hfirst hne] at h
  cases h

theorem length_of_done (h : ∀ t ∈ tables, t.Fits labels.length) {i : Nat} {set : BitSet}
    (hd : (described tables labels start).Done i set) :
    set.bytes.length = BitSet.width labels.length := by
  obtain ⟨r, hr, hfirst⟩ := Option.map_eq_some_iff.1 hd
  rw [described, List.getElem?_map] at hr
  obtain ⟨t, ht, rfl⟩ := Option.map_eq_some_iff.1 hr
  rw [RuleTable.rule] at hfirst
  cases hbytes : t.first with
  | none => simp [hbytes] at hfirst
  | some bytes =>
    obtain rfl : (⟨bytes⟩ : BitSet) = set := by simpa [hbytes] using hfirst
    exact h t (List.mem_of_getElem? ht) bytes hbytes

/-- Tables and a text that describe one grammar, as the text of that grammar does, come to
    the same exactly if all first sets in the tables have the length that the labels ask
    for, or the grammar is not valid. Where some set has not, the tables are refused for
    the first such set, and the text is read still, if the grammar is valid. So what comes
    from tables has sets of that length only, and what comes from a text may have others. -/
theorem loaders_agree_iff (tables : List RuleTable) (labels : List Label) (start : Int) :
    let g := described tables labels start
    (g.Sized → g.IsSpelledBy g.toText) ∧
      ∀ text, g.IsSpelledBy text →
        (Agree (ofTables tables labels start) (ofText text) ↔
          (∀ t ∈ tables, t.Fits labels.length) ∨ g.validate ≠ .ok ()) ∧
        (g.validate = .ok () → ofText text = .ok g) ∧
        (∀ before t after bytes, tables = before ++ t :: after →
          (∀ t' ∈ before, t'.Fits labels.length) → t.first = some bytes →
          bytes.length ≠ BitSet.width labels.length → ofTables tables labels start =
            .error (.firstLength t.name bytes.length (BitSet.width labels.length))) ∧
        ∀ g', ofTables tables labels start = .ok g' → ofText text = .ok g' ∧
          ∀ i set, g'.Done i set → set.bytes.length = BitSet.width labels.length := by
  intro g
  refine ⟨isSpelledBy_toText, fun text htext => ⟨⟨fun h => ?_, fun h => ?_⟩,
    ofText_of_valid htext, ?_, fun g' hg' => ?_⟩⟩
  · by_contra hnot
    obtain ⟨hfits, hg⟩ := not_or.1 hnot
    exact not_agree_of_not_fits (not_not.1 hg) htext hfits h
  · rcases h with hfits | hg
    · exact agree_of_fits htext hfits
    · cases hvalidate : g.validate with
      | ok _ => exact absurd hvalidate hg
      | error e => exact agree_of_error htext hvalidate
  · rintro before t after bytes rfl hbefore hfirst hne
    exact ofTables_of_not_fits hbefore hfirst hne
  · have hfits := fits_of_ofTables hg'
    rw [ofTables_of_fits hfits] at hg'
    cases hvalidate : g.validate with
    | ok _ =>
      obtain rfl : g = g' := by simpa [g, hvalidate, Except.map] using hg'
      exact ⟨ofText_of_valid htext hvalidate, fun i set => length_of_done hfits⟩
    | error e => simp [g, hvalidate, Except.map] at hg'

/-- The grammar of grammars comes from its tables and from its text. -/
theorem loaders_agree_iff_of_meta : metaGrammar.IsSpelledBy metaGrammar.toText ∧
    Agree (ofTables metaTables metaLabels 256) (ofText metaGrammar.toText) := by
  have h := loaders_agree_iff metaTables metaLabels 256
  have htext : metaGrammar.IsSpelledBy metaGrammar.toText := h.1 (by decide)
  exact ⟨htext, (h.2 metaGrammar.toText htext).1.2 (.inl (by decide))⟩

/-- A first set of two bytes, where one is enough for the one label: the tables are refused,
    and the text of the same grammar is read. -/
theorem loaders_differ :
    let table : RuleTable := ⟨256, "S", 0, [[⟨0, 0⟩]], some [0, 0]⟩
    let g := described [table] [⟨0, some "EMPTY"⟩] 256
    g.Sized ∧ g.IsSpelledBy g.toText ∧
      ofTables [table] g.labels g.start = .error (.firstLength "S" 2 1) ∧
      ofText g.toText = .ok g := by
  intro table g
  have hsized : g.Sized := by decide
  have htext := isSpelledBy_toText hsized
  have htable : ofTables [table] g.labels g.start = .error (.firstLength "S" 2 1) := by decide
  exact ⟨hsized, htext, htable, ofText_of_valid htext rfl⟩

end ScriptCore.Grammar
