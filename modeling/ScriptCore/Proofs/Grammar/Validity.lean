import Mathlib.Data.Finset.Card
import Mathlib.Logic.Relation
import ScriptCore.Grammar.First

/-!
# Valid grammars, and what a rule begins with

The first sets are kept with the rules, and computing them changes nothing
else: grammars are *alike* if they differ in their first sets only. What is
said here of rules and labels is the same for grammars that are alike.

* `validate_eq_ok_iff`: the grammars that are accepted are the valid ones.
* `Leads`, `Begins`: the labels on the initial state of a rule, as a relation to
  other rules and to terminal labels.
* `IsFirst`: the terminal labels that a rule begins with, directly or by way of
  other rules.
-/

namespace ScriptCore.Grammar

open Relation

variable {g g' : Grammar} {r : Rule} {l : Label} {i j k : Nat}

/-! ## Valid grammars -/

/-- A grammar whose positions are all in range. -/
structure Valid (g : Grammar) : Prop where
  index : ∀ (i : Nat) (r : Rule), g.rules[i]? = some r → ruleIndex? r.symbol = some i
  initial : ∀ (i : Nat) (r : Rule), g.rules[i]? = some r → r.initial < r.states.length
  arcs : ∀ (i : Nat) (r : Rule), g.rules[i]? = some r → ∀ a ∈ r.arcs,
    ∃ l, g.labels[a.label]? = some l ∧ a.target < r.states.length ∧
      (l.isTerminal = false → (g.findRule? l.symbol).isSome)
  start : g.rules ≠ [] → (g.findRule? g.start).isSome

theorem arcError?_eq_none_iff {a : Arc} : g.arcError? r a = none ↔
    ∃ l, g.labels[a.label]? = some l ∧ a.target < r.states.length ∧
      (l.isTerminal = false → (g.findRule? l.symbol).isSome) := by
  rw [arcError?]
  cases g.labels[a.label]? with
  | none => simp
  | some l =>
    simp only [Option.some.injEq, exists_eq_left']
    split_ifs with ht hl
    · simp [Nat.not_lt_of_le ht]
    · simp_all
    · simp only [true_iff]
      refine ⟨Nat.lt_of_not_le ht, fun hf => ?_⟩
      simpa [hf, Option.isSome_iff_ne_none] using hl

theorem ruleError?_eq_none_iff : g.ruleError? r i = none ↔
    ruleIndex? r.symbol = some i ∧ r.initial < r.states.length ∧
      ∀ a ∈ r.arcs, g.arcError? r a = none := by
  rw [ruleError?]
  split_ifs with hi hs
  · simp [hi]
  · simp [Nat.not_lt_of_le hs]
  · rw [List.findSome?_eq_none_iff]
    exact ⟨fun h => ⟨not_not.1 hi, Nat.lt_of_not_le hs, h⟩, fun h => h.2.2⟩

theorem error?_eq_none_iff : g.error? = none ↔
    (∀ (i : Nat) (r : Rule), g.rules[i]? = some r → g.ruleError? r i = none) ∧
      g.startError? = none := by
  rw [error?, Option.or_eq_none_iff, List.findSome?_eq_none_iff]
  refine and_congr_left fun _ => ⟨fun h i r hr => h (r, i) (List.mem_zipIdx_iff_getElem?.2 hr),
    fun h x hx => h x.2 x.1 (List.mem_zipIdx_iff_getElem?.1 hx)⟩

theorem startError?_eq_none_iff :
    g.startError? = none ↔ (g.rules ≠ [] → (g.findRule? g.start).isSome) := by
  rw [startError?]
  split_ifs with h
  · simp_all
  · simp only [true_iff]
    intro hr
    by_contra hs
    exact h (by simp_all)

theorem validate_eq_ok_iff : g.validate = .ok () ↔ g.Valid := by
  have hvalidate : g.validate = .ok () ↔ g.error? = none := by
    rw [validate]
    cases g.error? <;> simp
  rw [hvalidate, error?_eq_none_iff, startError?_eq_none_iff]
  simp only [ruleError?_eq_none_iff, arcError?_eq_none_iff]
  constructor
  · rintro ⟨h, hstart⟩
    exact ⟨fun i r hr => (h i r hr).1, fun i r hr => (h i r hr).2.1,
      fun i r hr => (h i r hr).2.2, hstart⟩
  · intro h
    exact ⟨fun i r hr => ⟨h.index i r hr, h.initial i r hr, h.arcs i r hr⟩, h.start⟩

/-- The position of a symbol is that of its rule. -/
theorem findIndex?_eq_some_iff {x : Int} : g.findIndex? x = some j ↔
    ruleIndex? x = some j ∧ ∃ r, g.rules[j]? = some r ∧ r.symbol = x := by
  rw [findIndex?, Option.filter_eq_some_iff]
  refine and_congr_right fun _ => ?_
  cases g.rules[j]? <;> simp

/-! ## Alike grammars -/

/-- Whether grammars differ in their first sets only. -/
def Alike (g g' : Grammar) : Prop := g.clearFirsts = g'.clearFirsts

/-- What is known of the first set of the rule at a position. -/
def marker? (g : Grammar) (i : Nat) : Option First := g.rules[i]?.map (·.first)

/-- Whether the first set of the rule at a position was computed. -/
def Done (g : Grammar) (i : Nat) (set : BitSet) : Prop := g.marker? i = some (.done set)

theorem Alike.refl (g : Grammar) : g.Alike g := rfl

theorem Alike.symm (h : g.Alike g') : g'.Alike g := Eq.symm h

theorem Alike.trans {g'' : Grammar} (h : g.Alike g') (h' : g'.Alike g'') : g.Alike g'' :=
  Eq.trans h h'

theorem Alike.labels_eq (h : g.Alike g') : g.labels = g'.labels := congrArg (·.labels) h

theorem Alike.length_rules (h : g.Alike g') : g.rules.length = g'.rules.length := by
  have hr := congrArg (·.rules.length) h
  simpa [clearFirsts] using hr

theorem Alike.exists_rule (h : g.Alike g') (hr : g.rules[i]? = some r) :
    ∃ first, g'.rules[i]? = some { r with first } := by
  have hi := congrArg (·.rules[i]?) h
  simp only [clearFirsts, List.getElem?_map, hr, Option.map_some] at hi
  obtain ⟨r', hr', heq⟩ := Option.map_eq_some_iff.1 hi.symm
  refine ⟨r'.first, ?_⟩
  obtain ⟨_, _, _, _, _⟩ := r
  cases heq
  exact hr'

theorem Alike.findIndex?_eq (h : g.Alike g') (x : Int) : g.findIndex? x = g'.findIndex? x := by
  refine Option.ext fun j => ?_
  rw [findIndex?_eq_some_iff, findIndex?_eq_some_iff]
  refine and_congr_right fun _ => ⟨fun ⟨r, hr, hx⟩ => ?_, fun ⟨r, hr, hx⟩ => ?_⟩
  · obtain ⟨first, hr'⟩ := h.exists_rule hr
    exact ⟨_, hr', hx⟩
  · obtain ⟨first, hr'⟩ := h.symm.exists_rule hr
    exact ⟨_, hr', hx⟩

theorem lt_of_marker? {first : First} (hm : g.marker? i = some first) : i < g.rules.length := by
  obtain ⟨r, hr, -⟩ := Option.map_eq_some_iff.1 hm
  exact (List.getElem?_eq_some_iff.1 hr).1

theorem Alike.exists_marker? (h : g.Alike g') (hi : i < g'.rules.length) :
    ∃ first, g.marker? i = some first :=
  ⟨_, by rw [marker?, List.getElem?_eq_getElem (h.length_rules ▸ hi)]; rfl⟩

theorem Alike.marker?_eq_none (h : g.Alike g') (hi : g'.rules.length ≤ i) : g.marker? i = none := by
  rw [marker?, List.getElem?_eq_none (h.length_rules ▸ hi), Option.map_none]

theorem Alike.marker?_of_none (h : g.Alike g') (hm : g'.marker? i = none) : g.marker? i = none :=
  h.marker?_eq_none (List.getElem?_eq_none_iff.1 (Option.map_eq_none_iff.1 hm))

/-- Grammars that are alike, with the same first sets, are the same. -/
theorem Alike.eq_of_marker? (h : g.Alike g') (hm : ∀ i, g.marker? i = g'.marker? i) : g = g' := by
  have hrules : g.rules = g'.rules := by
    refine List.ext_getElem? fun i => ?_
    have hi := hm i
    rw [marker?, marker?] at hi
    cases hr : g.rules[i]? with
    | none =>
      rw [hr] at hi
      cases hr' : g'.rules[i]? with
      | none => rfl
      | some r' =>
        rw [hr'] at hi
        cases hi
    | some r =>
      obtain ⟨first, hr'⟩ := h.exists_rule hr
      rw [hr, hr'] at hi
      rw [hr']
      cases hi
      rfl
  obtain ⟨rules, labels, start⟩ := g
  cases hrules
  cases h.labels_eq
  have hstart := congrArg (·.start) h
  cases hstart
  rfl

theorem alike_modifyRule (g : Grammar) (i : Nat) (first : First) :
    (g.modifyRule i fun r => { r with first }).Alike g := by
  rw [Alike, clearFirsts, clearFirsts, modifyRule]
  refine congrArg (Grammar.mk · g.labels g.start) (List.ext_getElem? fun j => ?_)
  rw [List.getElem?_map, List.getElem?_map, List.getElem?_modify]
  cases g.rules[j]? with
  | none => rfl
  | some r =>
    simp only [Option.map_some]
    split_ifs <;> rfl

theorem marker?_modifyRule (first : First) : (g.modifyRule i fun r => { r with first }).marker? j =
    if j = i then (g.marker? j).map fun _ => first else g.marker? j := by
  rw [marker?, modifyRule, List.getElem?_modify, marker?]
  rcases eq_or_ne j i with rfl | hne
  · simp [Option.map_map, Function.comp_def]
  · simp [hne, hne.symm]

/-! ## What a rule begins with -/

/-- Whether a label is on the initial state of a rule. -/
def OnInitial (g : Grammar) (i k : Nat) : Prop :=
  ∃ r arcs, g.rules[i]? = some r ∧ r.states[r.initial]? = some arcs ∧ ∃ a ∈ arcs, a.label = k

/-- Whether a label on the initial state of a rule is terminal. -/
def Begins (g : Grammar) (i k : Nat) : Prop :=
  g.OnInitial i k ∧ ∃ l, g.labels[k]? = some l ∧ l.isTerminal = true

/-- Whether a label on the initial state of a rule is the symbol of another. -/
def Leads (g : Grammar) (i j : Nat) : Prop :=
  ∃ k l r, g.OnInitial i k ∧ g.labels[k]? = some l ∧ l.isTerminal = false ∧
    g.rules[j]? = some r ∧ r.symbol = l.symbol

/-- Whether a rule is reached from the initial state of another. -/
abbrev Reaches (g : Grammar) : Nat → Nat → Prop := ReflTransGen g.Leads

/-- Whether a rule can begin with itself. -/
abbrev LeftRecursive (g : Grammar) (i : Nat) : Prop := TransGen g.Leads i i

/-- Whether a terminal label is on the initial state of a rule, or of one that
    is reached from it. -/
def IsFirst (g : Grammar) (i k : Nat) : Prop := ∃ j, g.Reaches i j ∧ g.Begins j k

theorem mem_initialLabels (hr : g.rules[i]? = some r) :
    k ∈ r.initialLabels ↔ g.OnInitial i k := by
  rw [Rule.initialLabels, OnInitial]
  constructor
  · intro hk
    split at hk
    · next arcs ha =>
      obtain ⟨a, ha', rfl⟩ := List.mem_map.1 (List.mem_eraseDups.1 hk)
      exact ⟨r, arcs, hr, ha, a, ha', rfl⟩
    · cases hk
  · rintro ⟨r', arcs, hr', ha, a, ha', rfl⟩
    cases hr.symm.trans hr'
    rw [ha]
    exact List.mem_eraseDups.2 (List.mem_map.2 ⟨a, ha', rfl⟩)

theorem Alike.onInitial (h : g.Alike g') (hk : g.OnInitial i k) : g'.OnInitial i k := by
  obtain ⟨r, arcs, hr, ha, hk⟩ := hk
  obtain ⟨first, hr'⟩ := h.exists_rule hr
  exact ⟨_, arcs, hr', ha, hk⟩

theorem Alike.leads (h : g.Alike g') (hij : g.Leads i j) : g'.Leads i j := by
  obtain ⟨k, l, r, hk, hl, ht, hr, hsymbol⟩ := hij
  obtain ⟨first, hr'⟩ := h.exists_rule hr
  exact ⟨k, l, _, h.onInitial hk, h.labels_eq ▸ hl, ht, hr', hsymbol⟩

theorem Alike.begins (h : g.Alike g') (hk : g.Begins i k) : g'.Begins i k :=
  ⟨h.onInitial hk.1, h.labels_eq ▸ hk.2⟩

theorem Leads.exists_rule (h : g.Leads i j) : ∃ r, g.rules[i]? = some r :=
  let ⟨_, _, _, ⟨r, _, hr, _⟩, _⟩ := h
  ⟨r, hr⟩

theorem Leads.lt (h : g.Leads i j) : j < g.rules.length :=
  let ⟨_, _, _, _, _, _, hr, _⟩ := h
  (List.getElem?_eq_some_iff.1 hr).1

theorem IsFirst.lt (h : g.IsFirst i k) : k < g.labels.length := by
  obtain ⟨_, _, _, l, hl, _⟩ := h
  exact (List.getElem?_eq_some_iff.1 hl).1

theorem IsFirst.of_leads (hij : g.Leads i j) (h : g.IsFirst j k) : g.IsFirst i k :=
  let ⟨m, hjm, hk⟩ := h
  ⟨m, .head hij hjm, hk⟩

/-- In a valid grammar every label on an initial state is terminal, or the
    symbol of a rule. -/
theorem Valid.label (hg : g.Valid) (hk : g.OnInitial i k) :
    ∃ l, g.labels[k]? = some l ∧ (l.isTerminal = false → ∃ j, g.findIndex? l.symbol = some j) := by
  obtain ⟨r, arcs, hr, ha, a, ha', rfl⟩ := hk
  obtain ⟨l, hl, -, h⟩ := hg.arcs i r hr a (List.mem_flatten_of_mem (List.mem_of_getElem? ha) ha')
  refine ⟨l, hl, fun ht => ?_⟩
  have hrule := h ht
  rw [findRule?] at hrule
  cases hj : g.findIndex? l.symbol with
  | none => simp [hj] at hrule
  | some j => exact ⟨j, rfl⟩

theorem Valid.findIndex?_of_symbol (hg : g.Valid) (hr : g.rules[j]? = some r) :
    g.findIndex? r.symbol = some j :=
  findIndex?_eq_some_iff.2 ⟨hg.index j r hr, r, hr, rfl⟩

end ScriptCore.Grammar
