import ScriptCore.Proofs.Grammar.LeftRecursion

/-!
# Room for first sets

A search of a valid grammar never fails, whatever is known at its beginning: not for want
of a label or a rule, and not for want of room. Each set is made with room for all labels,
and the sets of other rules are added to it as far as it goes, however long they are.

* `visitIn?`, `visitAllIn?`: the search, broken off where an index is added to a set that
  has no room for it.
* `iterate_visitIn?`, `visitAllIn?_iterate`: it is never broken off, and ends by itself.
* `firsts_within_room`: what follows for all valid grammars.
-/

namespace ScriptCore

variable {set : BitSet} {k : Nat}

/-- An index is added where there is room for it. -/
theorem BitSet.insert?_eq_some (hk : k / 8 < set.bytes.length) :
    set.insert? k = some (set.insert k) := by
  rw [insert, insert?, List.getElem?_eq_getElem hk]
  rfl

namespace Grammar

variable {g : Grammar} {i n : Nat}

namespace Survey

variable {s : Survey} {visit' : Nat → Survey → Except Error Unit × Survey}
  {visit'' : Nat → Survey → Option (Except Error Unit × Survey)}

/-! ## The search, broken off for want of room -/

/-- Adds to a set what the labels of a rule stand for, as `collect` does, if there is room
    for all of it. -/
def collectIn? (visit'' : Nat → Survey → Option (Except Error Unit × Survey)) (r : Rule) :
    List Nat → BitSet → Survey → Option (Except Error BitSet × Survey)
  | [], set, s => some (.ok set, s)
  | i :: is, set, s =>
    match s.grammar.labels[i]? with
    | none => some (.error (.unknownLabel r.name i), s)
    | some l =>
      if l.isTerminal then
        match set.insert? i with
        | none => none
        | some set => collectIn? visit'' r is set s
      else match s.grammar.findIndex? l.symbol with
        | none => some (.error (.undefinedSymbol r.name l.symbol), s)
        | some j =>
          match if s.isUnset j then visit'' j s else some (.ok (), s) with
          | none => none
          | some (.error e, s) => some (.error e, s)
          | some (.ok (), s) =>
            match s.grammar.rules[j]? with
            | some { first := .done other, .. } =>
              collectIn? visit'' r is (set.merge other s.grammar.labels.length) s
            | some { first := .inProgress, name, .. } =>
              collectIn? visit'' r is set (s.report ⟨l.symbol, name, r.name⟩)
            | _ => collectIn? visit'' r is set s

/-- A visit of a rule in which `visit''` visits the rules that it needs, if there is room
    for all of it. -/
def visitIn? (visit'' : Nat → Survey → Option (Except Error Unit × Survey)) (i : Nat)
    (s : Survey) : Option (Except Error Unit × Survey) :=
  match s.grammar.rules[i]? with
  | none => some (.ok (), s)
  | some r =>
    match collectIn? visit'' r r.initialLabels (.empty s.grammar.labels.length)
        (s.mark i .inProgress) with
    | none => none
    | some (.error e, s) => some (.error e, s)
    | some (.ok set, s) => some (.ok (), s.mark i (.done set))

/-- Visits of the rules at some positions in turn, where they are not known, if there is
    room for all of it. -/
def visitAllIn? (visit'' : Nat → Survey → Option (Except Error Unit × Survey)) :
    List Nat → Survey → Option (Except Error Unit × Survey)
  | [], s => some (.ok (), s)
  | i :: is, s =>
    if s.grammar.rules.length ≤ i then some (.error (.noRule i), s)
    else if s.isUnset i then
      match visit'' i s with
      | none => none
      | some (.error e, s) => some (.error e, s)
      | some (.ok (), s) => visitAllIn? visit'' is s
    else visitAllIn? visit'' is s

/-! ## It is never broken off -/

/-- There is room for what the labels of a rule stand for in a set with room for all labels,
    if there is in the sets of the rules that are visited on the way. -/
theorem collectIn?_eq_some {r : Rule}
    (hvisit : ∀ j s, s.grammar.Alike g → s.isUnset j = true → s.unknown.card ≤ n →
      ∃ s', visit' j s = (.ok (), s') ∧ Visited g j s s')
    (heq : ∀ j s, s.grammar.Alike g → s.isUnset j = true → s.unknown.card ≤ n →
      visit'' j s = some (visit' j s))
    (ks : List Nat) (hset : set.bytes.length = BitSet.width g.labels.length)
    (hs : s.grammar.Alike g) (hn : s.unknown.card ≤ n) :
    collectIn? visit'' r ks set s = some (collect visit' r ks set s) := by
  induction ks generalizing set s with
  | nil => rfl
  | cons k ks ih =>
    rw [collectIn?, collect]
    cases hl : s.grammar.labels[k]? with
    | none => rfl
    | some l =>
      cases ht : l.isTerminal with
      | true =>
        -- the set was made for all labels, this one too
        have hroom : k / 8 < set.bytes.length :=
          hset ▸ BitSet.div_lt_width (hs.labels_eq ▸ (List.getElem?_eq_some_iff.1 hl).1)
        simp only [ht, if_true, BitSet.insert?_eq_some hroom]
        exact ih (BitSet.length_insert.trans hset) hs hn
      | false =>
        simp only [ht, Bool.false_eq_true, if_false]
        cases s.grammar.findIndex? l.symbol with
        | none => rfl
        | some j =>
          have hif : ∃ s', (if s.isUnset j then visit' j s else (.ok (), s)) = (.ok (), s') ∧
              (if s.isUnset j then visit'' j s else some (.ok (), s)) = some (.ok (), s') ∧
              s'.grammar.Alike g ∧ s'.unknown.card ≤ n := by
            by_cases hj : s.isUnset j = true
            · obtain ⟨s', hv, h⟩ := hvisit j s hs hj hn
              rw [if_pos hj, if_pos hj, heq j s hs hj hn, hv]
              exact ⟨s', rfl, rfl, h.alike.symm.trans hs,
                (Finset.card_le_card h.unknown_subset).trans hn⟩
            · rw [if_neg hj, if_neg hj]
              exact ⟨s, rfl, rfl, hs, hn⟩
          obtain ⟨s', hv, hv', hs', hn'⟩ := hif
          simp only [hv, hv']
          cases s'.grammar.rules[j]? with
          | none => exact ih hset hs' hn'
          | some r' =>
            obtain ⟨_, _, _, _, first⟩ := r'
            cases first with
            | unset => exact ih hset hs' hn'
            | inProgress => exact ih hset hs' hn'
            | done other => exact ih (BitSet.length_merge.trans hset) hs' hn'

/-- With as many steps as there are rules whose sets are not known, a visit is not broken
    off, and it does not matter what is done after them. -/
theorem iterate_visitIn? (hg : g.Valid)
    (limit : Nat → Survey → Option (Except Error Unit × Survey))
    (hs : s.grammar.Alike g) (hi : s.isUnset i = true) (hn : s.unknown.card ≤ n) :
    visitIn?^[n] limit i s = some (visit n i s) := by
  induction n generalizing i s with
  | zero => exact absurd hn (Nat.not_le.2 (card_unknown_pos hi))
  | succ n ih =>
    have hm := isUnset_iff.1 hi
    obtain ⟨r, hr, -⟩ := Option.map_eq_some_iff.1 hm
    have hlater := Later.start hm
    have hcard := card_unknown_start hm
    have hset : (BitSet.empty s.grammar.labels.length).bytes.length =
        BitSet.width g.labels.length := by rw [BitSet.length_empty, hs.labels_eq]
    rw [Function.iterate_succ_apply', visit_succ, visitIn?, visitBy, hr]
    simp only
    rw [collectIn?_eq_some (fun j s hs hj hn => exists_visit hg hs hj hn)
      (fun j s hs hj hn => ih hs hj hn) _ hset (hlater.alike.symm.trans hs) (by omega)]
    obtain ⟨_ | _, _⟩ := collect (visit n) r r.initialLabels (.empty s.grammar.labels.length)
      (s.mark i .inProgress)
    · rfl
    · rfl

theorem visitAllIn?_iterate (hg : g.Valid)
    (limit : Nat → Survey → Option (Except Error Unit × Survey))
    (hs : s.grammar.Alike g) (hn : g.rules.length ≤ n) {order : List Nat}
    (horder : ∀ i ∈ order, i < g.rules.length) :
    visitAllIn? (visitIn?^[n] limit) order s = some (visitAll order s) := by
  induction order generalizing s with
  | nil => rfl
  | cons i is ih =>
    obtain ⟨hi, his⟩ := List.forall_mem_cons.1 horder
    rw [visitAllIn?, visitAll, hs.length_rules, if_neg (Nat.not_le.2 hi),
      if_neg (Nat.not_le.2 hi)]
    by_cases hu : s.isUnset i = true
    · have hcard := hs.length_rules ▸ s.card_unknown_le
      obtain ⟨s', hv, h⟩ := exists_visit hg hs hu hcard
      have hlimit : visitIn?^[n] limit i s = some (visit g.rules.length i s) := by
        rw [← Nat.add_sub_cancel' hn, Function.iterate_add_apply]
        exact iterate_visitIn? hg _ hs hu hcard
      rw [if_pos hu, if_pos hu, hlimit, hv]
      exact ih (h.alike.symm.trans hs) his
    · rw [if_neg hu, if_neg hu]
      exact ih hs his

/-! ## What is known after it -/

section Grows

variable {s' : Survey} {roots : Set Nat}

/-- A rule whose set was not known, and is not unknown any more, was computed. -/
theorem Grows.exists_computed (h : Grows g roots s s') (hu : s.grammar.marker? i = some .unset)
    (hm : s'.grammar.marker? i ≠ some .unset) : ∃ set, Computed s s' i set := by
  obtain ⟨first, hfirst⟩ := h.alike.symm.exists_marker? (lt_of_marker? hu)
  cases first with
  | unset => exact absurd hfirst hm
  | inProgress => cases hu.symm.trans ((h.inProgress i).1 hfirst)
  | done set => exact ⟨set, hu, hfirst⟩

/-- Other rules are left as they were. -/
theorem Grows.marker?_eq (h : Grows g roots s s') (hi : s.grammar.marker? i ≠ some .unset) :
    s'.grammar.marker? i = s.grammar.marker? i := by
  cases hm : s.grammar.marker? i with
  | none => exact h.alike.symm.marker?_of_none hm
  | some first =>
    cases first with
    | unset => exact absurd hm hi
    | inProgress => exact (h.inProgress i).2 hm
    | done set => exact h.done i set hm

end Grows

end Survey

/-! ## Every valid grammar -/

/-- In a valid grammar, with whatever first sets, a computation of rules in an order
    succeeds. It ends by itself, going no deeper than there are rules, whatever would be
    done then, and is never broken off for want of room in a set. Each of the rules whose
    set was not known has one then, as long as all labels need. Nothing else changes. -/
theorem firsts_within_room (hvalid : g.validate = .ok ()) (order : List Nat)
    (horder : ∀ i ∈ order, i < g.rules.length) :
    ∃ reports g', g.addFirstsInOrder order = (.ok reports, g') ∧
      (∀ limit n, g.rules.length ≤ n →
        Survey.visitAllIn? (Survey.visitIn?^[n] limit) order { grammar := g } =
          some (.ok (), { grammar := g', reports })) ∧
      (∀ i ∈ order, g.marker? i = some .unset →
        ∃ set, g'.Done i set ∧ set.bytes.length = BitSet.width g.labels.length) ∧
      (∀ i, g.marker? i ≠ some .unset → g'.marker? i = g.marker? i) ∧
      g'.clearFirsts = g.clearFirsts := by
  have hg := validate_eq_ok_iff.1 hvalid
  obtain ⟨s, hv, hgrows, hm⟩ := Survey.exists_visitAll (s := { grammar := g }) hg (.refl g) horder
  refine ⟨s.reports, s.grammar, by rw [addFirstsInOrder, hv], fun limit n hn => ?_,
    fun i hi hu => ?_, fun i hi => ?_, hgrows.alike.symm⟩
  · rw [Survey.visitAllIn?_iterate hg limit (.refl g) hn horder, hv]
  · obtain ⟨set, hset⟩ := hgrows.exists_computed hu (hm i hi)
    exact ⟨set, hset.2, (hgrows.complete i set hset).length⟩
  · exact hgrows.marker?_eq hi

/-- Two rules that lead to each other and to two with first sets: one that is under way,
    and one with a set that is too long. -/
theorem firsts_within_room_of_loop :
    let g : Grammar := {
      rules := [{ symbol := 256, name := "s", states := [[⟨0, 1⟩, ⟨1, 1⟩], []] },
        { symbol := 257, name := "t", states := [[⟨2, 1⟩, ⟨3, 1⟩, ⟨4, 1⟩], []] },
        { symbol := 258, name := "u", states := [[]], first := .inProgress },
        { symbol := 259, name := "v", states := [[]], first := .done ⟨[64, 255]⟩ }]
      labels := [⟨257, none⟩, ⟨258, none⟩, ⟨256, none⟩, ⟨259, none⟩, ⟨1, none⟩]
      start := 256 }
    g.validate = .ok () ∧ (∀ i ∈ [1, 3, 0], i < g.rules.length) ∧
      ∃ reports g', g.addFirstsInOrder [1, 3, 0] = (.ok reports, g') ∧
        ∃ set, g'.Done 1 set ∧ set.bytes.length = 1 := by
  intro g
  have horder : ∀ i ∈ [1, 3, 0], i < g.rules.length := by decide
  obtain ⟨reports, g', hrun, -, hdone, -⟩ := firsts_within_room (g := g) rfl [1, 3, 0] horder
  obtain ⟨set, hd, hlength⟩ := hdone 1 (by decide) rfl
  exact ⟨rfl, horder, reports, g', hrun, set, hd, hlength.trans (by decide)⟩

end Grammar

end ScriptCore
