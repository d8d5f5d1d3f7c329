import ScriptCore.Proofs.Grammar.First

/-!
# Left recursion

A search for first sets that begins with nothing known meets a rule that is
under way exactly where a rule can begin with itself.

* `iterate_visitBy`: the search ends by itself. At each depth another rule gets
  under way, so no more than all rules are on the way to one, and what would be
  done deeper than that does not matter.
* `leftRecursion_reported`: there is a report exactly if a rule is reached that
  can begin with itself, and each report is of such a rule.
-/

namespace ScriptCore.Grammar

open Relation

variable {g g' : Grammar} {set : BitSet} {i j k n : Nat}

/-! ## The depth of the search -/

namespace Survey

variable {s s' : Survey} {visit' visit'' : Nat → Survey → Except Error Unit × Survey}

/-- A visit of a rule in which `visit'` visits the rules that it needs. -/
def visitBy (visit' : Nat → Survey → Except Error Unit × Survey) (i : Nat) (s : Survey) :
    Except Error Unit × Survey :=
  match s.grammar.rules[i]? with
  | none => (.ok (), s)
  | some r =>
    match collect visit' r r.initialLabels (.empty s.grammar.labels.length)
        (s.mark i .inProgress) with
    | (.error e, s) => (.error e, s)
    | (.ok set, s) => (.ok (), s.mark i (.done set))

/-- Visits of the rules at some positions in turn, where they are not known. -/
def visitAllBy (visit' : Nat → Survey → Except Error Unit × Survey) :
    List Nat → Survey → Except Error Unit × Survey
  | [], s => (.ok (), s)
  | i :: is, s =>
    if s.grammar.rules.length ≤ i then (.error (.noRule i), s)
    else if s.isUnset i then
      match visit' i s with
      | (.error e, s) => (.error e, s)
      | (.ok (), s) => visitAllBy visit' is s
    else visitAllBy visit' is s

theorem visit_succ (n : Nat) : visit (n + 1) = visitBy (visit n) := rfl

/-- Labels are collected alike if the same is done for the rules that are not
    known on the way. -/
theorem collect_congr {r : Rule}
    (hvisit : ∀ j s, s.grammar.Alike g → s.isUnset j = true → s.unknown.card ≤ n →
      ∃ s', visit' j s = (.ok (), s') ∧ Visited g j s s')
    (heq : ∀ j s, s.grammar.Alike g → s.isUnset j = true → s.unknown.card ≤ n →
      visit'' j s = visit' j s)
    (ks : List Nat) (hs : s.grammar.Alike g) (hn : s.unknown.card ≤ n) :
    collect visit'' r ks set s = collect visit' r ks set s := by
  induction ks generalizing set s with
  | nil => rfl
  | cons k ks ih =>
    rw [collect, collect]
    cases hl : s.grammar.labels[k]? with
    | none => rfl
    | some l =>
      cases ht : l.isTerminal with
      | true =>
        simp only [ht, if_true]
        exact ih hs hn
      | false =>
        simp only [ht, Bool.false_eq_true, if_false]
        cases s.grammar.findIndex? l.symbol with
        | none => rfl
        | some j =>
          -- the rule is visited alike, and collection goes on from there
          have hif : ∃ s', (if s.isUnset j then visit' j s else (.ok (), s)) = (.ok (), s') ∧
              (if s.isUnset j then visit'' j s else (.ok (), s)) = (.ok (), s') ∧
              s'.grammar.Alike g ∧ s'.unknown.card ≤ n := by
            by_cases hj : s.isUnset j = true
            · obtain ⟨s', hv, h⟩ := hvisit j s hs hj hn
              rw [if_pos hj, if_pos hj, heq j s hs hj hn, hv]
              exact ⟨s', rfl, rfl, h.alike.symm.trans hs,
                (Finset.card_le_card h.unknown_subset).trans hn⟩
            · rw [if_neg hj, if_neg hj]
              exact ⟨s, rfl, rfl, hs, hn⟩
          obtain ⟨s', hv, hv', hs', hn'⟩ := hif
          simp only [hv, hv']
          split
          · exact ih hs' hn'
          · exact ih hs' hn'
          · exact ih hs' hn'

/-- With as many steps as there are rules whose sets are not known, it does not
    matter what is done after them. -/
theorem iterate_visitBy (hg : g.Valid) (limit : Nat → Survey → Except Error Unit × Survey)
    (hs : s.grammar.Alike g) (hi : s.isUnset i = true) (hn : s.unknown.card ≤ n) :
    visitBy^[n] limit i s = visit n i s := by
  induction n generalizing i s with
  | zero =>
    have hmem := mem_unknown.2 (isUnset_iff.1 hi)
    rw [Finset.card_eq_zero.1 (Nat.le_zero.1 hn)] at hmem
    cases hmem
  | succ n ih =>
    have hm := isUnset_iff.1 hi
    obtain ⟨r, hr, -⟩ := Option.map_eq_some_iff.1 hm
    have hcard := card_unknown_start hm
    rw [Function.iterate_succ_apply', visit_succ, visitBy, visitBy, hr]
    simp only
    rw [collect_congr (fun j s hs hj hn => exists_visit hg hs hj hn)
      (fun j s hs hj hn => ih hs hj hn) _ ((Later.start hm).alike.symm.trans hs) (by omega)]

/-- So the search goes no deeper than there are rules, in whatever order it begins. -/
theorem visitAllBy_iterate (hg : g.Valid) (limit : Nat → Survey → Except Error Unit × Survey)
    (hs : s.grammar.Alike g) (hn : g.rules.length ≤ n) {order : List Nat}
    (horder : ∀ i ∈ order, i < g.rules.length) :
    visitAllBy (visitBy^[n] limit) order s = visitAll order s := by
  induction order generalizing s with
  | nil => rfl
  | cons i is ih =>
    obtain ⟨hi, his⟩ := List.forall_mem_cons.1 horder
    rw [visitAllBy, visitAll, hs.length_rules, if_neg (Nat.not_le.2 hi), if_neg (Nat.not_le.2 hi)]
    by_cases hu : s.isUnset i = true
    · have hcard := hs.length_rules ▸ s.card_unknown_le
      obtain ⟨s', hv, h⟩ := exists_visit hg hs hu hcard
      have hlimit : visitBy^[n] limit i s = visit g.rules.length i s := by
        rw [← Nat.add_sub_cancel' hn, Function.iterate_add_apply]
        exact iterate_visitBy hg _ hs hu hcard
      rw [if_pos hu, if_pos hu, hlimit, hv]
      exact ih (h.alike.symm.trans hs) his
    · rw [if_neg hu, if_neg hu]
      exact ih hs his

end Survey

/-! ## Reports -/

/-- Where nothing was known, there is a report exactly if one of the rules in the
    order reaches one that can begin with itself: a report is made of a loop, and
    without reports all that is reached is known, and no rule known is on a loop. -/
theorem exists_reports_iff (hg : g.Valid)
    (hunset : ∀ i first, g.marker? i = some first → first = .unset) {order : List Nat}
    (horder : ∀ i ∈ order, i < g.rules.length) :
    ∃ s : Survey, g.addFirstsInOrder order = (.ok s.reports, s.grammar) ∧
      Survey.Grows g {i | i ∈ order} { grammar := g } s ∧
      (s.reports ≠ [] ↔ ∃ i ∈ order, ∃ j, g.Reaches i j ∧ g.LeftRecursive j) := by
  obtain ⟨s, hs, hgrows, hm⟩ := exists_addFirstsInOrder hg (.refl g) horder
  refine ⟨s, hs, hgrows, fun hne => ?_, ?_⟩
  · obtain ⟨x, hx⟩ := List.exists_mem_of_ne_nil _ hne
    rcases hgrows.genuine x hx with hx | ⟨i, hi, m, j, _, _, him, hmj, _, _, _, hback | hj⟩
    · cases hx
    · exact ⟨i, hi, m, him, .head' hmj hback⟩
    · cases hunset j _ hj
  · rintro ⟨i, hi, j, hij, hloop⟩ hreports
    have hclosed : Survey.Closed g { grammar := g } := fun i _ _ hd => nomatch hunset i _ hd
    obtain ⟨set, hd⟩ : ∃ set, s.grammar.Done i set := by
      obtain ⟨first, hfirst⟩ := hgrows.alike.symm.exists_marker? (horder i hi)
      cases first with
      | unset => exact absurd hfirst (hm i hi)
      | inProgress => cases hunset i _ ((hgrows.inProgress i).1 hfirst)
      | done set => exact ⟨set, hfirst⟩
    obtain ⟨set', hd'⟩ := (hclosed.grows hgrows hreports).exists_done hd hij
    exact hgrows.acyclic hreports hclosed j set' (computed_of_unset hunset hgrows hd') hloop

/-- Where nothing is known at first, a computation of rules in an order ends by
    itself: it goes no deeper than there are rules, whatever would be done then.
    There is a report exactly if one of these rules reaches one that can begin with
    itself, and every report is of two rules, one of which leads to the other and
    is reached from it. So whether a computation of all rules has reports does not
    depend on their order. -/
theorem leftRecursion_reported (hvalid : g.validate = .ok ())
    (hunset : ∀ r ∈ g.rules, r.first = .unset) (order : List Nat)
    (horder : ∀ i ∈ order, i < g.rules.length) :
    ∃ reports g', g.addFirstsInOrder order = (.ok reports, g') ∧
      (∀ limit n, g.rules.length ≤ n →
        Survey.visitAllBy (Survey.visitBy^[n] limit) order { grammar := g } =
          (.ok (), { grammar := g', reports })) ∧
      (reports ≠ [] ↔ ∃ i ∈ order, ∃ j, g.Reaches i j ∧ g.LeftRecursive j) ∧
      (∀ x ∈ reports, ∃ i j r r', g.rules[i]? = some r ∧ r.name = x.below ∧
        g.findIndex? x.symbol = some j ∧ g.rules[j]? = some r' ∧ r'.name = x.name ∧
        g.Leads i j ∧ g.Reaches j i) ∧
      ((∀ i < g.rules.length, i ∈ order) → ∀ order' : List Nat,
        (∀ i ∈ order', i < g.rules.length) → (∀ i < g.rules.length, i ∈ order') →
        ∃ reports' g'', g.addFirstsInOrder order' = (.ok reports', g'') ∧
          (reports' ≠ [] ↔ reports ≠ [])) := by
  have hg := validate_eq_ok_iff.1 hvalid
  have hmarker : ∀ i first, g.marker? i = some first → first = .unset := fun i first hm => by
    obtain ⟨r, hr, rfl⟩ := Option.map_eq_some_iff.1 hm
    exact hunset r (List.mem_of_getElem? hr)
  obtain ⟨s, hs, hgrows, hiff⟩ := exists_reports_iff hg hmarker horder
  refine ⟨s.reports, s.grammar, hs, fun limit n hn => ?_, hiff, fun x hx => ?_,
    fun hall order' horder' hall' => ?_⟩
  · rw [Survey.visitAllBy_iterate hg limit (.refl g) hn horder]
    obtain ⟨s', hv, -⟩ := Survey.exists_visitAll (s := { grammar := g }) hg (.refl g) horder
    rw [addFirstsInOrder, hv] at hs
    obtain ⟨hr, hg'⟩ := Prod.mk.inj hs
    rw [hv, ← hg', ← Except.ok.inj hr]
  · rcases hgrows.genuine x hx with hx | ⟨_, _, m, j, rm, rj, _, hmj, hm, hj, rfl, hback | hp⟩
    · cases hx
    · exact ⟨m, j, rm, rj, hm, rfl, hg.findIndex?_of_symbol hj, hj, rfl, hmj, hback⟩
    · cases hmarker j _ hp
  · obtain ⟨s', hs', -, hiff'⟩ := exists_reports_iff hg hmarker horder'
    refine ⟨s'.reports, s'.grammar, hs', hiff'.trans (Iff.trans ?_ hiff.symm)⟩
    -- the rules of both orders are all rules
    constructor
    · rintro ⟨i, hi, hloop⟩
      exact ⟨i, hall i (horder' i hi), hloop⟩
    · rintro ⟨i, hi, hloop⟩
      exact ⟨i, hall' i (horder i hi), hloop⟩

/-- A rule that leads to itself by way of another is reported, in either order. -/
theorem leftRecursion_reported_of_loop :
    let g : Grammar := {
      rules := [{ symbol := 256, name := "s", states := [[⟨0, 1⟩, ⟨2, 1⟩], []] },
        { symbol := 257, name := "t", states := [[⟨1, 1⟩], []] }]
      labels := [⟨257, none⟩, ⟨256, none⟩, ⟨1, none⟩]
      start := 256 }
    ∃ reports g', g.addFirstsInOrder [1, 0] = (.ok reports, g') ∧ reports ≠ [] ∧
      ∃ reports' g'', g.addFirstsInOrder [0, 1] = (.ok reports', g'') ∧
        (reports' ≠ [] ↔ reports ≠ []) := by
  intro g
  have hst : g.Leads 0 1 :=
    ⟨0, ⟨257, none⟩, _, ⟨_, _, rfl, rfl, ⟨0, 1⟩, by decide, rfl⟩, rfl, rfl, rfl, rfl⟩
  have hts : g.Leads 1 0 :=
    ⟨1, ⟨256, none⟩, _, ⟨_, _, rfl, rfl, ⟨1, 1⟩, by decide, rfl⟩, rfl, rfl, rfl, rfl⟩
  obtain ⟨reports, g', hrun, -, hiff, -, hall⟩ :=
    leftRecursion_reported (g := g) rfl (by decide) [1, 0] (by decide)
  exact ⟨reports, g', hrun, hiff.2 ⟨1, by decide, 1, .refl, .head hts (.single hst)⟩,
    hall (by decide) [0, 1] (by decide) (by decide)⟩

end ScriptCore.Grammar
