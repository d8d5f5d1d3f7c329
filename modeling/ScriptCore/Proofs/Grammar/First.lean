import ScriptCore.Proofs.Grammar.Survey

/-!
# First sets of valid grammars

The first sets that are computed of a valid grammar, compared with the labels
that a rule begins with (`IsFirst`).

* `compute_exact`: where no rule can begin with itself, every computation finds
  exactly these, in whatever order and whatever is known already.
* `first_of_unset`: where rules can, a computation that begins with nothing
  known finds no others, all on a rule's own initial state, and exactly these
  for the first rule and for every rule that reaches none with a report.
-/

namespace ScriptCore.Grammar

open Relation

variable {g g' g'' : Grammar} {set : BitSet} {i j k : Nat}

theorem exists_addFirstsInOrder (hg : g.Valid) (hs : g'.Alike g) {order : List Nat}
    (horder : ∀ i ∈ order, i < g.rules.length) :
    ∃ s : Survey, g'.addFirstsInOrder order = (.ok s.reports, s.grammar) ∧
      Survey.Grows g {i | i ∈ order} { grammar := g' } s ∧
      ∀ i ∈ order, s.grammar.marker? i ≠ some .unset := by
  obtain ⟨s, hv, hgrows, hm⟩ := Survey.exists_visitAll (s := { grammar := g' }) hg hs horder
  exact ⟨s, by rw [addFirstsInOrder, hv], hgrows, hm⟩

/-- A set has all that its rule begins with, if no rule on the way from there has
    a report: every other one takes in the sets of the rules that it leads to. -/
theorem Survey.mem_of_isFirst {s : Survey} (good : Nat → Prop)
    (hgood : ∀ i j, good i → g.Leads i j → good j)
    (hreports : ∀ i r, good i → g.rules[i]? = some r → ∀ x ∈ s.reports, x.below ≠ r.name)
    (hsets : ∀ i set, good i → s.grammar.Done i set →
      (∀ k, g.IsFirst i k → k ∈ set) ∨ Survey.Complete g s i set)
    (hi : good i) (hd : s.grammar.Done i set) (hk : g.IsFirst i k) : k ∈ set := by
  obtain ⟨j, hij, hj⟩ := hk
  induction hij using ReflTransGen.head_induction_on generalizing set with
  | refl =>
    rcases hsets _ set hi hd with hall | hc
    · exact hall k ⟨j, .refl, hj⟩
    · exact hc.begins k hj
  | @head i m him hmj ih =>
    rcases hsets _ set hi hd with hall | hc
    · exact hall k ⟨j, .head him hmj, hj⟩
    · obtain ⟨r, hr⟩ := him.exists_rule
      rcases hc.leads m r him hr with ⟨set', hd', hsub⟩ | ⟨-, x, hx, hbelow⟩
      · exact hsub k (ih (hgood _ _ hi him) hd') (IsFirst.lt ⟨j, hmj, hj⟩)
      · exact absurd hbelow (hreports _ r hi hr x hx)

/-! ## Without left recursion -/

/-- Whether the first sets that are known are those of a grammar, and none is
    under way. -/
structure Settled (g g' : Grammar) : Prop where
  alike : g'.Alike g
  mem_iff : ∀ i set, g'.Done i set → ∀ k, k ∈ set ↔ g.IsFirst i k
  inProgress : ∀ i, g'.marker? i ≠ some .inProgress

/-- Whether the first sets that were known are left, and others have the length
    of the labels. -/
def Extends (g g' : Grammar) : Prop :=
  ∀ i, g'.marker? i = g.marker? i ∨ g.marker? i = some .unset ∧
    ∃ set, g'.Done i set ∧ set.bytes.length = BitSet.width g.labels.length

theorem Settled.exists_done (h : Settled g g') (hi : i < g.rules.length)
    (hm : g'.marker? i ≠ some .unset) : ∃ set, g'.Done i set := by
  obtain ⟨first, hfirst⟩ := h.alike.exists_marker? hi
  cases first with
  | unset => exact absurd hfirst hm
  | inProgress => exact absurd hfirst (h.inProgress i)
  | done set => exact ⟨set, hfirst⟩

theorem Settled.addFirstsInOrder (hg : g.Valid) (hacyclic : ∀ i, ¬g.LeftRecursive i)
    (h : Settled g g') {order : List Nat} (horder : ∀ i ∈ order, i < g.rules.length) :
    ∃ g'', g'.addFirstsInOrder order = (.ok [], g'') ∧ Settled g g'' ∧ Extends g' g'' ∧
      ∀ i ∈ order, ∃ set, g''.Done i set := by
  obtain ⟨s, hs, hgrows, hm⟩ := exists_addFirstsInOrder hg h.alike horder
  -- a report is made of a loop, or of a rule that was under way before
  have hreports : s.reports = [] := by
    refine List.eq_nil_iff_forall_not_mem.2 fun x hx => ?_
    rcases hgrows.genuine x hx with hx | ⟨_, _, m, j, _, _, _, hmj, _, _, _, hback | hj⟩
    · cases hx
    · exact hacyclic m (.head' hmj hback)
    · exact h.inProgress j hj
  have hsound : Survey.Sound g s := hgrows.sound fun i set hd k => (h.mem_iff i set hd k).1
  have hsettled : Settled g s.grammar := by
    refine ⟨hgrows.alike.symm.trans h.alike, fun i set hd k => ⟨hsound i set hd k, fun hk => ?_⟩,
      fun i hi => h.inProgress i ((hgrows.inProgress i).1 hi)⟩
    refine Survey.mem_of_isFirst (fun _ => True) (fun _ _ _ _ => trivial) ?_ ?_ trivial hd hk
    · rw [hreports]
      exact fun _ _ _ _ x hx => nomatch hx
    · intro i set _ hd
      rcases hgrows.done_or hd with hd | hnew
      · exact .inl fun k => (h.mem_iff i set hd k).2
      · exact .inr (hgrows.complete i set hnew)
  refine ⟨s.grammar, by rw [hs, hreports], hsettled, fun i => ?_,
    fun i hi => hsettled.exists_done (horder i hi) (hm i hi)⟩
  cases hfirst : s.grammar.marker? i with
  | none =>
    rcases lt_or_ge i g.rules.length with hi | hi
    · obtain ⟨first, hm'⟩ := hsettled.alike.exists_marker? hi
      cases hfirst.symm.trans hm'
    · exact .inl (h.alike.marker?_eq_none hi).symm
  | some first =>
    cases first with
    | unset => exact .inl (hgrows.unset i hfirst).symm
    | inProgress => exact absurd hfirst (hsettled.inProgress i)
    | done set =>
      rcases hgrows.done_or hfirst with hd | hnew
      · exact .inl hd.symm
      · refine .inr ⟨hnew.1, set, hnew.2, ?_⟩
        rw [(hgrows.complete i set hnew).length, h.alike.labels_eq]

/-- A computation of first sets, of all rules, or of those at some positions. -/
inductive Computation
  | all
  | inOrder (order : List Nat)

/-- The positions of the rules that a computation names. -/
def Computation.order (g : Grammar) : Computation → List Nat
  | all => List.range g.rules.length
  | inOrder order => order

/-- Performs a computation. -/
def Computation.run (g : Grammar) :
    Computation → Except Error (List LeftRecursion) × Grammar
  | all => g.addFirsts
  | inOrder order => g.addFirstsInOrder order

/-- Performs computations one after the other: their results, and the grammar
    with what was computed. -/
def computeAll (g : Grammar) : List Computation →
    List (Except Error (List LeftRecursion)) × Grammar
  | [] => ([], g)
  | c :: cs => ((c.run g).1 :: (computeAll (c.run g).2 cs).1, (computeAll (c.run g).2 cs).2)

theorem Computation.run_eq (g : Grammar) (c : Computation) :
    c.run g = g.addFirstsInOrder (c.order g) := by
  cases c <;> rfl

theorem Alike.order_eq (h : g'.Alike g) (c : Computation) : c.order g' = c.order g := by
  cases c with
  | all => exact congrArg List.range h.length_rules
  | inOrder order => rfl

theorem Extends.done (h : Extends g g') (hd : g.Done i set) : g'.Done i set := by
  rcases h i with heq | ⟨hu, -⟩
  · exact heq.trans hd
  · cases hu.symm.trans hd

theorem Extends.refl (g : Grammar) : Extends g g := fun _ => .inl rfl

theorem Extends.trans (h : Extends g g') (h' : Extends g' g'') (hlabels : g'.labels = g.labels) :
    Extends g g'' := by
  intro i
  rcases h' i with heq | ⟨hu, hnew⟩
  · simp only [Done, heq]
    exact h i
  · rcases h i with heq | ⟨hu', set, hd, -⟩
    · exact .inr ⟨heq ▸ hu, hlabels ▸ hnew⟩
    · cases hu.symm.trans hd

theorem Settled.computeAll (hg : g.Valid) (hacyclic : ∀ i, ¬g.LeftRecursive i)
    (h : Settled g g') {calls : List Computation}
    (hcalls : ∀ c ∈ calls, ∀ i ∈ c.order g, i < g.rules.length) :
    (∀ x ∈ (g'.computeAll calls).1, x = .ok []) ∧ Settled g (g'.computeAll calls).2 ∧
      Extends g' (g'.computeAll calls).2 ∧
      ∀ c ∈ calls, ∀ i ∈ c.order g, ∃ set, (g'.computeAll calls).2.Done i set := by
  induction calls generalizing g' with
  | nil => exact ⟨by simp [Grammar.computeAll], h, .refl g', by simp⟩
  | cons c cs ih =>
    obtain ⟨hc, hcs⟩ := List.forall_mem_cons.1 hcalls
    obtain ⟨g'', hrun, h', hext, hdone⟩ := h.addFirstsInOrder hg hacyclic hc
    rw [← h.alike.order_eq, ← Computation.run_eq] at hrun
    obtain ⟨hresults, hsettled, hext', hdone'⟩ := ih h' hcs
    rw [Grammar.computeAll, hrun]
    refine ⟨List.forall_mem_cons.2 ⟨rfl, hresults⟩, hsettled, ?_, ?_⟩
    · exact hext.trans hext' (h'.alike.trans h.alike.symm).labels_eq
    · refine List.forall_mem_cons.2 ⟨fun i hi => ?_, hdone'⟩
      obtain ⟨set, hd⟩ := hdone i hi
      exact ⟨set, hext'.done hd⟩

/-- Where everything is known, the grammar is known by what was known before. -/
theorem Settled.eq_of_extends {g₁ g₂ : Grammar} (h₁ : Settled g g₁) (h₂ : Settled g g₂)
    (hext₁ : Extends g' g₁) (hext₂ : Extends g' g₂)
    (hd₁ : ∀ i < g.rules.length, ∃ set, g₁.Done i set)
    (hd₂ : ∀ i < g.rules.length, ∃ set, g₂.Done i set) : g₁ = g₂ := by
  refine (h₁.alike.trans h₂.alike.symm).eq_of_marker? fun i => ?_
  rcases lt_or_ge i g.rules.length with hi | hi
  · obtain ⟨set₁, hset₁⟩ := hd₁ i hi
    obtain ⟨set₂, hset₂⟩ := hd₂ i hi
    rcases hext₁ i with heq₁ | ⟨hu, u₁, hu₁, hlen₁⟩
    · have hd : g'.Done i set₁ := heq₁.symm.trans hset₁
      exact hset₁.trans (hext₂.done hd).symm
    · rcases hext₂ i with heq₂ | ⟨-, u₂, hu₂, hlen₂⟩
      · cases (heq₂.trans hu).symm.trans hset₂
      · rw [hu₁, hu₂]
        have hu : u₁ = u₂ := by
          refine BitSet.ext_of_mem (hlen₁.trans hlen₂.symm) fun k => ?_
          exact (h₁.mem_iff i u₁ hu₁ k).trans (h₂.mem_iff i u₂ hu₂ k).symm
        rw [hu]
  · rw [h₁.alike.marker?_eq_none hi, h₂.alike.marker?_eq_none hi]

theorem settled_of_markers (hmarkers : ∀ i < g.rules.length, g.marker? i = some .unset ∨
    ∃ set, g.Done i set ∧ ∀ k, k ∈ set ↔ g.IsFirst i k) : Settled g g := by
  refine ⟨.refl g, fun i set hd => ?_, fun i hi => ?_⟩
  · rcases hmarkers i (lt_of_marker? hd) with hu | ⟨set', hd', hmem⟩
    · cases hu.symm.trans hd
    · cases hd'.symm.trans hd
      exact hmem
  · rcases hmarkers i (lt_of_marker? hi) with hu | ⟨set', hd', -⟩
    · cases hu.symm.trans hi
    · cases hd'.symm.trans hi

/-- Where no rule can begin with itself, and what is known of first sets is right,
    all computations succeed without a report, and find the right sets for the
    rules that they name. They change nothing but what is known. So computations
    that name all rules lead to one grammar, and those of rules that are known
    change nothing. -/
theorem compute_exact (hvalid : g.validate = .ok ()) (hacyclic : ∀ i, ¬g.LeftRecursive i)
    (hmarkers : ∀ i < g.rules.length, g.marker? i = some .unset ∨
      ∃ set, g.Done i set ∧ ∀ k, k ∈ set ↔ g.IsFirst i k)
    (calls : List Computation) (hcalls : ∀ c ∈ calls, ∀ i ∈ c.order g, i < g.rules.length) :
    (∀ x ∈ (g.computeAll calls).1, x = .ok []) ∧
      (g.computeAll calls).2.clearFirsts = g.clearFirsts ∧
      (∀ i set, (g.computeAll calls).2.Done i set → ∀ k, k ∈ set ↔ g.IsFirst i k) ∧
      (∀ c ∈ calls, ∀ i ∈ c.order g, ∃ set, (g.computeAll calls).2.Done i set) ∧
      (∀ calls', (∀ c ∈ calls', ∀ i ∈ c.order g, i < g.rules.length) →
        (∀ i < g.rules.length, ∃ c ∈ calls, i ∈ c.order g) →
        (∀ i < g.rules.length, ∃ c ∈ calls', i ∈ c.order g) →
        (g.computeAll calls').2 = (g.computeAll calls).2) ∧
      ∀ c : Computation, (∀ i ∈ c.order g, ∃ c' ∈ calls, i ∈ c'.order g) →
        c.run (g.computeAll calls).2 = (.ok [], (g.computeAll calls).2) := by
  have hg := validate_eq_ok_iff.1 hvalid
  have hsettled := settled_of_markers hmarkers
  obtain ⟨hresults, h, hext, hdone⟩ := hsettled.computeAll hg hacyclic hcalls
  refine ⟨hresults, h.alike, h.mem_iff, hdone, fun calls' hcalls' hall hall' => ?_, fun c hc => ?_⟩
  · obtain ⟨-, h', hext', hdone'⟩ := hsettled.computeAll hg hacyclic hcalls'
    refine h'.eq_of_extends h hext' hext (fun i hi => ?_) fun i hi => ?_
    · obtain ⟨c, hc, hci⟩ := hall' i hi
      exact hdone' c hc i hci
    · obtain ⟨c, hc, hci⟩ := hall i hi
      exact hdone c hc i hci
  · -- the rules of `c` are known, so none of them is visited again
    have hknown : Survey.visitAll (c.order g) { grammar := (g.computeAll calls).2 } =
        (.ok (), { grammar := (g.computeAll calls).2 }) := by
      refine Survey.visitAll_of_known fun i hi => ?_
      obtain ⟨c', hc', hci⟩ := hc i hi
      obtain ⟨set, hd⟩ := hdone c' hc' i hci
      refine ⟨h.alike.length_rules ▸ hcalls c' hc' i hci, ?_⟩
      rw [Bool.eq_false_iff, Ne, Survey.isUnset_iff]
      exact fun hu => by cases hd.symm.trans hu
    rw [Computation.run_eq, h.alike.order_eq, Grammar.addFirstsInOrder, hknown]

/-- In either order, a rule that leads to another has its labels. -/
theorem compute_exact_of_chain :
    let g : Grammar := {
      rules := [{ symbol := 256, name := "s", states := [[⟨0, 1⟩], []] },
        { symbol := 257, name := "t", states := [[⟨1, 1⟩], []] }]
      labels := [⟨257, none⟩, ⟨1, none⟩]
      start := 256 }
    (∀ x ∈ (g.computeAll [.inOrder [0, 1], .all]).1, x = .ok []) ∧
      (g.computeAll [.inOrder [1, 0]]).2 = (g.computeAll [.inOrder [0, 1], .all]).2 := by
  intro g
  have hleads : ∀ i j, g.Leads i j → i < j := by
    rintro (_ | _ | i) j ⟨k, l, r, ⟨r', arcs, hr', ha, a, ha', rfl⟩, hl, ht, hr, hsymbol⟩
    · cases hr'
      cases ha
      cases List.mem_singleton.1 ha'
      cases hl
      rcases j with _ | _ | j
      · cases hr
        cases hsymbol
      · exact Nat.zero_lt_one
      · cases hr
    · cases hr'
      cases ha
      cases List.mem_singleton.1 ha'
      cases hl
      cases ht
    · cases hr'
  have hreaches : ∀ i j, TransGen g.Leads i j → i < j := fun i j hij =>
    hij.trans_induction_on (hleads _ _) fun _ _ => lt_trans
  have hacyclic : ∀ i, ¬g.LeftRecursive i := fun i hi => lt_irrefl i (hreaches i i hi)
  have hunset : ∀ i < 2, g.marker? i = some .unset := by decide
  have h := compute_exact (g := g) rfl hacyclic (fun i hi => .inl (hunset i hi))
    [.inOrder [0, 1], .all] (by decide)
  exact ⟨h.1, h.2.2.2.2.1 [.inOrder [1, 0]] (by decide) (by decide) (by decide)⟩
/-! ## With left recursion -/

section Unset

variable {s s' : Survey} (hs : s.grammar.Alike g)
  (hunset : ∀ i first, s.grammar.marker? i = some first → first = .unset)

include hunset

theorem sound_of_unset : Survey.Sound g s := fun i _ hd => nomatch hunset i _ hd

theorem computed_of_unset {roots : Set Nat} (hgrows : Survey.Grows g roots s s')
    (hd : s'.grammar.Done i set) : Survey.Computed s s' i set :=
  (hgrows.done_or hd).resolve_left fun hd => nomatch hunset i _ hd

include hs

/-- A rule that is visited where nothing was known has the right set: all that it
    reaches is computed on the way. -/
theorem mem_iff_of_visited (hv : Survey.Visited g i s s') (hd : s'.grammar.Done i set) (k : Nat) :
    k ∈ set ↔ g.IsFirst i k := by
  refine ⟨hv.sound (sound_of_unset hunset) i set hd k, fun ⟨j, hij, hj⟩ => ?_⟩
  obtain ⟨set', hd', hcovers⟩ := hv.known
  cases hd'.symm.trans hd
  -- no rule stays under way, so each that is reached has a set
  have hdone : ∀ j, g.Reaches i j → ∃ u, s'.grammar.Done j u := fun j hij => by
    induction hij with
    | refl => exact ⟨set, hd⟩
    | @tail m j _ hmj ih =>
      obtain ⟨u, hu⟩ := ih
      obtain ⟨r, hr⟩ := hmj.exists_rule
      have hc := hv.complete m u (computed_of_unset hunset hv.toGrows hu)
      rcases hc.leads j r hmj hr with ⟨u', hu', -⟩ | ⟨hne, -⟩
      · exact ⟨u', hu'⟩
      · obtain ⟨first, hfirst⟩ := (hv.alike.symm.trans hs).exists_marker? hmj.lt
        cases first with
        | unset => exact absurd hfirst hne
        | inProgress => cases hunset j _ ((hv.inProgress j).1 hfirst)
        | done u' => exact ⟨u', hfirst⟩
  obtain ⟨u, hu⟩ := hdone j hij
  exact hcovers j u (computed_of_unset hunset hv.toGrows hu) k hj

/-- So has the first rule of an order, whatever follows. -/
theorem exists_visitAll_head (hg : g.Valid) {is : List Nat}
    (horder : ∀ j ∈ i :: is, j < g.rules.length) :
    ∃ s', Survey.visitAll (i :: is) s = (.ok (), s') ∧
      ∃ set, s'.grammar.Done i set ∧ ∀ k, k ∈ set ↔ g.IsFirst i k := by
  obtain ⟨hi, his⟩ := List.forall_mem_cons.1 horder
  have hu : s.isUnset i = true := by
    obtain ⟨first, hfirst⟩ := hs.exists_marker? hi
    rw [Survey.isUnset_iff, hfirst, hunset i first hfirst]
  obtain ⟨s', hv, h⟩ := Survey.exists_visit hg hs hu s.card_unknown_le
  obtain ⟨s'', hv', h', -⟩ := Survey.exists_visitAll hg (h.alike.symm.trans hs) his
  obtain ⟨set, hd, -⟩ := h.known
  exact ⟨s'', (Survey.visitAll_cons (hs.length_rules ▸ hi) hu hv).trans hv', set,
    h'.done i set hd, mem_iff_of_visited hs hunset h hd⟩

end Unset

/-- Where nothing is known at first, whatever rules can begin with themselves, a
    computation of rules in an order finds for each only what it begins with,
    and all that is on its own initial state. It finds exactly what the rule
    begins with for the first in the order, and for each from which no rule is
    reached below which a report was made. -/
theorem first_of_unset (hvalid : g.validate = .ok ()) (hunset : ∀ r ∈ g.rules, r.first = .unset)
    (order : List Nat) (horder : ∀ i ∈ order, i < g.rules.length) :
    ∃ reports g', g.addFirstsInOrder order = (.ok reports, g') ∧
      (∀ i set, g'.Done i set → (∀ k ∈ set, g.IsFirst i k) ∧ ∀ k, g.Begins i k → k ∈ set) ∧
      (∀ i ∈ order.head?, ∃ set, g'.Done i set ∧ ∀ k, k ∈ set ↔ g.IsFirst i k) ∧
      ∀ i set, g'.Done i set → (∀ j r, g.Reaches i j → g.rules[j]? = some r →
        ∀ x ∈ reports, x.below ≠ r.name) → ∀ k, k ∈ set ↔ g.IsFirst i k := by
  have hg := validate_eq_ok_iff.1 hvalid
  have hmarker : ∀ i first, g.marker? i = some first → first = .unset := fun i first hm => by
    obtain ⟨r, hr, rfl⟩ := Option.map_eq_some_iff.1 hm
    exact hunset r (List.mem_of_getElem? hr)
  obtain ⟨s, hs, hgrows, -⟩ := exists_addFirstsInOrder hg (.refl g) horder
  have hsound : Survey.Sound g s := hgrows.sound (sound_of_unset hmarker)
  have hcomplete : ∀ i set, s.grammar.Done i set → Survey.Complete g s i set := fun i set hd =>
    hgrows.complete i set (computed_of_unset hmarker hgrows hd)
  refine ⟨s.reports, s.grammar, hs, fun i set hd => ⟨hsound i set hd, (hcomplete i set hd).begins⟩,
    fun i hi => ?_, fun i set hd hbelow k => ⟨hsound i set hd k, fun hk => ?_⟩⟩
  · obtain ⟨is, rfl⟩ := List.head?_eq_some_iff.1 hi
    obtain ⟨s', hv, set, hd, hmem⟩ :=
      exists_visitAll_head (s := { grammar := g }) (.refl g) hmarker hg horder
    rw [addFirstsInOrder, hv] at hs
    rw [← (Prod.mk.inj hs).2]
    exact ⟨set, hd, hmem⟩
  · refine Survey.mem_of_isFirst (fun i => ∀ j r, g.Reaches i j → g.rules[j]? = some r →
      ∀ x ∈ s.reports, x.below ≠ r.name) ?_ ?_ ?_ hbelow hd hk
    · exact fun i j h hij m r hjm => h m r (.head hij hjm)
    · exact fun i r h hr => h i r .refl hr
    · exact fun i set _ hd => .inr (hcomplete i set hd)

/-- Of two rules that lead to each other, the first has the labels of both. -/
theorem first_of_unset_of_loop :
    let g : Grammar := {
      rules := [{ symbol := 256, name := "s", states := [[⟨0, 1⟩], []] },
        { symbol := 257, name := "t", states := [[⟨1, 1⟩, ⟨2, 1⟩], []] }]
      labels := [⟨257, none⟩, ⟨256, none⟩, ⟨1, none⟩]
      start := 256 }
    ∃ reports g', g.addFirstsInOrder [0, 1] = (.ok reports, g') ∧
      ∃ set, g'.Done 0 set ∧ ∀ k, k ∈ set ↔ g.IsFirst 0 k := by
  intro g
  obtain ⟨reports, g', hrun, -, hhead, -⟩ :=
    first_of_unset (g := g) rfl (by decide) [0, 1] (by decide)
  exact ⟨reports, g', hrun, hhead 0 rfl⟩

end ScriptCore.Grammar
