import ScriptCore.Proofs.Grammar.Room

/-!
# Searches that fail

A search of a grammar that is not valid may fail, at a label or a symbol that is not
there. The rules on the way to the failure are under way then, and stay so.

* `Blames`, `Way`: what an error is about, and the way that leads there.
* `Leaves`: what a part of the search leaves under way. Where it succeeds this is nothing,
  and where it fails the rules on the way (`visit_outcome`, `visitAll_outcome`).
* `Within`, `Follows`: a search of a grammar with more rules or labels goes the same way up
  to the failure (`visitAll_follows`), so it computes what was computed.
* `underWay_of_failure`: what a computation that fails leaves behind.
-/

namespace ScriptCore

theorem BitSet.empty_congr {m n : Nat} (h : width m = width n) : empty m = empty n := by
  rw [empty, h, empty]

theorem BitSet.merge_congr {m n : Nat} (h : width m = width n) (s t : BitSet) :
    s.merge t m = s.merge t n := by
  rw [merge, h, merge]

namespace Grammar

variable {g h : Grammar} {e : Error} {i j n m : Nat} {path : List Nat}

/-! ## The way to an error -/

/-- Whether an error is of a label on the initial state of a rule: there is no such label,
    or no rule of such a symbol. -/
inductive Blames (g : Grammar) (i : Nat) : Error → Prop
  | unknownLabel {r : Rule} {k : Nat} : g.rules[i]? = some r → g.OnInitial i k →
    g.labels[k]? = none → Blames g i (.unknownLabel r.name k)
  | undefinedSymbol {r : Rule} {k : Nat} {l : Label} : g.rules[i]? = some r →
    g.OnInitial i k → g.labels[k]? = some l → l.isTerminal = false →
    g.findIndex? l.symbol = none → Blames g i (.undefinedSymbol r.name l.symbol)

/-- A way from a rule to one that an error is about. -/
inductive Way (g : Grammar) (e : Error) : Nat → List Nat → Prop
  | blames {i : Nat} : g.Blames i e → Way g e i [i]
  | leads {i j : Nat} {path : List Nat} : g.Leads i j → Way g e j path → Way g e i (i :: path)

/-- What the rules in an order may leave under way by an error: nothing, for an index of no
    rule, or the way from one of them to the failure. -/
def Stops (g : Grammar) (order : List Nat) (e : Error) (path : List Nat) : Prop :=
  (∃ k ∈ order, g.rules.length ≤ k ∧ e = .noRule k ∧ path = []) ∨ ∃ i ∈ order, g.Way e i path

namespace Survey

variable {s s' s'' : Survey} {set : BitSet} {r : Rule} {first : First} {l : Label} {k : Nat}
  {α : Type} {visit' : Nat → Survey → Except Error Unit × Survey}

/-! ## What is left under way -/

/-- What a part of a search leaves under way, which was not known before. -/
structure Leaves (path : List Nat) (s s' : Survey) : Prop extends Later s s' where
  nodup : path.Nodup
  fresh : ∀ i ∈ path, s.grammar.marker? i = some .unset
  inProgress : ∀ i, s'.grammar.marker? i = some .inProgress ↔
    s.grammar.marker? i = some .inProgress ∨ i ∈ path

/-- How a part of a search ends, where `way` says what may be left under way by an error. -/
inductive Outcome (way : Error → List Nat → Prop) (s : Survey) : Except Error α × Survey → Prop
  | ok {a : α} {s' : Survey} : Leaves [] s s' → Outcome way s (.ok a, s')
  | error {e : Error} {path : List Nat} {s' : Survey} : way e path → Leaves path s s' →
    Outcome way s (.error e, s')

theorem Leaves.refl (s : Survey) : Leaves [] s s :=
  ⟨.refl s, List.nodup_nil, List.forall_mem_nil _, fun _ => by simp⟩

theorem Leaves.trans (h : Leaves [] s s') (h' : Leaves path s' s'') : Leaves path s s'' where
  toLater := h.toLater.trans h'.toLater
  nodup := h'.nodup
  fresh i hi := h.unset i (h'.fresh i hi)
  inProgress i := by rw [h'.inProgress, h.inProgress]; simp

theorem Leaves.report (s : Survey) (x : LeftRecursion) : Leaves [] s (s.report x) :=
  ⟨.report s x, List.nodup_nil, List.forall_mem_nil _, fun _ => by simp [Survey.report]⟩

/-- A rule that was not known is left under way with what it leads to. -/
theorem Leaves.start (hi : s.grammar.marker? i = some .unset)
    (h : Leaves path (s.mark i .inProgress) s') : Leaves (i :: path) s s' := by
  have hmark : ∀ j, (s.mark i .inProgress).grammar.marker? j =
      if j = i then some .inProgress else s.grammar.marker? j := fun j =>
    marker?_mark (by simp [hi])
  have hunset : ∀ j ∈ path, j ≠ i ∧ s.grammar.marker? j = some .unset := fun j hj => by
    have hu := h.fresh j hj
    rw [hmark] at hu
    split_ifs at hu with hji
    · cases hu
    · exact ⟨hji, hu⟩
  refine {
    toLater := (Later.start hi).trans h.toLater
    nodup := List.nodup_cons.2 ⟨fun hmem => (hunset i hmem).1 rfl, h.nodup⟩
    fresh := List.forall_mem_cons.2 ⟨hi, fun j hj => (hunset j hj).2⟩
    inProgress := fun j => ?_ }
  rw [h.inProgress, hmark, List.mem_cons]
  split_ifs with hji
  · simp [hji]
  · simp [hji]

/-- A rule that gets its set is not left under way. -/
theorem Leaves.finish (hi : s.grammar.marker? i = some .unset)
    (h : Leaves [] (s.mark i .inProgress) s') (set : BitSet) :
    Leaves [] s (s'.mark i (.done set)) := by
  have hp : s'.grammar.marker? i = some .inProgress :=
    (h.inProgress i).2 (.inl (by rw [marker?_mark (by simp [hi]), if_pos rfl]))
  refine {
    toLater := ((Later.start hi).trans h.toLater).trans (Later.finish hp set)
    nodup := List.nodup_nil
    fresh := List.forall_mem_nil _
    inProgress := fun j => ?_ }
  rw [marker?_mark (by simp [hp])]
  split_ifs with hji
  · simp [hji, hi]
  · rw [h.inProgress, marker?_mark (by simp [hi]), if_neg hji]

/-- Of the other rules each is as it was, or has got its set. -/
theorem Leaves.marker?_eq_or (h : Leaves path s s') (hi : i ∉ path) :
    s'.grammar.marker? i = s.grammar.marker? i ∨
      s.grammar.marker? i = some .unset ∧ ∃ set, s'.grammar.Done i set := by
  cases hm : s.grammar.marker? i with
  | none => exact .inl (h.alike.symm.marker?_of_none hm)
  | some first =>
    cases first with
    | done set => exact .inl (h.done i set hm)
    | inProgress => exact .inl ((h.inProgress i).2 (.inl hm))
    | unset =>
      obtain ⟨first, hfirst⟩ := h.alike.symm.exists_marker? (lt_of_marker? hm)
      cases first with
      | unset => exact .inl hfirst
      | done set => exact .inr ⟨rfl, set, hfirst⟩
      | inProgress =>
        rcases (h.inProgress i).1 hfirst with hp | hmem
        · cases hm.symm.trans hp
        · exact absurd hmem hi

section Outcome

variable {way : Error → List Nat → Prop} {x : Except Error α × Survey}

theorem Outcome.later (h : Outcome way s x) : s.Later x.2 := by
  cases h with
  | ok h => exact h.toLater
  | error _ h => exact h.toLater

/-- What leaves nothing under way may come before. -/
theorem Outcome.after (h : Outcome way s' x) (h' : Leaves [] s s') : Outcome way s x := by
  cases h with
  | ok h => exact .ok (h'.trans h)
  | error hway h => exact .error hway (h'.trans h)

end Outcome

/-- Collects the labels of a rule after one that is the symbol `x` of the rule at `j`, which
    was visited with some result. -/
def collectAfter (visit' : Nat → Survey → Except Error Unit × Survey) (r : Rule) (ks : List Nat)
    (set : BitSet) (x : Int) (j : Nat) :
    Except Error Unit × Survey → Except Error BitSet × Survey
  | (.error e, s) => (.error e, s)
  | (.ok (), s) =>
    match s.grammar.rules[j]? with
    | some { first := .done other, .. } =>
      collect visit' r ks (set.merge other s.grammar.labels.length) s
    | some { first := .inProgress, name, .. } =>
      collect visit' r ks set (s.report ⟨x, name, r.name⟩)
    | _ => collect visit' r ks set s

theorem collect_cons {ks : List Nat} (hl : s.grammar.labels[k]? = some l)
    (ht : l.isTerminal = false) (hj : s.grammar.findIndex? l.symbol = some j) :
    collect visit' r (k :: ks) set s = collectAfter visit' r ks set l.symbol j
      (if s.isUnset j then visit' j s else (.ok (), s)) := by
  rw [collect, hl]
  simp only [ht, Bool.false_eq_true, if_false, hj]
  rfl

/-- Whatever is known of the rule, collection goes on. -/
theorem exists_collectAfter_eq (visit' : Nat → Survey → Except Error Unit × Survey) (r : Rule)
    (ks : List Nat) (set : BitSet) (x : Int) (j : Nat) (s : Survey) :
    ∃ set' s', collectAfter visit' r ks set x j (.ok (), s) = collect visit' r ks set' s' ∧
      Leaves [] s s' := by
  rw [collectAfter]
  cases s.grammar.rules[j]? with
  | none => exact ⟨_, s, rfl, .refl s⟩
  | some r' =>
    obtain ⟨_, _, _, _, first⟩ := r'
    cases first with
    | unset => exact ⟨_, s, rfl, .refl s⟩
    | inProgress => exact ⟨_, _, rfl, .report s _⟩
    | done other => exact ⟨_, s, rfl, .refl s⟩

theorem collect_outcome
    (hvisit : ∀ j s, s.grammar.Alike g → s.isUnset j = true →
      Outcome (fun e path => g.Way e j path) s (visit' j s))
    (hr : g.rules[i]? = some { r with first }) (ks : List Nat) (hks : ∀ k ∈ ks, g.OnInitial i k)
    (set : BitSet) (hs : s.grammar.Alike g) :
    Outcome (fun e path => g.Way e i (i :: path)) s (collect visit' r ks set s) := by
  induction ks generalizing set s with
  | nil => exact .ok (.refl s)
  | cons k ks ih =>
    obtain ⟨hk, hks⟩ := List.forall_mem_cons.1 hks
    cases hl : s.grammar.labels[k]? with
    | none =>
      rw [collect, hl]
      exact .error (.blames (.unknownLabel (r := { r with first }) hr hk (hs.labels_eq ▸ hl)))
        (.refl s)
    | some l =>
      cases ht : l.isTerminal with
      | true =>
        rw [collect, hl]
        simp only [ht, if_true]
        exact ih hks _ hs
      | false =>
        cases hj : s.grammar.findIndex? l.symbol with
        | none =>
          rw [collect, hl]
          simp only [ht, Bool.false_eq_true, if_false, hj]
          rw [hs.findIndex?_eq] at hj
          exact .error (.blames
            (.undefinedSymbol (r := { r with first }) hr hk (hs.labels_eq ▸ hl) ht hj)) (.refl s)
        | some j =>
          obtain ⟨-, rj, hrj, hsymbol⟩ := findIndex?_eq_some_iff.1 (hs.findIndex?_eq _ ▸ hj)
          have hij : g.Leads i j := ⟨k, l, rj, hk, hs.labels_eq ▸ hl, ht, hrj, hsymbol⟩
          have hif : Outcome (fun e path => g.Way e j path) s
              (if s.isUnset j then visit' j s else (.ok (), s)) := by
            split_ifs with hu
            · exact hvisit j s hs hu
            · exact .ok (.refl s)
          rw [collect_cons hl ht hj]
          generalize (if s.isUnset j then visit' j s else (.ok (), s)) = x at hif
          cases hif with
          | error hway h => exact .error (.leads hij hway) h
          | @ok _ s' h =>
            obtain ⟨set', s'', heq, h'⟩ := exists_collectAfter_eq visit' r ks set l.symbol j s'
            have hleaves := h.trans h'
            exact heq ▸ (ih hks set' (hleaves.alike.symm.trans hs)).after hleaves

/-- A visit leaves nothing under way if it succeeds, and the way to the failure if not. -/
theorem visit_outcome (n : Nat) (hs : s.grammar.Alike g) (hi : s.isUnset i = true) :
    Outcome (fun e path => g.Way e i path) s (visit n i s) := by
  induction n generalizing i s with
  | zero => exact .ok (.refl s)
  | succ n ih =>
    have hm := isUnset_iff.1 hi
    obtain ⟨r, hr, -⟩ := Option.map_eq_some_iff.1 hm
    obtain ⟨first, hr'⟩ := hs.exists_rule hr
    have hcollect := collect_outcome (fun j s hs hj => ih hs hj) hr' r.initialLabels
      (fun k hk => hs.onInitial ((mem_initialLabels hr).1 hk)) (.empty s.grammar.labels.length)
      ((Later.start hm).alike.symm.trans hs)
    rw [visit, hr]
    simp only
    generalize collect (visit n) r r.initialLabels (.empty s.grammar.labels.length)
      (s.mark i .inProgress) = x at hcollect
    cases hcollect with
    | ok h => exact .ok (.finish hm h _)
    | error hway h => exact .error hway (.start hm h)

theorem visitAll_outcome (hs : s.grammar.Alike g) (order : List Nat) :
    Outcome (g.Stops order) s (visitAll order s) := by
  induction order generalizing s with
  | nil => exact .ok (.refl s)
  | cons i is ih =>
    have hlater : ∀ {s'}, Leaves [] s s' → Outcome (g.Stops (i :: is)) s (visitAll is s') :=
      fun {s'} h => by
        have houtcome := (ih (h.alike.symm.trans hs)).after h
        generalize visitAll is s' = x at houtcome
        cases houtcome with
        | ok h => exact .ok h
        | error hway h =>
          refine .error (hway.imp ?_ ?_) h
          · exact fun ⟨k, hk, hrest⟩ => ⟨k, List.mem_cons_of_mem i hk, hrest⟩
          · exact fun ⟨j, hj, hrest⟩ => ⟨j, List.mem_cons_of_mem i hj, hrest⟩
    rw [visitAll]
    split_ifs with hi hu
    · exact .error (.inl ⟨i, List.mem_cons_self, hs.length_rules ▸ hi, rfl, rfl⟩) (.refl s)
    · have hvisit := visit_outcome s.grammar.rules.length hs hu
      generalize visit s.grammar.rules.length i s = x at hvisit
      cases hvisit with
      | ok h => exact hlater h
      | error hway h => exact .error (.inr ⟨i, List.mem_cons_self, hway⟩) h
    · exact hlater (.refl s)

end Survey

/-! ## The same way in a larger grammar -/

/-- Whether a grammar has the rules and the labels of another at their positions, and sets
    of the same length. -/
structure Within (g h : Grammar) : Prop where
  rule : ∀ (i : Nat) (r : Rule), g.rules[i]? = some r → h.rules[i]? = some r
  label : ∀ (k : Nat) (l : Label), g.labels[k]? = some l → h.labels[k]? = some l
  width : BitSet.width g.labels.length = BitSet.width h.labels.length

theorem Within.marker? {first : First} (hw : g.Within h) (hm : g.marker? i = some first) :
    h.marker? i = some first := by
  obtain ⟨r, hr, hfirst⟩ := Option.map_eq_some_iff.1 hm
  rw [Grammar.marker?, hw.rule i r hr, ← hfirst]
  rfl

theorem Within.findIndex? {x : Int} (hw : g.Within h) (hj : g.findIndex? x = some j) :
    h.findIndex? x = some j := by
  obtain ⟨hx, r, hr, hsymbol⟩ := findIndex?_eq_some_iff.1 hj
  exact findIndex?_eq_some_iff.2 ⟨hx, r, hw.rule j r hr, hsymbol⟩

theorem Within.length_rules_le (hw : g.Within h) : g.rules.length ≤ h.rules.length :=
  Nat.le_of_not_lt fun hlt => by
    have hr := hw.rule _ _ (List.getElem?_eq_getElem hlt)
    exact Nat.lt_irrefl _ (List.getElem?_eq_some_iff.1 hr).1

namespace Survey

section Follows

variable {s t : Survey} {set : BitSet} {r : Rule} {first : First} {ks : List Nat} {α : Type}

theorem within_mark (hw : s.grammar.Within t.grammar) (i : Nat) (first : First) :
    (s.mark i first).grammar.Within (t.mark i first).grammar where
  rule j r hr := by
    rw [mark, modifyRule, List.getElem?_modify] at hr ⊢
    obtain ⟨r', hr', heq⟩ := Option.map_eq_some_iff.1 hr
    exact Option.map_eq_some_iff.2 ⟨r', hw.rule j r' hr', heq⟩
  label := hw.label
  width := hw.width

theorem isUnset_eq_of_within (hw : s.grammar.Within t.grammar) (hj : j < s.grammar.rules.length) :
    t.isUnset j = s.isUnset j := by
  have hr := List.getElem?_eq_getElem hj
  rw [isUnset, isUnset, hw.rule j _ hr, hr]

theorem visit_later (n : Nat) (hi : s.isUnset i = true) : s.Later (visit n i s).2 :=
  (visit_outcome n (.refl s.grammar) hi).later

theorem collect_later (n : Nat) (hr : g.rules[i]? = some { r with first })
    (hks : ∀ k ∈ ks, g.OnInitial i k) (hs : s.grammar.Alike g) :
    s.Later (collect (visit n) r ks set s).2 :=
  (collect_outcome (fun _ _ hs hj => visit_outcome n hs hj) hr ks hks set hs).later

theorem collectAfter_later {x : Int} {y : Except Error Unit × Survey} (n : Nat)
    (hr : g.rules[i]? = some { r with first }) (hks : ∀ k ∈ ks, g.OnInitial i k)
    (hs : y.2.grammar.Alike g) : y.2.Later (collectAfter (visit n) r ks set x j y).2 := by
  obtain ⟨_ | _, s⟩ := y
  · exact .refl s
  · obtain ⟨set', s', heq, h⟩ := exists_collectAfter_eq (visit n) r ks set x j s
    exact heq ▸ h.toLater.trans (collect_later n hr hks (h.alike.symm.trans hs))

/-- How a part of the search of a larger grammar goes on: as that of the smaller one does,
    or at will where that one fails, with the sets that it has computed. -/
inductive Follows : Except Error α × Survey → Except Error α × Survey → Prop
  | ok {a : α} {s t : Survey} : s.grammar.Within t.grammar → Follows (.ok a, s) (.ok a, t)
  | error {e : Error} {s : Survey} {y : Except Error α × Survey} :
    (∀ i set, s.grammar.Done i set → y.2.grammar.Done i set) → Follows (.error e, s) y

/-- Where a search fails at once, a larger one knows what was known. -/
theorem Follows.of_later {y : Except Error α × Survey} (hw : s.grammar.Within t.grammar)
    (h : t.Later y.2) : Follows (.error e, s) y :=
  .error fun i set hd => h.done i set (hw.marker? hd)

theorem collect_follows
    (hvisit : ∀ j s t, s.grammar.Within t.grammar → s.isUnset j = true → s.unknown.card ≤ n →
      t.unknown.card ≤ m → Follows (visit n j s) (visit m j t))
    (hr : h.rules[i]? = some { r with first }) (ks : List Nat) (hks : ∀ k ∈ ks, h.OnInitial i k)
    (set : BitSet) (ht : t.grammar.Alike h) (hw : s.grammar.Within t.grammar)
    (hn : s.unknown.card ≤ n) (hm : t.unknown.card ≤ m) :
    Follows (collect (visit n) r ks set s) (collect (visit m) r ks set t) := by
  induction ks generalizing set s t with
  | nil => exact .ok hw
  | cons k ks ih =>
    have hlater : t.Later (collect (visit m) r (k :: ks) set t).2 := collect_later m hr hks ht
    obtain ⟨hk, hks⟩ := List.forall_mem_cons.1 hks
    cases hl : s.grammar.labels[k]? with
    | none =>
      rw [collect, hl]
      exact .of_later hw hlater
    | some l =>
      cases hterminal : l.isTerminal with
      | true =>
        rw [collect, collect, hl, hw.label k l hl]
        simp only [hterminal, if_true]
        exact ih hks _ ht hw hn hm
      | false =>
        cases hj : s.grammar.findIndex? l.symbol with
        | none =>
          rw [collect, hl]
          simp only [hterminal, Bool.false_eq_true, if_false, hj]
          exact .of_later hw hlater
        | some j =>
          obtain ⟨-, rj, hrj, -⟩ := findIndex?_eq_some_iff.1 hj
          have hlt := (List.getElem?_eq_some_iff.1 hrj).1
          have hif : Follows (if s.isUnset j then visit n j s else (.ok (), s))
                (if t.isUnset j then visit m j t else (.ok (), t)) ∧
              s.Later (if s.isUnset j then visit n j s else (.ok (), s)).2 ∧
              t.Later (if t.isUnset j then visit m j t else (.ok (), t)).2 := by
            have hu := isUnset_eq_of_within hw hlt
            rw [hu]
            split_ifs with hsj
            · exact ⟨hvisit j s t hw hsj hn hm, visit_later n hsj, visit_later m (hu.trans hsj)⟩
            · exact ⟨.ok hw, .refl s, .refl t⟩
          rw [collect_cons hl hterminal hj,
            collect_cons (hw.label k l hl) hterminal (hw.findIndex? hj)]
          generalize (if s.isUnset j then visit n j s else (.ok (), s)) = x at hif ⊢
          generalize (if t.isUnset j then visit m j t else (.ok (), t)) = y at hif ⊢
          obtain ⟨hfollows, hs', ht'⟩ := hif
          cases hfollows with
          | error hdone =>
            exact .error fun i set hd =>
              (collectAfter_later m hr hks (ht'.alike.symm.trans ht)).done i set (hdone i set hd)
          | @ok _ s' t' hw' =>
            have hn' := (Finset.card_le_card hs'.unknown_subset).trans hn
            have hm' := (Finset.card_le_card ht'.unknown_subset).trans hm
            have halike := ht'.alike.symm.trans ht
            -- the same is known of the rule in both, so collection goes on alike
            obtain ⟨first, hrj'⟩ := hs'.alike.exists_rule hrj
            rw [collectAfter, collectAfter, hw'.rule j _ hrj', hrj']
            cases first with
            | unset => exact ih hks _ halike hw' hn' hm'
            | inProgress => exact ih (s := s'.report _) (t := t'.report _) hks _ halike hw' hn' hm'
            | done other =>
              simp only
              rw [BitSet.merge_congr hw'.width]
              exact ih hks _ halike hw' hn' hm'

/-- With enough steps for both, a visit in a larger grammar goes the same way. -/
theorem visit_follows (hw : s.grammar.Within t.grammar) (hi : s.isUnset i = true)
    (hn : s.unknown.card ≤ n) (hm : t.unknown.card ≤ m) :
    Follows (visit n i s) (visit m i t) := by
  induction n generalizing m i s t with
  | zero => exact absurd hn (Nat.not_le.2 (card_unknown_pos hi))
  | succ n ih =>
    have hsi := isUnset_iff.1 hi
    have hti := hw.marker? hsi
    have hsn := card_unknown_start hsi
    have htm := card_unknown_start hti
    obtain ⟨m, rfl⟩ := Nat.exists_eq_succ_of_ne_zero (n := m) (by omega)
    obtain ⟨r, hr, -⟩ := Option.map_eq_some_iff.1 hsi
    have hr' := hw.rule i r hr
    have hlabels : ∀ k ∈ r.initialLabels, t.grammar.OnInitial i k := fun k hk =>
      (mem_initialLabels hr').1 hk
    have halike := (Later.start hti).alike.symm
    have hcollect := collect_follows (m := m) (fun j s t hw hj hn hm => ih hw hj hn hm) hr'
      r.initialLabels hlabels (.empty s.grammar.labels.length) halike
      (within_mark hw i .inProgress) (by omega) (by omega)
    have houtcome := collect_outcome (fun j s hs hj => visit_outcome m hs hj) hr'
      r.initialLabels hlabels (.empty s.grammar.labels.length) halike
    rw [visit, visit, hr, hr']
    simp only
    rw [← BitSet.empty_congr hw.width]
    generalize collect (visit n) r r.initialLabels (.empty s.grammar.labels.length)
      (s.mark i .inProgress) = x at hcollect ⊢
    generalize collect (visit m) r r.initialLabels (.empty s.grammar.labels.length)
      (t.mark i .inProgress) = y at hcollect houtcome ⊢
    cases hcollect with
    | ok hw' => exact .ok (within_mark hw' i _)
    | error hdone =>
      cases houtcome with
      | error _ h => exact .error hdone
      | ok h =>
        -- the rule is still under way there, so its set takes the place of no other
        have hp := (h.inProgress i).2 (.inl (by rw [marker?_mark (by simp [hti]), if_pos rfl]))
        exact .error fun j set hd => (Later.finish hp _).done j set (hdone j set hd)

/-- What a search of some rules has computed that fails is computed in a larger grammar by a
    search of these rules, and of more. -/
theorem visitAll_follows (hw : s.grammar.Within t.grammar) (order more : List Nat)
    {s' : Survey} (hrun : visitAll order s = (.error e, s')) (hd : s'.grammar.Done i set) :
    (visitAll (order ++ more) t).2.grammar.Done i set := by
  induction order generalizing s t with
  | nil => cases hrun
  | cons j js ih =>
    rw [visitAll] at hrun
    split_ifs at hrun with hj hu
    · cases hrun
      exact (visitAll_outcome (.refl t.grammar) (j :: js ++ more)).later.done i set
        (hw.marker? hd)
    · have hlt := Nat.lt_of_not_le hj
      have hlt' := hlt.trans_le hw.length_rules_le
      have hu' := (isUnset_eq_of_within hw hlt).trans hu
      have hfollows := visit_follows hw hu s.card_unknown_le t.card_unknown_le
      rw [List.cons_append, visitAll, if_neg (Nat.not_le.2 hlt'), if_pos hu']
      generalize visit s.grammar.rules.length j s = x at hfollows hrun
      generalize visit t.grammar.rules.length j t = y at hfollows ⊢
      cases hfollows with
      | ok hw' => exact ih hw' hrun
      | error hdone =>
        cases hrun
        obtain ⟨_ | _, t'⟩ := y
        · exact hdone i set hd
        · exact (visitAll_outcome (.refl t'.grammar) (js ++ more)).later.done i set
            (hdone i set hd)
    · have hlt := Nat.lt_of_not_le hj
      have hu' : ¬t.isUnset j = true := (isUnset_eq_of_within hw hlt) ▸ hu
      rw [List.cons_append, visitAll, if_neg (Nat.not_le.2 (hlt.trans_le hw.length_rules_le)),
        if_neg hu']
      exact ih hw hrun

end Follows

end Survey

/-! ## What is left behind -/

theorem Computation.exists_order_eq (hle : g.rules.length ≤ h.rules.length) (c : Computation) :
    ∃ more, c.order h = c.order g ++ more := by
  cases c with
  | all =>
    obtain ⟨k, hk⟩ := Nat.exists_eq_add_of_le hle
    exact ⟨_, by rw [order, order, hk, List.range_add]⟩
  | inOrder order => exact ⟨[], (List.append_nil _).symm⟩

theorem addFirstsInOrder_snd (g : Grammar) (order : List Nat) :
    (g.addFirstsInOrder order).2 = (Survey.visitAll order { grammar := g }).2.grammar := by
  rw [addFirstsInOrder]
  obtain ⟨_ | _, _⟩ := Survey.visitAll order { grammar := g }
  · rfl
  · rfl

/-- In a valid grammar, a rule whose set is not known has one after a computation of all. -/
theorem exists_done_addFirsts (hg : h.Valid) (hu : h.marker? i = some .unset) :
    ∃ set, h.addFirsts.2.Done i set := by
  obtain ⟨s, hrun, hgrows, hm⟩ := exists_addFirstsInOrder hg (.refl h)
    fun i (hi : i ∈ List.range h.rules.length) => List.mem_range.1 hi
  obtain ⟨set, -, hd⟩ := hgrows.exists_computed hu (hm i (List.mem_range.2 (lt_of_marker? hu)))
  exact ⟨set, by rwa [addFirsts, hrun]⟩

/-- In a valid grammar, a rule that is under way stays so in a computation of all, and is
    reported below every rule whose set is computed that leads to it. -/
theorem addFirsts_of_inProgress (hg : h.Valid) (hi : h.marker? i = some .inProgress) :
    ∃ reports, h.addFirsts.1 = .ok reports ∧ h.addFirsts.2.marker? i = some .inProgress ∧
      ∀ j r, h.rules[j]? = some r → r.first = .unset → h.Leads j i →
        ∃ x ∈ reports, x.below = r.name := by
  obtain ⟨s, hrun, hgrows, hm⟩ := exists_addFirstsInOrder hg (.refl h)
    fun i (hi : i ∈ List.range h.rules.length) => List.mem_range.1 hi
  have hp := (hgrows.inProgress i).2 hi
  refine ⟨s.reports, by rw [addFirsts, hrun], by rwa [addFirsts, hrun], fun j r hr hu hji => ?_⟩
  have hj : h.marker? j = some .unset := by rw [marker?, hr, ← hu]; rfl
  obtain ⟨set, hcomputed⟩ :=
    hgrows.exists_computed hj (hm j (List.mem_range.2 (lt_of_marker? hj)))
  rcases (hgrows.complete j set hcomputed).leads i r hji hr with ⟨set', hd, -⟩ | ⟨-, hreport⟩
  · cases hp.symm.trans hd
  · exact hreport

theorem marker?_of_more_rules (hrules : g.rules <+: h.rules) {first : First}
    (hm : g.marker? i = some first) : h.marker? i = some first := by
  obtain ⟨more, hmore⟩ := hrules
  rw [marker?, ← hmore, List.getElem?_append_left (lt_of_marker? hm), ← hm, marker?]

/-- A computation that fails, where no rule was under way, leaves the rules on the way to
    the failure under way, and only these. Of the others each is as it was, or has the set
    that the same computation finds for it in every grammar with more rules or labels, as
    long as sets have one length. Once the grammar is repaired, a computation of all rules
    finds a set for each rule on the way if it was not called before, and else leaves it
    under way, with a report below the rules whose sets it finds that lead to it. -/
theorem underWay_of_failure (c : Computation) {g' : Grammar}
    (hmarkers : ∀ i, g.marker? i ≠ some .inProgress) (hrun : c.run g = (.error e, g')) :
    ∃ path, g.Stops (c.order g) e path ∧ path.Nodup ∧ g'.clearFirsts = g.clearFirsts ∧
      (∀ i, g'.marker? i = some .inProgress ↔ i ∈ path) ∧
      (∀ i ∉ path, g'.marker? i = g.marker? i ∨ g.marker? i = some .unset ∧
        ∃ set, g'.Done i set ∧ ∀ h, g.Within h → (c.run h).2.Done i set) ∧
      ∀ i ∈ path, g.marker? i = some .unset ∧
        (∀ h : Grammar, g.rules <+: h.rules → h.validate = .ok () →
          ∃ set, h.addFirsts.2.Done i set) ∧
        ∀ h : Grammar, g'.rules <+: h.rules → h.validate = .ok () →
          ∃ reports, h.addFirsts.1 = .ok reports ∧
            h.addFirsts.2.marker? i = some .inProgress ∧
            ∀ j r, h.rules[j]? = some r → r.first = .unset → h.Leads j i →
              ∃ x ∈ reports, x.below = r.name := by
  rw [c.run_eq, addFirstsInOrder] at hrun
  have houtcome := Survey.visitAll_outcome (s := { grammar := g }) (.refl g) (c.order g)
  generalize hx : Survey.visitAll (c.order g) { grammar := g } = x at hrun houtcome
  cases houtcome with
  | ok h => cases hrun
  | @error _ path s hway hleaves =>
    cases hrun
    have hunderWay : ∀ i, s.grammar.marker? i = some .inProgress ↔ i ∈ path := fun i =>
      (hleaves.inProgress i).trans (or_iff_right (hmarkers i))
    refine ⟨path, hway, hleaves.nodup, hleaves.alike.symm, hunderWay, fun i hi => ?_,
      fun i hi => ⟨hleaves.fresh i hi, fun h hrules hvalid => ?_, fun h hrules hvalid => ?_⟩⟩
    · rcases hleaves.marker?_eq_or hi with heq | ⟨hu, set, hd⟩
      · exact .inl heq
      · refine .inr ⟨hu, set, hd, fun h hw => ?_⟩
        obtain ⟨more, hmore⟩ := c.exists_order_eq hw.length_rules_le
        rw [c.run_eq, addFirstsInOrder_snd, hmore]
        exact Survey.visitAll_follows hw (c.order g) more hx hd
    · exact exists_done_addFirsts (validate_eq_ok_iff.1 hvalid)
        (marker?_of_more_rules hrules (hleaves.fresh i hi))
    · exact addFirsts_of_inProgress (validate_eq_ok_iff.1 hvalid)
        (marker?_of_more_rules hrules ((hunderWay i).2 hi))

/-- A rule with a set, and two on the way to a symbol of no rule. -/
theorem underWay_of_failure_of_missing :
    let g : Grammar := {
      rules := [{ symbol := 256, name := "s", states := [[⟨0, 1⟩], []] },
        { symbol := 257, name := "t", states := [[⟨1, 1⟩], []] },
        { symbol := 258, name := "u", states := [[⟨2, 1⟩], []] }]
      labels := [⟨257, none⟩, ⟨300, none⟩, ⟨1, none⟩]
      start := 256 }
    (∀ i, g.marker? i ≠ some .inProgress) ∧
      ∃ g', (Computation.inOrder [2, 0]).run g = (.error (.undefinedSymbol "t" 300), g') ∧
        g'.Done 2 ⟨[4]⟩ ∧
        ∃ path : List Nat, path.Nodup ∧ ∀ i, g'.marker? i = some .inProgress ↔ i ∈ path := by
  intro g
  have hmarkers : ∀ i, g.marker? i ≠ some .inProgress := by
    rintro (_ | _ | _ | i) ⟨⟩
  have hdone : ((Computation.inOrder [2, 0]).run g).2.marker? 2 = some (.done ⟨[4]⟩) := by decide
  obtain ⟨g', hrun⟩ : ∃ g', (Computation.inOrder [2, 0]).run g =
      (.error (.undefinedSymbol "t" 300), g') := ⟨_, rfl⟩
  rw [hrun] at hdone
  obtain ⟨path, -, hnodup, -, hunderWay, -⟩ := underWay_of_failure _ hmarkers hrun
  exact ⟨hmarkers, g', hrun, hdone, path, hnodup, hunderWay⟩

/-- A rule that leads to a missing one is left under way. When that one is added, and one that
    leads to the first, it stays so and is reported, though it cannot begin with itself. If it
    was not called before the repair, its set is found without a report. -/
theorem retry_differs :
    let g : Grammar := {
      rules := [{ symbol := 256, name := "S", states := [[⟨0, 0⟩]] }]
      labels := [⟨257, none⟩, ⟨1, none⟩, ⟨256, none⟩]
      start := 256 }
    let repair : Grammar → Grammar := fun g => { g with
      rules := g.rules ++ [{ symbol := 257, name := "T", states := [[⟨1, 0⟩]] },
        { symbol := 258, name := "U", states := [[⟨2, 0⟩]] }] }
    g.marker? 0 = some .unset ∧
      g.addFirsts.1 = .error (.undefinedSymbol "S" 257) ∧
      g.addFirsts.2.marker? 0 = some .inProgress ∧
      (repair g).validate = .ok () ∧ (repair g).addFirsts.1 = .ok [] ∧
      (repair g).addFirsts.2.Done 0 ⟨[2]⟩ ∧ (repair g).addFirsts.2.Done 2 ⟨[2]⟩ ∧
      (repair g.addFirsts.2).validate = .ok () ∧
      (repair g.addFirsts.2).addFirsts.1 = .ok [⟨256, "S", "U"⟩] ∧
      (repair g.addFirsts.2).addFirsts.2.marker? 0 = some .inProgress ∧
      (repair g.addFirsts.2).addFirsts.2.Done 2 ⟨[0]⟩ :=
  ⟨rfl, rfl, rfl, rfl, rfl, rfl, rfl, rfl, rfl, rfl, rfl⟩

end Grammar

end ScriptCore
