import Mathlib.Data.Set.Basic
import ScriptCore.Proofs.BitSet
import ScriptCore.Proofs.Grammar.Validity

/-!
# Surveys of a valid grammar

What the computation of first sets does to a survey of a valid grammar,
whatever is known at its beginning. The computation is a search: the rules that
are under way are those on the way to the current one, and a rule is left with
its set once the labels on its initial state are collected.

* `Later`: what is known stays known.
* `Grows`: what a part of the search does. The sets that it computes are
  `Complete` as far as the reports allow, and contain no more than they should
  if those did that were known before; a report is made for a rule that leads
  to one under way, and hence to itself.
* `Visited`, `Collected`: what a visit of a rule does, and what the collection
  of its labels does. All that begins a rule computed on the way is in the set.
* `exists_visitAll`: the search always succeeds.
-/

namespace ScriptCore.Grammar.Survey

open Relation

variable {g : Grammar} {s s' s'' : Survey} {set set' set'' : BitSet} {i j k n : Nat}

/-! ## Markers -/

theorem isUnset_iff : s.isUnset i = true ↔ s.grammar.marker? i = some .unset := by
  rw [isUnset, marker?]
  cases s.grammar.rules[i]? <;> simp

theorem marker?_mark {first : First} (hi : s.grammar.marker? i ≠ none) :
    (s.mark i first).grammar.marker? j = if j = i then some first else s.grammar.marker? j := by
  rw [mark, marker?_modifyRule]
  split_ifs with h
  · obtain ⟨m, hm⟩ := Option.ne_none_iff_exists'.1 hi
    rw [h, hm, Option.map_some]
  · rfl

theorem done_mark_iff {first : First} (hi : s.grammar.marker? i ≠ none) :
    (s.mark i first).grammar.Done j set ↔
      j = i ∧ first = .done set ∨ j ≠ i ∧ s.grammar.Done j set := by
  rw [Done, marker?_mark hi, Done]
  split_ifs with hj
  · simp [hj]
  · simp [hj]

/-- The rules whose first sets are not known. -/
def unknown (s : Survey) : Finset Nat :=
  (Finset.range s.grammar.rules.length).filter fun i => s.isUnset i = true

theorem mem_unknown : i ∈ s.unknown ↔ s.grammar.marker? i = some .unset := by
  rw [unknown, Finset.mem_filter, Finset.mem_range, isUnset_iff, and_iff_right_iff_imp]
  intro h
  obtain ⟨r, hr, -⟩ := Option.map_eq_some_iff.1 h
  exact (List.getElem?_eq_some_iff.1 hr).1

theorem card_unknown_pos (hi : s.isUnset i = true) : 0 < s.unknown.card :=
  Finset.card_pos.2 ⟨i, mem_unknown.2 (isUnset_iff.1 hi)⟩

/-! ## What a part of the search does -/

/-- What is known stays known, and what was reported stays so. -/
structure Later (s s' : Survey) : Prop where
  alike : s.grammar.Alike s'.grammar
  done : ∀ i set, s.grammar.Done i set → s'.grammar.Done i set
  unset : ∀ i, s'.grammar.marker? i = some .unset → s.grammar.marker? i = some .unset
  reports : s.reports ⊆ s'.reports

theorem Later.refl (s : Survey) : s.Later s :=
  ⟨.refl _, fun _ _ h => h, fun _ h => h, fun _ h => h⟩

theorem Later.trans (h : s.Later s') (h' : s'.Later s'') : s.Later s'' :=
  ⟨h.alike.trans h'.alike, fun i set hd => h'.done i set (h.done i set hd),
    fun i hi => h.unset i (h'.unset i hi), fun _ hx => h'.reports (h.reports hx)⟩

/-- A marker changes that is not a set. -/
theorem Later.mark {first m : First} (hi : s.grammar.marker? i = some m) (hm : m.set? = none)
    (hfirst : first ≠ .unset) : s.Later (s.mark i first) where
  alike := (alike_modifyRule s.grammar i first).symm
  done a set ha := by
    refine (done_mark_iff (by simp [hi])).2 (.inr ⟨?_, ha⟩)
    rintro rfl
    cases hi.symm.trans ha
    cases hm
  unset a ha := by
    rw [marker?_mark (by simp [hi])] at ha
    split_ifs at ha with h
    · exact absurd (Option.some.inj ha) hfirst
    · exact ha
  reports := fun _ h => h

/-- A rule whose set is not known gets under way. -/
theorem Later.start (hi : s.grammar.marker? i = some .unset) : s.Later (s.mark i .inProgress) :=
  .mark hi rfl nofun

/-- A rule that is under way gets its set. -/
theorem Later.finish (hi : s.grammar.marker? i = some .inProgress) (set : BitSet) :
    s.Later (s.mark i (.done set)) :=
  .mark hi rfl nofun

theorem Later.report (s : Survey) (x : LeftRecursion) : s.Later (s.report x) :=
  ⟨.refl _, fun _ _ h => h, fun _ h => h, List.subset_append_left _ _⟩

theorem Later.unknown_subset (h : s.Later s') : s'.unknown ⊆ s.unknown := fun _ hi =>
  mem_unknown.2 (h.unset _ (mem_unknown.1 hi))

/-- A rule that gets under way is no longer one of those that are not known. -/
theorem card_unknown_start (hi : s.grammar.marker? i = some .unset) :
    (s.mark i .inProgress).unknown.card < s.unknown.card := by
  refine Finset.card_lt_card
    (Finset.ssubset_iff_subset_ne.2 ⟨(Later.start hi).unknown_subset, fun heq => ?_⟩)
  have hmem := mem_unknown.2 hi
  rw [← heq, mem_unknown, marker?_mark (by simp [hi]), if_pos rfl] at hmem
  cases hmem

/-- Whether the set of a rule was computed between two surveys. -/
def Computed (s s' : Survey) (i : Nat) (set : BitSet) : Prop :=
  s.grammar.marker? i = some .unset ∧ s'.grammar.Done i set

/-- Whether the sets that are known contain no more than they should. -/
def Sound (g : Grammar) (s : Survey) : Prop :=
  ∀ i set, s.grammar.Done i set → ∀ k ∈ set, g.IsFirst i k

/-- Whether the rules that a rule with a known set leads to have known sets. -/
def Closed (g : Grammar) (s : Survey) : Prop :=
  ∀ i set j, s.grammar.Done i set → g.Leads i j → ∃ set', s.grammar.Done j set'

theorem Sound.start (h : Sound g s) (hi : s.grammar.marker? i = some .unset) :
    Sound g (s.mark i .inProgress) := fun j set hd => by
  obtain ⟨-, hfirst⟩ | ⟨-, hd⟩ := (done_mark_iff (by simp [hi])).1 hd
  · cases hfirst
  · exact h j set hd

theorem Sound.finish (h : Sound g s) (hi : s.grammar.marker? i = some .inProgress)
    (hset : ∀ k ∈ set, g.IsFirst i k) : Sound g (s.mark i (.done set)) := fun j set' hd => by
  obtain ⟨rfl, hfirst⟩ | ⟨-, hd⟩ := (done_mark_iff (by simp [hi])).1 hd
  · cases hfirst
    exact hset
  · exact h j set' hd

theorem Closed.start (h : Closed g s) (hi : s.grammar.marker? i = some .unset) :
    Closed g (s.mark i .inProgress) := fun j set m hd hjm => by
  obtain ⟨-, hfirst⟩ | ⟨-, hd⟩ := (done_mark_iff (by simp [hi])).1 hd
  · cases hfirst
  · obtain ⟨set', hd'⟩ := h j set m hd hjm
    exact ⟨set', (Later.start hi).done m set' hd'⟩

/-- Whether a set takes in the set of a rule, or leaves it out with a report. -/
def TakesIn (g : Grammar) (s : Survey) (r : Rule) (set : BitSet) (j : Nat) : Prop :=
  (∃ set', s.grammar.Done j set' ∧ ∀ k ∈ set', k < g.labels.length → k ∈ set) ∨
    s.grammar.marker? j ≠ some .unset ∧ ∃ x ∈ s.reports, x.below = r.name

/-- What a computed set contains. -/
structure Complete (g : Grammar) (s : Survey) (i : Nat) (set : BitSet) : Prop where
  length : set.bytes.length = BitSet.width g.labels.length
  begins : ∀ k, g.Begins i k → k ∈ set
  leads : ∀ j r, g.Leads i j → g.rules[i]? = some r → TakesIn g s r set j

theorem TakesIn.later {r : Rule} (ht : TakesIn g s r set j) (h : s.Later s') :
    TakesIn g s' r set j := by
  rcases ht with ⟨set', hd, hk⟩ | ⟨hj, x, hx, hr⟩
  · exact .inl ⟨set', h.done j set' hd, hk⟩
  · exact .inr ⟨fun hj' => hj (h.unset j hj'), x, h.reports hx, hr⟩

theorem TakesIn.mono {r : Rule} (ht : TakesIn g s r set j) (h : ∀ k ∈ set, k ∈ set') :
    TakesIn g s r set' j := by
  rcases ht with ⟨u, hd, hk⟩ | hreport
  · exact .inl ⟨u, hd, fun k hk' hlt => h k (hk k hk' hlt)⟩
  · exact .inr hreport

theorem Complete.later (hc : Complete g s i set) (h : s.Later s') : Complete g s' i set :=
  { hc with leads := fun j r hij hr => (hc.leads j r hij hr).later h }

/-- Whether a report is true: below a rule that is reached from one of `roots`
    the search met another, which leads back to it, or was under way before. -/
def Genuine (g : Grammar) (roots : Set Nat) (s : Survey) (x : LeftRecursion) : Prop :=
  ∃ i ∈ roots, ∃ m j rm rj, g.Reaches i m ∧ g.Leads m j ∧
    g.rules[m]? = some rm ∧ g.rules[j]? = some rj ∧ x = ⟨rj.symbol, rj.name, rm.name⟩ ∧
    (g.Reaches j m ∨ s.grammar.marker? j = some .inProgress)

/-- What a part of the search does that begins at `roots`. -/
structure Grows (g : Grammar) (roots : Set Nat) (s s' : Survey) : Prop extends Later s s' where
  inProgress : ∀ i, s'.grammar.marker? i = some .inProgress ↔
    s.grammar.marker? i = some .inProgress
  sound : Sound g s → Sound g s'
  complete : ∀ i set, Computed s s' i set → Complete g s' i set
  genuine : ∀ x ∈ s'.reports, x ∈ s.reports ∨ Genuine g roots s x
  /-- Without a report no rule computed can begin with itself. -/
  acyclic : s'.reports = [] → Closed g s → ∀ i set, Computed s s' i set → ¬g.LeftRecursive i

section Grows

variable {roots roots' : Set Nat}

/-- A set that is known was known, or is new. -/
theorem Grows.done_or (h : Grows g roots s s') (hd : s'.grammar.Done i set) :
    s.grammar.Done i set ∨ Computed s s' i set := by
  obtain ⟨r, hr, -⟩ := Option.map_eq_some_iff.1 hd
  obtain ⟨first, hr'⟩ := h.alike.symm.exists_rule hr
  have hm : s.grammar.marker? i = some first := by rw [marker?, hr']; rfl
  cases first with
  | unset => exact .inr ⟨hm, hd⟩
  | inProgress =>
    have hp := (h.inProgress i).2 hm
    cases hp.symm.trans hd
  | done u =>
    have hu := h.done i u hm
    cases hu.symm.trans hd
    exact .inl hm

theorem Closed.exists_done (hc : Closed g s) (hd : s.grammar.Done i set) (hij : g.Reaches i j) :
    ∃ set', s.grammar.Done j set' := by
  induction hij with
  | refl => exact ⟨set, hd⟩
  | tail _ hmj ih =>
    obtain ⟨u, hu⟩ := ih
    exact hc _ u _ hu hmj

theorem Closed.grows (hc : Closed g s) (h : Grows g roots s s') (hr : s'.reports = []) :
    Closed g s' := by
  intro i set j hd hij
  rcases h.done_or hd with hd | hnew
  · obtain ⟨u, hu⟩ := hc i set j hd hij
    exact ⟨u, h.done j u hu⟩
  · obtain ⟨r, hrule⟩ := hij.exists_rule
    rcases (h.complete i set hnew).leads j r hij hrule with ⟨u, hu, -⟩ | ⟨-, x, hx, -⟩
    · exact ⟨u, hu⟩
    · rw [hr] at hx
      cases hx

theorem Grows.refl (g : Grammar) (roots : Set Nat) (s : Survey) : Grows g roots s s where
  toLater := .refl s
  inProgress _ := Iff.rfl
  sound h := h
  complete i set h := by cases h.1.symm.trans h.2
  genuine _ hx := .inl hx
  acyclic _ _ i set h := by cases h.1.symm.trans h.2

theorem Grows.trans (h : Grows g roots s s') (h' : Grows g roots s' s'') :
    Grows g roots s s'' where
  toLater := h.toLater.trans h'.toLater
  inProgress i := (h'.inProgress i).trans (h.inProgress i)
  sound hs := h'.sound (h.sound hs)
  complete i set hc := by
    rcases h'.done_or hc.2 with hd | hnew
    · exact (h.complete i set ⟨hc.1, hd⟩).later h'.toLater
    · exact h'.complete i set hnew
  genuine x hx := by
    rcases h'.genuine x hx with hx | ⟨i, hi, m, j, rm, rj, him, hmj, hm, hj, rfl, hback⟩
    · exact h.genuine x hx
    · exact .inr ⟨i, hi, m, j, rm, rj, him, hmj, hm, hj, rfl, hback.imp_right (h.inProgress j).1⟩
  acyclic hr hclosed i set hc := by
    have hr' : s'.reports = [] := List.subset_nil.1 (hr ▸ h'.reports)
    rcases h'.done_or hc.2 with hd | hnew
    · exact h.acyclic hr' hclosed i set ⟨hc.1, hd⟩
    · exact h'.acyclic hr (hclosed.grows h hr') i set hnew

/-- What begins at rules that are reached from others begins at those. -/
theorem Grows.mono (h : Grows g roots s s') (hroots : ∀ j ∈ roots, ∃ i ∈ roots', g.Reaches i j) :
    Grows g roots' s s' :=
  { h with
    genuine := fun x hx => by
      refine (h.genuine x hx).imp_right ?_
      rintro ⟨j, hj, m, l, rm, rl, hjm, hrest⟩
      obtain ⟨i, hi, hij⟩ := hroots j hj
      exact ⟨i, hi, m, l, rm, rl, hij.trans hjm, hrest⟩ }

end Grows

/-! ## Collecting the labels of a rule -/

/-- Whether a set contains what begins the rules that were computed between two
    surveys. -/
def Covers (g : Grammar) (s s' : Survey) (set : BitSet) : Prop :=
  ∀ i u, Computed s s' i u → ∀ k, g.Begins i k → k ∈ set

/-- What a visit of a rule does. -/
structure Visited (g : Grammar) (i : Nat) (s s' : Survey) : Prop extends Grows g {i} s s' where
  known : ∃ set, s'.grammar.Done i set ∧ Covers g s s' set

/-- What the collection of labels on the initial state of a rule does. -/
structure Collected (g : Grammar) (i : Nat) (r : Rule) (ks : List Nat) (set : BitSet)
    (s : Survey) (set' : BitSet) (s' : Survey) : Prop extends Grows g {i} s s' where
  length : set'.bytes.length = set.bytes.length
  keeps : ∀ k ∈ set, k ∈ set'
  begins : ∀ k ∈ ks, ∀ l, g.labels[k]? = some l → l.isTerminal = true → k ∈ set'
  leads : ∀ k ∈ ks, ∀ l j, g.labels[k]? = some l → l.isTerminal = false →
    g.findIndex? l.symbol = some j → TakesIn g s' r set' j
  within : Sound g s → (∀ k ∈ set, g.IsFirst i k) → ∀ k ∈ set', g.IsFirst i k
  covers : Covers g s s' set'

namespace Collected

variable {r : Rule} {ks : List Nat} {l : Label}

theorem nil (g : Grammar) (i : Nat) (r : Rule) (set : BitSet) (s : Survey) :
    Collected g i r [] set s set s where
  toGrows := .refl g {i} s
  length := rfl
  keeps _ h := h
  begins _ h := nomatch h
  leads _ h := nomatch h
  within _ h := h
  covers j u h := by cases h.1.symm.trans h.2

theorem cons (h : Collected g i r [k] set s set' s')
    (h' : Collected g i r ks set' s' set'' s'') :
    Collected g i r (k :: ks) set s set'' s'' where
  toGrows := h.toGrows.trans h'.toGrows
  length := h'.length.trans h.length
  keeps m hm := h'.keeps m (h.keeps m hm)
  begins m hm := by
    rcases List.mem_cons.1 hm with rfl | hm
    · exact fun l hl ht => h'.keeps _ (h.begins _ (List.mem_singleton_self _) l hl ht)
    · exact h'.begins m hm
  leads m hm := by
    rcases List.mem_cons.1 hm with rfl | hm
    · exact fun l j hl ht hj =>
        ((h.leads _ (List.mem_singleton_self _) l j hl ht hj).later h'.toLater).mono h'.keeps
    · exact h'.leads m hm
  within hs hset := h'.within (h.sound hs) (h.within hs hset)
  covers j u hc m hm := by
    rcases h'.done_or hc.2 with hd | hnew
    · exact h'.keeps m (h.covers j u ⟨hc.1, hd⟩ m hm)
    · exact h'.covers j u hnew m hm

/-- What there is to say of a single label. -/
theorem of_label (hl : g.labels[k]? = some l) (hgrows : Grows g {i} s s')
    (hlength : set'.bytes.length = set.bytes.length) (hkeeps : ∀ m ∈ set, m ∈ set')
    (hbegins : l.isTerminal = true → k ∈ set')
    (hleads : ∀ j, l.isTerminal = false → g.findIndex? l.symbol = some j →
      TakesIn g s' r set' j)
    (hwithin : Sound g s → (∀ m ∈ set, g.IsFirst i m) → ∀ m ∈ set', g.IsFirst i m)
    (hcovers : Covers g s s' set') : Collected g i r [k] set s set' s' := by
  refine { hgrows with
    length := hlength
    keeps := hkeeps
    begins := fun m hm l' hl' ht => ?_
    leads := fun m hm l' j hl' ht hj => ?_
    within := hwithin
    covers := hcovers }
  · rw [List.mem_singleton.1 hm] at hl' ⊢
    cases hl.symm.trans hl'
    exact hbegins ht
  · rw [List.mem_singleton.1 hm] at hl'
    cases hl.symm.trans hl'
    exact hleads j ht hj

/-- A terminal label is added to the set. -/
theorem terminal (s : Survey) (r : Rule) (hk : g.OnInitial i k) (hl : g.labels[k]? = some l)
    (ht : l.isTerminal = true) (hset : set.bytes.length = BitSet.width g.labels.length) :
    Collected g i r [k] set s (set.insert k) s := by
  have hroom : k / 8 < set.bytes.length :=
    hset ▸ BitSet.div_lt_width (List.getElem?_eq_some_iff.1 hl).1
  refine of_label hl (.refl g {i} s) BitSet.length_insert
    (fun m hm => (BitSet.mem_insert hroom).2 (.inr hm))
    (fun _ => (BitSet.mem_insert hroom).2 (.inl rfl)) (fun j hf _ => ?_) (fun _ h m hm => ?_)
    (fun j u h => ?_)
  · rw [ht] at hf
    cases hf
  · rcases (BitSet.mem_insert hroom).1 hm with rfl | hm
    · exact ⟨i, .refl, hk, l, hl, ht⟩
    · exact h m hm
  · cases h.1.symm.trans h.2

/-- For the symbol of a rule whose set is known, that set is added. -/
theorem merge (h : Grows g {j} s s') (hd : s'.grammar.Done j set') (hcovers : Covers g s s' set')
    (hij : g.Leads i j) (hl : g.labels[k]? = some l) (ht : l.isTerminal = false)
    (hj : g.findIndex? l.symbol = some j)
    (hset : set.bytes.length = BitSet.width g.labels.length) :
    Collected g i r [k] set s (set.merge set' g.labels.length) s' := by
  have hmem : ∀ m ∈ set', m < g.labels.length → m ∈ set.merge set' g.labels.length :=
    fun m hm hlt => by
      have hw := BitSet.div_lt_width hlt
      exact BitSet.mem_merge.2 (.inr ⟨hm, hw, hset ▸ hw⟩)
  refine of_label hl (h.mono fun _ hm => ⟨i, rfl, hm ▸ .single hij⟩) BitSet.length_merge
    (fun m hm => BitSet.mem_merge.2 (.inl hm)) (fun ht' => ?_) (fun j' _ hj' => ?_)
    (fun hs hset m hm => ?_) (fun m u hc k hk => ?_)
  · rw [ht] at ht'
    cases ht'
  · cases hj.symm.trans hj'
    exact .inl ⟨set', hd, hmem⟩
  · rcases BitSet.mem_merge.1 hm with hm | ⟨hm, -⟩
    · exact hset m hm
    · exact (h.sound hs j set' hd m hm).of_leads hij
  · exact hmem k (hcovers m u hc k hk) (IsFirst.lt ⟨m, .refl, hk⟩)

/-- For the symbol of a rule that is under way, a report is made. -/
theorem underWay {rj : Rule} {first first' : First} (hj : s.grammar.marker? j = some .inProgress)
    (hij : g.Leads i j) (hr : g.rules[i]? = some { r with first })
    (hrj : g.rules[j]? = some { rj with first := first' })
    (hl : g.labels[k]? = some l) (ht : l.isTerminal = false)
    (hfind : g.findIndex? l.symbol = some j) :
    Collected g i r [k] set s set (s.report ⟨rj.symbol, rj.name, r.name⟩) := by
  have hnone : ∀ j u, ¬Computed s (s.report ⟨rj.symbol, rj.name, r.name⟩) j u := fun j u h => by
    cases h.1.symm.trans h.2
  have hmem : (⟨rj.symbol, rj.name, r.name⟩ : LeftRecursion) ∈
      (s.report ⟨rj.symbol, rj.name, r.name⟩).reports :=
    List.mem_append_right _ (List.mem_singleton_self _)
  have hgrows : Grows g {i} s (s.report ⟨rj.symbol, rj.name, r.name⟩) := by
    refine { Later.report s ⟨rj.symbol, rj.name, r.name⟩ with
      inProgress := fun _ => Iff.rfl
      sound := fun h => h
      complete := fun j u h => absurd h (hnone j u)
      genuine := fun x hx => (List.mem_append.1 hx).imp_right fun hx => ?_
      acyclic := fun _ _ j u h => absurd h (hnone j u) }
    rw [List.mem_singleton.1 hx]
    exact ⟨i, rfl, i, j, _, _, .refl, hij, hr, hrj, rfl, .inr hj⟩
  refine of_label hl hgrows rfl (fun _ h => h) (fun ht' => ?_) (fun j' _ hj' => ?_)
    (fun _ h => h) (fun j u h => absurd h (hnone j u))
  · rw [ht] at ht'
    cases ht'
  · cases hfind.symm.trans hj'
    refine .inr ⟨fun hu => ?_, _, hmem, rfl⟩
    cases hj.symm.trans hu

end Collected

/-! ## Visits succeed -/

section Visits

variable {visit' : Nat → Survey → Except Error Unit × Survey} {r : Rule} {first : First}

/-- Before the set of a rule is taken in, the rule is visited if need be. -/
theorem exists_visit_if_unset
    (hvisit : ∀ j s, s.grammar.Alike g → s.isUnset j = true → s.unknown.card ≤ n →
      ∃ s', visit' j s = (.ok (), s') ∧ Visited g j s s')
    (hs : s.grammar.Alike g) (hn : s.unknown.card ≤ n) (hj : s.grammar.marker? j ≠ none) :
    ∃ s', (if s.isUnset j then visit' j s else (.ok (), s)) = (.ok (), s') ∧
      (Visited g j s s' ∨ s' = s ∧ s.grammar.marker? j = some .inProgress) := by
  obtain ⟨m, hm⟩ := Option.ne_none_iff_exists'.1 hj
  by_cases hu : s.isUnset j = true
  · obtain ⟨s', hv, h⟩ := hvisit j s hs hu hn
    exact ⟨s', by rw [if_pos hu, hv], .inl h⟩
  · refine ⟨s, if_neg hu, ?_⟩
    cases m with
    | unset => exact absurd (isUnset_iff.2 hm) hu
    | inProgress => exact .inr ⟨rfl, hm⟩
    | done set =>
      exact .inl { Grows.refl g {j} s with
        known := ⟨set, hm, fun i u h => by cases h.1.symm.trans h.2⟩ }

theorem exists_collect (hg : g.Valid)
    (hvisit : ∀ j s, s.grammar.Alike g → s.isUnset j = true → s.unknown.card ≤ n →
      ∃ s', visit' j s = (.ok (), s') ∧ Visited g j s s')
    (hr : g.rules[i]? = some { r with first }) (ks : List Nat)
    (hks : ∀ k ∈ ks, g.OnInitial i k) (hset : set.bytes.length = BitSet.width g.labels.length)
    (hs : s.grammar.Alike g) (hn : s.unknown.card ≤ n) :
    ∃ set' s', collect visit' r ks set s = (.ok set', s') ∧
      Collected g i r ks set s set' s' := by
  induction ks generalizing set s with
  | nil => exact ⟨set, s, rfl, .nil g i r set s⟩
  | cons k ks ih =>
    obtain ⟨hk, hks⟩ := List.forall_mem_cons.1 hks
    obtain ⟨l, hl, hfind⟩ := hg.label hk
    -- the first label is collected, and then the others
    have hcons : ∀ set' s', Collected g i r [k] set s set' s' →
        collect visit' r (k :: ks) set s = collect visit' r ks set' s' →
        ∃ set'' s'', collect visit' r (k :: ks) set s = (.ok set'', s'') ∧
          Collected g i r (k :: ks) set s set'' s'' := fun set' s' h heq => by
      obtain ⟨set'', s'', hc, h'⟩ := ih hks (h.length.trans hset) (h.alike.symm.trans hs)
        ((Finset.card_le_card h.unknown_subset).trans hn)
      exact ⟨set'', s'', heq.trans hc, h.cons h'⟩
    cases ht : l.isTerminal with
    | true =>
      refine hcons _ _ (.terminal s r hk hl ht hset) ?_
      rw [collect, hs.labels_eq, hl]
      simp only [ht, if_true]
    | false =>
      obtain ⟨j, hj⟩ := hfind ht
      obtain ⟨-, rj, hrj, hsymbol⟩ := findIndex?_eq_some_iff.1 hj
      have hij : g.Leads i j := ⟨k, l, rj, hk, hl, ht, hrj, hsymbol⟩
      obtain ⟨m, hm⟩ := hs.symm.exists_rule hrj
      have hmarker : s.grammar.marker? j ≠ none := by simp [marker?, hm]
      obtain ⟨s', hif, hv | ⟨rfl, hp⟩⟩ := exists_visit_if_unset hvisit hs hn hmarker
      · -- its set is known by now, and is merged
        obtain ⟨set', hd, hcovers⟩ := hv.known
        refine hcons _ _ (.merge hv.toGrows hd hcovers hij hl ht hj hset) ?_
        obtain ⟨⟨symbol, name, initial, states, _⟩, hr', heq⟩ := Option.map_eq_some_iff.1 hd
        cases heq
        rw [collect, hs.labels_eq, hl]
        simp only [ht, Bool.false_eq_true, if_false, hs.findIndex?_eq, hj, hif, hr',
          (hv.alike.symm.trans hs).labels_eq]
      · -- it is under way, so a report is made in place of its set
        have hfirst : m = .inProgress := by simpa [marker?, hm] using hp
        subst hfirst
        refine hcons _ _ (.underWay hp hij hr hrj hl ht hj) ?_
        rw [collect, hs.labels_eq, hl]
        simp only [ht, Bool.false_eq_true, if_false, hs.findIndex?_eq, hj, hif, hm, hsymbol]

/-- A rule whose set was not known is visited once its labels are collected. -/
theorem Collected.visited (hg : g.Valid) (hr : g.rules[i]? = some { r with first })
    (hi : s.grammar.marker? i = some .unset)
    (h : Collected g i r r.initialLabels (.empty g.labels.length) (s.mark i .inProgress) set s') :
    Visited g i s (s'.mark i (.done set)) := by
  have hp : s'.grammar.marker? i = some .inProgress :=
    (h.inProgress i).2 (by rw [marker?_mark (by simp [hi]), if_pos rfl])
  have hmark : ∀ j, j ≠ i → (s.mark i .inProgress).grammar.marker? j = s.grammar.marker? j :=
    fun j hj => by rw [marker?_mark (by simp [hi]), if_neg hj]
  have hafter := Later.finish hp set
  -- a set that is new is that of the rule itself, or was computed on the way
  have hnew : ∀ j u, Computed s (s'.mark i (.done set)) j u →
      j = i ∧ u = set ∨ Computed (s.mark i .inProgress) s' j u := fun j u hu => by
    obtain ⟨hj, hfirst⟩ | ⟨hj, hd⟩ := (done_mark_iff (by simp [hp])).1 hu.2
    · cases hfirst
      exact .inl ⟨hj, rfl⟩
    · exact .inr ⟨(hmark j hj).trans hu.1, hd⟩
  have hlabels : ∀ k, g.OnInitial i k → k ∈ r.initialLabels := fun k hk =>
    (mem_initialLabels (r := { r with first }) hr).2 hk
  have hbegins : ∀ k, g.Begins i k → k ∈ set := fun k ⟨hk, l, hl, ht⟩ =>
    h.begins k (hlabels k hk) l hl ht
  have hleads : ∀ j, g.Leads i j → TakesIn g s' r set j := by
    rintro j ⟨k, l, rj, hk, hl, ht, hrj, hsymbol⟩
    exact h.leads k (hlabels k hk) l j hl ht (hsymbol ▸ hg.findIndex?_of_symbol hrj)
  refine {
    toLater := ((Later.start hi).trans h.toLater).trans hafter
    inProgress := fun j => ?_
    sound := fun hs => ?_
    complete := fun j u hu => ?_
    genuine := fun x hx => ?_
    acyclic := fun hreports hclosed j u hu => ?_
    known := ⟨set, (done_mark_iff (by simp [hp])).2 (.inl ⟨rfl, rfl⟩), fun j u hu => ?_⟩ }
  · rw [marker?_mark (by simp [hp])]
    split_ifs with hj
    · simp [hj, hi]
    · rw [h.inProgress, hmark j hj]
  · have hs' := hs.start hi
    exact (h.sound hs').finish hp
      (h.within hs' fun k hk => absurd hk (BitSet.notMem_empty _ k))
  · obtain ⟨rfl, rfl⟩ | hu := hnew j u hu
    · refine ⟨h.length.trans (BitSet.length_empty _), hbegins, fun m r' hjm hr' => ?_⟩
      cases hr.symm.trans hr'
      exact (hleads m hjm).later hafter
    · exact (h.complete j u hu).later hafter
  · refine (h.genuine x hx).imp_right ?_
    rintro ⟨root, hroot, m, j, rm, rj, him, hmj, hm, hj, rfl, hback⟩
    refine ⟨root, hroot, m, j, rm, rj, him, hmj, hm, hj, rfl, ?_⟩
    rw [Set.mem_singleton_iff.1 hroot] at him
    rcases eq_or_ne j i with rfl | hji
    · exact .inl him
    · rwa [hmark j hji] at hback
  · have hclosed' := hclosed.start hi
    obtain ⟨rfl, rfl⟩ | hu := hnew j u hu
    · -- the rules that it leads to are finished, and so is what they reach
      intro hloop
      obtain ⟨m, hjm, hmj⟩ := TransGen.head'_iff.1 hloop
      rcases hleads m hjm with ⟨u', hu', -⟩ | ⟨-, x, hx, -⟩
      · obtain ⟨u'', hu''⟩ := (hclosed'.grows h.toGrows hreports).exists_done hu' hmj
        cases hp.symm.trans hu''
      · rw [show s'.reports = [] from hreports] at hx
        cases hx
    · exact h.acyclic hreports hclosed' j u hu
  · obtain ⟨rfl, rfl⟩ | hu := hnew j u hu
    · exact hbegins
    · exact h.covers j u hu

/-- With as many steps as there are rules whose sets are not known, a visit
    succeeds. -/
theorem exists_visit (hg : g.Valid) (hs : s.grammar.Alike g) (hi : s.isUnset i = true)
    (hn : s.unknown.card ≤ n) : ∃ s', visit n i s = (.ok (), s') ∧ Visited g i s s' := by
  induction n generalizing i s with
  | zero => exact absurd hn (Nat.not_le.2 (card_unknown_pos hi))
  | succ n ih =>
    have hm := isUnset_iff.1 hi
    obtain ⟨r, hr, -⟩ := Option.map_eq_some_iff.1 hm
    obtain ⟨first, hr'⟩ := hs.exists_rule hr
    have hlater := Later.start hm
    have hlt := card_unknown_start hm
    obtain ⟨set, s', hc, h⟩ := exists_collect hg (fun j s hs hj hn => ih hs hj hn) hr'
      r.initialLabels (fun k hk => hs.onInitial ((mem_initialLabels hr).1 hk))
      (BitSet.length_empty g.labels.length) (hlater.alike.symm.trans hs) (by omega)
    refine ⟨s'.mark i (.done set), ?_, h.visited hg hr' hm⟩
    rw [visit, hr]
    simp only [hs.labels_eq, hc]

end Visits

/-! ## Rules in turn -/

theorem card_unknown_le (s : Survey) : s.unknown.card ≤ s.grammar.rules.length :=
  (Finset.card_filter_le _ _).trans_eq (Finset.card_range _)

theorem visitAll_cons {is : List Nat} (hi : i < s.grammar.rules.length)
    (hu : s.isUnset i = true) (hv : visit s.grammar.rules.length i s = (.ok (), s')) :
    visitAll (i :: is) s = visitAll is s' := by
  rw [visitAll, if_neg (Nat.not_le.2 hi), if_pos hu, hv]

/-- Nothing is done for rules whose sets are known. -/
theorem visitAll_of_known {order : List Nat} (horder : ∀ i ∈ order,
    i < s.grammar.rules.length ∧ s.isUnset i = false) : visitAll order s = (.ok (), s) := by
  induction order with
  | nil => rfl
  | cons i is ih =>
    obtain ⟨⟨hi, hu⟩, his⟩ := List.forall_mem_cons.1 horder
    rw [visitAll, if_neg (Nat.not_le.2 hi), if_neg (by simp [hu]), ih his]

/-- The rules at some positions in turn are visited where they are not known. -/
theorem exists_visitAll (hg : g.Valid) (hs : s.grammar.Alike g) {order : List Nat}
    (horder : ∀ i ∈ order, i < g.rules.length) :
    ∃ s', visitAll order s = (.ok (), s') ∧ Grows g {i | i ∈ order} s s' ∧
      ∀ i ∈ order, s'.grammar.marker? i ≠ some .unset := by
  induction order generalizing s with
  | nil => exact ⟨s, rfl, .refl g _ s, fun i hi => nomatch hi⟩
  | cons i is ih =>
    obtain ⟨hi, his⟩ := List.forall_mem_cons.1 horder
    rw [← hs.length_rules] at hi
    have hfirst : ∃ s', visitAll (i :: is) s = visitAll is s' ∧ Grows g {i} s s' ∧
        s'.grammar.marker? i ≠ some .unset := by
      by_cases hu : s.isUnset i = true
      · obtain ⟨s', hv, h⟩ := exists_visit hg hs hu s.card_unknown_le
        obtain ⟨set, hd, -⟩ := h.known
        exact ⟨s', visitAll_cons hi hu hv, h.toGrows, fun hm => by cases hd.symm.trans hm⟩
      · refine ⟨s, ?_, .refl g _ s, fun hm => hu (isUnset_iff.2 hm)⟩
        rw [visitAll, if_neg (Nat.not_le.2 hi), if_neg hu]
    obtain ⟨s', hv, h, hm⟩ := hfirst
    obtain ⟨s'', hv', h', hm'⟩ := ih (h.alike.symm.trans hs) his
    refine ⟨s'', hv.trans hv', ?_, List.forall_mem_cons.2 ⟨fun hu => hm (h'.unset i hu), hm'⟩⟩
    refine (h.mono ?_).trans (h'.mono ?_)
    · rintro j rfl
      exact ⟨j, List.mem_cons_self, .refl⟩
    · exact fun j hj => ⟨j, List.mem_cons_of_mem i hj, .refl⟩

end ScriptCore.Grammar.Survey
