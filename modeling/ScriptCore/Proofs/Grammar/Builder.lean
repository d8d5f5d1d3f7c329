import Mathlib.Data.List.Nodup
import ScriptCore.Grammar.Builder
import ScriptCore.Proofs.Grammar.Validity

/-!
# What stays while a grammar is built

Rules and labels refer to each other by position, so positions must not change while a grammar
is built, and each must stand for one rule or label only.

* `Step`: all that a step in building a grammar can do.
* `Built`: the labels are distinct, and the symbols of rules are those of their positions. Every
  step keeps this (`Built.step`).
* `Grows`: labels and rules have kept their positions, and rules their symbols and names.
* `positions_stable`: what follows for the grammars that are built by any steps.

The symbols of rules have 32 bits. There are `ruleRoom` of them, and a rule beyond has no symbol
by which it is found.
-/

namespace ScriptCore.Grammar

variable {g g' g₀ : Grammar} {r : Rule} {l : Label} {e : Edit} {a : Edit.Answer} {es : List Edit}
  {i j : Nat} {s : Int}

/-! ## Symbols -/

/-- The number of symbols that rules can have: 32 bits hold the numbers below 2 ^ 31. -/
def ruleRoom : Nat := 2147483648 - 256

theorem ruleSymbol_of_lt (hi : i < ruleRoom) : ruleSymbol i = Token.firstRule + i := by
  rw [ruleRoom] at hi
  rw [ruleSymbol, Token.firstRule]
  exact Int32.toInt_ofInt_of_le (by omega) (by omega)

theorem ruleIndex?_eq_some_iff : ruleIndex? s = some i ↔ s = Token.firstRule + i := by
  rw [ruleIndex?]
  split_ifs with hs
  · rw [Option.some.injEq]
    omega
  · refine iff_of_false (by simp) ?_
    omega

/-! ## Labels -/

theorem findLabel?_eq_none_iff : g.findLabel? l = none ↔ l ∉ g.labels := by
  rw [findLabel?, List.findIdx?_eq_none_iff]
  constructor
  · intro h hl
    simpa using h l hl
  · intro h x hx
    rw [decide_eq_false_iff_not]
    rintro rfl
    exact h hx

/-- Among distinct labels, the first position of a label is its only one. -/
theorem findLabel?_eq_some_iff (hg : g.labels.Nodup) :
    g.findLabel? l = some i ↔ g.labels[i]? = some l := by
  rw [findLabel?, List.findIdx?_eq_some_iff_getElem, List.getElem?_eq_some_iff]
  refine exists_congr fun hi => ?_
  rw [decide_eq_true_iff]
  refine and_iff_left_of_imp fun hl j hj => ?_
  rw [decide_eq_true_iff, ← hl, hg.getElem_inj_iff]
  exact hj.ne

/-- The label that was added stands at the position that was answered. -/
theorem getElem?_addLabel (g : Grammar) (l : Label) :
    (g.addLabel l).2.labels[(g.addLabel l).1]? = some l := by
  rw [addLabel]
  split
  · next i hi =>
    rw [findLabel?, List.findIdx?_eq_some_iff_getElem] at hi
    obtain ⟨hlt, hl, -⟩ := hi
    rw [List.getElem?_eq_getElem hlt, of_decide_eq_true hl]
  · exact List.getElem?_concat_length

/-! ## Steps -/

/-- The symbol of the rule that a step is meant for, if it is meant for one that is there. -/
def Edit.target? : Edit → Option Int
  | addRule _ | addLabel _ => none
  | addState symbol | addArc symbol _ _ => some symbol

/-- All that a step can do: add a rule or a label, answer with the position of a label, or
    change the states of a rule. -/
inductive Step (g : Grammar) : Edit → Edit.Answer → Grammar → Prop
  | rule (name : String) : Step g (.addRule name) (.symbol (ruleSymbol g.rules.length))
    { g with rules := g.rules ++ [{ symbol := ruleSymbol g.rules.length, name }] }
  | label {l : Label} (hl : l ∉ g.labels) : Step g (.addLabel l) (.label g.labels.length)
    { g with labels := g.labels ++ [l] }
  | known {l : Label} {i : Nat} (hl : g.labels[i]? = some l) : Step g (.addLabel l) (.label i) g
  | states {e : Edit} {a : Edit.Answer} {s : Int} {i : Nat} {f : Rule → Rule}
    (he : e.target? = some s) (ha : ∀ n, a ≠ .symbol n) (hi : g.findIndex? s = some i)
    (hf : ∀ r, ∃ states, f r = { r with states }) : Step g e a (g.modifyRule i f)
  | noRule {e : Edit} {a : Edit.Answer} {s : Int} (he : e.target? = some s)
    (ha : ∀ n, a ≠ .symbol n) (hi : g.findIndex? s = none) : Step g e a g

theorem changeRule?_eq_none_iff {f : Rule → Rule} :
    g.changeRule? s f = none ↔ g.findIndex? s = none := by
  rw [changeRule?]
  cases hi : g.findIndex? s with
  | none => simp
  | some i =>
    obtain ⟨-, r, hr, -⟩ := findIndex?_eq_some_iff.1 hi
    simp [hr]

theorem changeRule?_eq_some_iff {f : Rule → Rule} : g.changeRule? s f = some (r, g') ↔
    ∃ i, g.findIndex? s = some i ∧ g.rules[i]? = some r ∧ g' = g.modifyRule i f := by
  rw [changeRule?]
  simp only [Option.bind_eq_bind, Option.bind_eq_some_iff, Option.pure_def, Option.some.injEq,
    Prod.mk.injEq]
  constructor
  · rintro ⟨i, hi, r, hr, rfl, rfl⟩
    exact ⟨i, hi, hr, rfl⟩
  · rintro ⟨i, hi, hr, rfl⟩
    exact ⟨i, hi, r, hr, rfl, rfl⟩

theorem step_edit (g : Grammar) (e : Edit) : Step g e (g.edit e).1 (g.edit e).2 := by
  cases e with
  | addRule name => exact .rule name
  | addLabel l =>
    have hat := getElem?_addLabel g l
    rw [edit]
    rw [addLabel] at hat ⊢
    split
    · next i hi =>
      rw [hi] at hat
      exact .known hat
    · next hnone => exact .label (findLabel?_eq_none_iff.1 hnone)
  | addState symbol =>
    rw [edit]
    split
    · next r g' hc =>
      obtain ⟨i, hi, -, rfl⟩ := changeRule?_eq_some_iff.1 hc
      exact .states rfl (fun _ => nofun) hi fun r => ⟨_, rfl⟩
    · next hc => exact .noRule rfl (fun _ => nofun) (changeRule?_eq_none_iff.1 hc)
  | addArc symbol source arc =>
    rw [edit]
    split
    · next r g' hc =>
      obtain ⟨i, hi, -, rfl⟩ := changeRule?_eq_some_iff.1 hc
      exact .states rfl (fun _ => nofun) hi fun r => ⟨_, rfl⟩
    · next hc => exact .noRule rfl (fun _ => nofun) (changeRule?_eq_none_iff.1 hc)

/-- Where a rule is changed, the others are not. -/
theorem getElem?_modifyRule (g : Grammar) (i j : Nat) (f : Rule → Rule) :
    (g.modifyRule i f).rules[j]? = if i = j then g.rules[j]?.map f else g.rules[j]? := by
  rw [modifyRule, List.getElem?_modify]
  split_ifs <;> simp

/-! ## What steps keep -/

/-- Whether a grammar has the labels and rules of another at their positions. -/
structure Grows (g g' : Grammar) : Prop where
  labels : g.labels <+: g'.labels
  rules (i : Nat) (r : Rule) (hr : g.rules[i]? = some r) :
    ∃ r', g'.rules[i]? = some r' ∧ r'.symbol = r.symbol ∧ r'.name = r.name

theorem Grows.refl (g : Grammar) : g.Grows g where
  labels := List.prefix_refl _
  rules _ r hr := ⟨r, hr, rfl, rfl⟩

theorem Grows.trans (hg : g.Grows g₀) (hg' : g₀.Grows g') : g.Grows g' where
  labels := hg.labels.trans hg'.labels
  rules i r hr := by
    obtain ⟨r₀, hr₀, hs₀, hn₀⟩ := hg.rules i r hr
    obtain ⟨r', hr', hs', hn'⟩ := hg'.rules i r₀ hr₀
    exact ⟨r', hr', hs'.trans hs₀, hn'.trans hn₀⟩

theorem Grows.getElem?_labels (hg : g.Grows g') (hl : g.labels[i]? = some l) :
    g'.labels[i]? = some l := by
  obtain ⟨ls, hls⟩ := hg.labels
  rw [← hls, List.getElem?_append_left (List.getElem?_eq_some_iff.1 hl).1, hl]

theorem Grows.length_rules_le (hg : g.Grows g') : g.rules.length ≤ g'.rules.length := by
  by_contra hlt
  obtain ⟨r, hr, -⟩ := hg.rules g'.rules.length _ (List.getElem?_eq_getElem (Nat.lt_of_not_le hlt))
  exact (List.getElem?_eq_some_iff.1 hr).1.ne rfl

theorem Grows.step (hs : Step g e a g') : g.Grows g' := by
  cases hs with
  | rule name =>
    refine ⟨List.prefix_refl _, fun i r hr => ⟨r, ?_, rfl, rfl⟩⟩
    rw [List.getElem?_append_left (List.getElem?_eq_some_iff.1 hr).1, hr]
  | label hl => exact ⟨List.prefix_append _ _, fun i r hr => ⟨r, hr, rfl, rfl⟩⟩
  | known | noRule => exact .refl g
  | @states _ _ _ i f _ _ _ hf =>
    refine ⟨List.prefix_refl _, fun j r hr => ?_⟩
    rw [getElem?_modifyRule, hr]
    split
    · obtain ⟨states, hstates⟩ := hf r
      exact ⟨f r, rfl, by rw [hstates], by rw [hstates]⟩
    · exact ⟨r, rfl, rfl, rfl⟩

theorem grows_editAll (g : Grammar) (es : List Edit) : g.Grows (g.editAll es).2 := by
  induction es generalizing g with
  | nil => exact .refl g
  | cons e es ih => exact (Grows.step (step_edit g e)).trans (ih _)

/-- Whether the labels of a grammar are distinct, and the rules have the symbols of their
    positions. -/
structure Built (g : Grammar) : Prop where
  nodup : g.labels.Nodup
  symbol (i : Nat) (r : Rule) (hr : g.rules[i]? = some r) : r.symbol = ruleSymbol i

theorem Built.step (hg : g.Built) (hs : Step g e a g') : g'.Built := by
  cases hs with
  | rule name =>
    refine ⟨hg.nodup, fun i r hr => ?_⟩
    rcases lt_or_ge i g.rules.length with hi | hi
    · rw [List.getElem?_append_left hi] at hr
      exact hg.symbol i r hr
    · rw [List.getElem?_append_right hi, List.getElem?_singleton] at hr
      split at hr
      · next heq =>
        obtain rfl : i = g.rules.length := by omega
        rw [← Option.some.inj hr]
      · cases hr
  | label hl => exact ⟨List.concat_eq_append ▸ hg.nodup.concat hl, hg.symbol⟩
  | known | noRule => exact hg
  | @states _ _ _ i f _ _ _ hf =>
    refine ⟨hg.nodup, fun j r hr => ?_⟩
    rw [getElem?_modifyRule] at hr
    split at hr
    · obtain ⟨r₀, hr₀, rfl⟩ := Option.map_eq_some_iff.1 hr
      obtain ⟨states, hstates⟩ := hf r₀
      rw [hstates]
      exact hg.symbol j r₀ hr₀
    · exact hg.symbol j r hr

theorem Built.editAll (hg : g.Built) (es : List Edit) : (g.editAll es).2.Built := by
  induction es generalizing g with
  | nil => exact hg
  | cons e es ih => exact ih (hg.step (step_edit g e))

/-- The grammar that steps come to, from one without rules and labels. -/
abbrev built (start : Int) (es : List Edit) : Grammar :=
  (editAll { start } es).2

theorem built_start (start : Int) : Built { start } where
  nodup := List.nodup_nil
  symbol i r hr := by cases hr

/-! ## What steps add -/

theorem Step.mem_labels_iff (hs : Step g e a g') :
    l ∈ g'.labels ↔ l ∈ g.labels ∨ e = .addLabel l := by
  cases hs with
  | rule name => simp
  | label hl => simp [eq_comm]
  | @known l' _ hl =>
    refine (or_iff_left_of_imp ?_).symm
    rintro ⟨⟩
    exact List.mem_of_getElem? hl
  | states he | noRule he =>
    refine (or_iff_left_of_imp ?_).symm
    rintro rfl
    cases he

/-- The labels are those that were added. -/
theorem mem_labels_editAll : l ∈ (g.editAll es).2.labels ↔ l ∈ g.labels ∨ .addLabel l ∈ es := by
  induction es generalizing g with
  | nil => simp [editAll]
  | cons e es ih => rw [editAll, ih, (step_edit g e).mem_labels_iff, List.mem_cons, or_assoc, eq_comm]

/-- A step adds a rule if it answers with a symbol, which is that of the new position. -/
theorem Step.length_rules (hs : Step g e a g') :
    a = .symbol (ruleSymbol g.rules.length) ∧ g'.rules.length = g.rules.length + 1 ∨
      (∀ n, a ≠ .symbol n) ∧ g'.rules.length = g.rules.length := by
  cases hs with
  | rule name => exact .inl ⟨rfl, List.length_append⟩
  | label | known => exact .inr ⟨fun _ => nofun, rfl⟩
  | states _ ha => exact .inr ⟨ha, List.length_modify _ _ _⟩
  | noRule _ ha => exact .inr ⟨ha, rfl⟩

/-- The symbols that were answered are those of the rules that were added. -/
theorem symbol_mem_answers_iff : .symbol s ∈ (g.editAll es).1 ↔
    ∃ i, g.rules.length ≤ i ∧ i < (g.editAll es).2.rules.length ∧ s = ruleSymbol i := by
  induction es generalizing g with
  | nil =>
    refine iff_of_false List.not_mem_nil ?_
    rintro ⟨i, hle, hlt, -⟩
    exact hlt.not_ge hle
  | cons e es ih =>
    -- what the first step adds stands in front of what the others add
    have hle := (grows_editAll (g.edit e).2 es).length_rules_le
    rw [editAll]
    dsimp only
    rw [List.mem_cons, ih]
    rcases (step_edit g e).length_rules with ⟨ha, hlen⟩ | ⟨ha, hlen⟩
    · rw [ha, hlen, Edit.Answer.symbol.injEq]
      constructor
      · rintro (rfl | ⟨i, hi, hlt, rfl⟩)
        · exact ⟨_, le_rfl, by omega, rfl⟩
        · exact ⟨i, by omega, hlt, rfl⟩
      · rintro ⟨i, hi, hlt, rfl⟩
        rcases hi.eq_or_lt with rfl | hi
        · exact .inl rfl
        · exact .inr ⟨i, hi, hlt, rfl⟩
    · rw [hlen]
      exact or_iff_right (ha s).symm

/-! ## Positions -/

/-- Whether a label stands at a position, and all operations on labels say so. -/
structure HasLabel (g : Grammar) (l : Label) (i : Nat) : Prop where
  getElem? : g.labels[i]? = some l
  addLabel : g.addLabel l = (i, g)
  findLabel? : g.findLabel? l = some i
  other (l' : Label) (hl : l' ≠ l) : (g.addLabel l').1 ≠ i

theorem Built.hasLabel (hg : g.Built) (hl : g.labels[i]? = some l) : g.HasLabel l i := by
  have hfind := (findLabel?_eq_some_iff hg.nodup).2 hl
  refine ⟨hl, by rw [Grammar.addLabel, hfind], hfind, fun l' hne heq => hne ?_⟩
  have hnew := getElem?_addLabel g l'
  rw [heq] at hnew
  -- the labels grow only, so that the position has its label still
  have hgrows : g.Grows (g.addLabel l').2 := .step (step_edit g (.addLabel l'))
  exact Option.some.inj (hnew.symm.trans (hgrows.getElem?_labels hl))

/-- Whether the rule with a symbol stands at a position and has a name, and is found there. -/
structure HasRule (g : Grammar) (s : Int) (name : String) (i : Nat) : Prop where
  ruleIndex? : ruleIndex? s = some i
  findIndex? : g.findIndex? s = some i
  findRule? : ∃ r, g.findRule? s = some r ∧ r.symbol = s ∧ r.name = name

/-- As long as there are symbols left, the rule that was added is found by its symbol for ever. -/
theorem hasRule_addRule (g : Grammar) (name : String) (es : List Edit)
    (hroom : g.rules.length < ruleRoom) :
    HasRule ((g.addRule name).2.editAll es).2 (g.addRule name).1 name g.rules.length := by
  have hadded : (g.addRule name).2.rules[g.rules.length]? =
      some { symbol := (g.addRule name).1, name } := List.getElem?_concat_length
  obtain ⟨r, hr, hsymbol, hname⟩ := (grows_editAll (g.addRule name).2 es).rules _ _ hadded
  have hindex : ruleIndex? (g.addRule name).1 = some g.rules.length :=
    ruleIndex?_eq_some_iff.2 (ruleSymbol_of_lt hroom)
  have hfind := findIndex?_eq_some_iff.2 ⟨hindex, r, hr, hsymbol⟩
  exact ⟨hindex, hfind, r, by rw [Grammar.findRule?, hfind, Option.bind_some, hr], hsymbol, hname⟩

/-- A symbol that was never answered has no rule. -/
theorem Built.findIndex?_eq_none (hg : g.Built) (hs : ∀ i < g.rules.length, s ≠ ruleSymbol i) :
    g.findIndex? s = none := by
  rw [Option.eq_none_iff_forall_ne_some]
  intro i hi
  -- a rule is found only where it has the symbol, and there it has that of its position
  obtain ⟨-, r, hr, rfl⟩ := findIndex?_eq_some_iff.1 hi
  exact hs i (List.getElem?_eq_some_iff.1 hr).1 (hg.symbol i r hr)

/-- A step that is meant for one rule leaves the others, and the labels. -/
theorem Step.of_target (hs : Step g e a g') (he : e.target? = some s) :
    g'.labels = g.labels ∧ ∀ j, g.findIndex? s ≠ some j → g'.rules[j]? = g.rules[j]? := by
  cases hs with
  | rule | label | known => cases he
  | noRule => exact ⟨rfl, fun _ _ => rfl⟩
  | @states _ _ s' i f he' _ hi _ =>
    obtain rfl : s' = s := Option.some.inj (he'.symm.trans he)
    refine ⟨rfl, fun j hj => ?_⟩
    rw [getElem?_modifyRule, if_neg]
    rintro rfl
    exact hj hi

/-- **Positions are stable.** In a grammar that is built by any steps, the labels are distinct, and
    each keeps the position that was answered when it was added. The first rules have the symbols
    of their positions, as far as there are any, and are found by these; no rule is found by a
    symbol that was not answered, though symbols have positions whether or not there is a rule. A
    step meant for a rule leaves all other rules and the labels. -/
theorem positions_stable (start : Int) (es : List Edit) :
    (built start es).labels.Nodup ∧
    (∀ l es', HasLabel (((built start es).addLabel l).2.editAll es').2 l
      ((built start es).addLabel l).1) ∧
    (∀ l, (built start es).findLabel? l = none ↔ .addLabel l ∉ es) ∧
    (∀ i < ruleRoom, ∀ r, (built start es).rules[i]? = some r →
      r.symbol = Token.firstRule + i) ∧
    (∀ name es', (built start es).rules.length < ruleRoom →
      HasRule (((built start es).addRule name).2.editAll es').2
        ((built start es).addRule name).1 name (built start es).rules.length) ∧
    (∀ s, .symbol s ∉ (editAll { start } es).1 →
      (built start es).findIndex? s = none ∧ (built start es).findRule? s = none) ∧
    (∀ s i, ruleIndex? s = some i ↔ s = Token.firstRule + i) ∧
    ∀ e s, e.target? = some s → ((built start es).edit e).2.labels = (built start es).labels ∧
      ∀ j, (built start es).findIndex? s ≠ some j →
        ((built start es).edit e).2.rules[j]? = (built start es).rules[j]? := by
  have hg : (built start es).Built := (built_start start).editAll es
  refine ⟨hg.nodup, fun l es' => ?_, fun l => ?_, fun i hi r hr => ?_,
    fun name es' => hasRule_addRule _ name es', fun s hs => ?_, fun _ _ => ruleIndex?_eq_some_iff,
    fun e _ => (step_edit _ e).of_target⟩
  · have hg' : ((built start es).addLabel l).2.Built := hg.step (step_edit _ (.addLabel l))
    exact (hg'.editAll es').hasLabel
      ((grows_editAll _ es').getElem?_labels (getElem?_addLabel _ l))
  · rw [findLabel?_eq_none_iff, mem_labels_editAll, or_iff_right List.not_mem_nil]
  · rw [hg.symbol i r hr, ruleSymbol_of_lt hi]
  · have hnone : (built start es).findIndex? s = none := hg.findIndex?_eq_none fun i hi heq =>
      hs (symbol_mem_answers_iff.2 ⟨i, Nat.zero_le i, hi, heq⟩)
    exact ⟨hnone, by rw [Grammar.findRule?, hnone, Option.bind_none]⟩

/-- A rule with one state that an arc leads back to, and a label. -/
def loopEdits : List Edit :=
  [.addRule "S", .addLabel ⟨1, none⟩, .addState 256, .addArc 256 0 ⟨0, 0⟩]

/-- A second label and a second rule come after the first, and stay there. -/
theorem positions_stable_of_loop :
    HasLabel (((built 256 loopEdits).addLabel ⟨1, some "if"⟩).2.editAll loopEdits).2
      ⟨1, some "if"⟩ 1 ∧
    HasRule (((built 256 loopEdits).addRule "T").2.editAll loopEdits).2 257 "T" 1 ∧
    (∃ r, (built 256 loopEdits).rules[0]? = some r ∧ r.symbol = 256) ∧
    (built 256 loopEdits).findRule? 257 = none ∧
    ((built 256 loopEdits).edit (.addState 256)).2.labels = [⟨1, none⟩] := by
  obtain ⟨-, hlabel, -, hsymbol, hrule, hnone, -, htarget⟩ := positions_stable 256 loopEdits
  exact ⟨hlabel _ _, hrule "T" loopEdits (by decide),
    ⟨_, rfl, hsymbol 0 (by decide) _ rfl⟩, (hnone 257 (by decide)).2,
    (htarget (.addState 256) 256 rfl).1⟩

theorem exists_rule_replicate (start : Int) (name : String) {n i : Nat} (hi : i < n) :
    ∃ r, (built start (List.replicate n (.addRule name))).rules[i]? = some r ∧
      r.symbol = ruleSymbol i := by
  have hlength : ∀ (n : Nat) (g : Grammar),
      (g.editAll (List.replicate n (.addRule name))).2.rules.length = g.rules.length + n := by
    intro n
    induction n with
    | zero => exact fun g => rfl
    | succ n ih =>
      intro g
      have hone : (g.addRule name).2.rules.length = g.rules.length + 1 := List.length_append
      exact (ih (g.addRule name).2).trans (by omega)
  have hlt : i < (built start (List.replicate n (.addRule name))).rules.length := by
    rw [hlength]
    exact hi.trans_eq (Nat.zero_add n).symm
  exact ⟨_, List.getElem?_eq_getElem hlt, ((built_start start).editAll _).symbol i _
    (List.getElem?_eq_getElem hlt)⟩

/-- A symbol has a position where no rule was added; and where 32 bits do not hold the symbol of a
    position any more, the rule there has another one. -/
theorem position_without_rule :
    (.symbol 256 ∉ (editAll { start := 256 } []).1 ∧ ruleIndex? 256 = some 0) ∧
    ∃ r, (built 256 (List.replicate (ruleRoom + 1) (.addRule "S"))).rules[ruleRoom]? = some r ∧
      r.symbol = Int32.minValue.toInt ∧ r.symbol ≠ Token.firstRule + ruleRoom := by
  obtain ⟨r, hr, hsymbol⟩ := exists_rule_replicate 256 "S" ruleRoom.lt_succ_self
  have hleast : r.symbol = Int32.minValue.toInt := hsymbol.trans (by decide)
  refine ⟨⟨List.not_mem_nil, rfl⟩, r, hr, hleast, ?_⟩
  rw [hleast]
  decide

end ScriptCore.Grammar
