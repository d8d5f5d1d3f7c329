import ScriptCore.Proofs.Lexer.History
import ScriptCore.Proofs.Lexer.Levels

/-!
# Indentation

The levels of indentation and the tokens that tell of them, through every use of
a lexer.

* `Counted`, `Placed`: how the tokens told so far fit the levels, in number and in
  place.
* `Orderly`: both of them, and the column of the line. Each call keeps this.
* `indentation_orderly`: what follows for all calls on all sources.
-/

namespace ScriptCore.Lexer

open Token (Kind)

variable {limit : Nat} {es : List Event} {l l' : Lexer} {blanks : Bytes} {f : Option Fault}
  {t : Token} {kind : Kind}

/-! ## Counting the tokens of levels -/

/-- How many more levels were told to open than to close. -/
def opened (es : List Event) : Int :=
  es.countP (·.kind? = some .indent) - es.countP (·.kind? = some .dedent)

theorem opened_append (es es' : List Event) : opened (es ++ es') = opened es + opened es' := by
  simp only [opened, List.countP_append]
  omega

theorem opened_indent (h : t.kind = .indent) : opened [.token t] = 1 := by
  simp [opened, Event.kind?, h]

theorem opened_dedent (h : t.kind = .dedent) : opened [.token t] = -1 := by
  simp [opened, Event.kind?, h]

theorem opened_of_not_level (h : t.kind.isLevel = false) : opened [.token t] = 0 := by
  cases hkind : t.kind <;> simp_all [opened, Event.kind?, Kind.isLevel]

/-- How the tokens told so far agree in number with the levels. -/
structure Counted (limit : Nat) (es : List Event) (l : Lexer) : Prop where
  maxIndent : l.maxIndent = limit
  sound : l.indentation.Sound limit
  owed_eq_zero : l.lineStart = true → l.indentation.owed = 0
  balance : opened (sinceRecovery es) + l.indentation.owed = l.depth
  nonneg : ∀ p, p <+: es → 0 ≤ opened p
  nonneg_since : ∀ p, p <+: sinceRecovery es → 0 ≤ opened p
  since_le : opened (sinceRecovery es) ≤ opened es

theorem nonneg_concat {e : Event} (h : ∀ p, p <+: es → 0 ≤ opened p)
    (he : 0 ≤ opened (es ++ [e])) : ∀ p, p <+: es ++ [e] → 0 ≤ opened p := by
  intro p hp
  rcases List.prefix_concat_iff.1 hp with rfl | hp
  · exact he
  · exact h p hp

/-- A token is told that fits the change of the levels. -/
theorem Counted.token (h : Counted limit es l) (hmax : l'.maxIndent = limit)
    (hsound : l'.indentation.Sound limit)
    (howed : l'.lineStart = true → l'.indentation.owed = 0)
    (hchange : opened [.token t] + l'.indentation.owed - l'.depth =
      l.indentation.owed - l.depth) : Counted limit (es ++ [.token t]) l' := by
  have hbalance := h.balance
  -- no more levels can be told to close than there are
  have hdepth : l'.indentation.owed ≤ l'.depth := hsound.owed_le_depth
  have hle := h.since_le
  refine ⟨hmax, hsound, howed, ?_, nonneg_concat h.nonneg ?_, ?_, ?_⟩
  · rw [sinceRecovery_token, opened_append]
    omega
  · rw [opened_append]
    omega
  · rw [sinceRecovery_token]
    refine nonneg_concat h.nonneg_since ?_
    rw [opened_append]
    omega
  · rw [sinceRecovery_token, opened_append, opened_append]
    omega

/-- A token of the line changes nothing. -/
theorem Counted.other (h : Counted limit es l) (hkeeps : Keeps l t.kind l')
    (howed : l'.lineStart = true → l.indentation.owed = 0) :
    Counted limit (es ++ [.token t]) l' := by
  refine h.token (hkeeps.maxIndent.trans h.maxIndent) (hkeeps.indentation ▸ h.sound)
    (hkeeps.indentation ▸ howed) ?_
  rw [opened_of_not_level hkeeps.isLevel, depth, depth, hkeeps.indentation]
  omega

/-- A line begins, and nothing is told yet. -/
theorem Counted.begins (h : Counted limit es l) (hbegins : Begins l blanks f l') :
    Counted limit es l' := by
  cases hbegins with
  | within => exact h
  | stopped hstart hskips _ =>
    refine { h with
      maxIndent := hskips.maxIndent.trans h.maxIndent
      sound := hskips.indentation ▸ h.sound
      owed_eq_zero := fun _ => hskips.indentation ▸ h.owed_eq_zero hstart
      balance := ?_ }
    rw [depth, hskips.indentation]
    exact h.balance
  | @entered _ l'' indentation _ hstart hskips _ _ henter =>
    have hbalance := h.balance
    have hzero := h.owed_eq_zero hstart
    obtain ⟨hsound, hdepth, -⟩ := h.sound.enter hzero (h.maxIndent ▸ henter)
    refine { h with
      maxIndent := hskips.maxIndent.trans h.maxIndent
      sound := hsound
      owed_eq_zero := fun hs => ?_
      balance := ?_ }
    · have hstart' : l''.lineStart = false := hskips.lineStart
      rw [hstart'] at hs
      cases hs
    · show opened (sinceRecovery es) + indentation.owed = (indentation.depth : Int)
      rw [depth] at hbalance
      omega

/-- A change of level is told. -/
theorem Counted.level {indentation : Indentation} (h : Counted limit es l)
    (hstart : l.lineStart = false) (hnext : l.indentation.next? = some (t.kind, indentation))
    (latched : Bool) :
    Counted limit (es ++ [.token t]) { l with indentation, latched } := by
  obtain ⟨hlevels, howed⟩ := Indentation.next?_eq_some hnext
  refine h.token h.maxIndent (h.sound.next? hnext) (fun hs => ?_) ?_
  · rw [hstart] at hs
    cases hs
  · have hdepth : indentation.depth = l.indentation.depth := by
      rw [Indentation.depth, hlevels, Indentation.depth]
    rw [depth, depth, hdepth]
    rcases howed with ⟨hkind, -, heq⟩ | ⟨hkind, -, heq⟩
    · rw [opened_dedent hkind, heq]
      omega
    · rw [opened_indent hkind, heq]
      omega

/-- All levels are forgotten. -/
theorem Counted.recover (h : Counted limit es l) (hmax : l'.maxIndent = limit)
    (hindentation : l'.indentation = {}) : Counted limit (es ++ [.recovered]) l' := by
  have hsame : opened (es ++ [.recovered]) = opened es := by
    rw [opened_append]
    exact Int.add_zero _
  have htotal : 0 ≤ opened es := h.nonneg _ List.prefix_rfl
  refine ⟨hmax, ?_, fun _ => hindentation ▸ rfl, ?_,
    nonneg_concat h.nonneg (hsame ▸ htotal), ?_, ?_⟩
  · rw [hindentation]
    exact Indentation.sound_empty (Nat.le_trans (Nat.succ_pos _) h.sound.room)
  · rw [sinceRecovery_recovered, depth, hindentation]
    rfl
  · rw [sinceRecovery_recovered]
    exact fun p hp => List.prefix_nil.1 hp ▸ Int.le_refl 0
  · rw [sinceRecovery_recovered, hsame]
    exact htotal

/-! ## The places of the tokens of levels -/

/-- Whether a change of level may be told next: at the beginning, after a newline
    or after another change. -/
def MayChange (es : List Event) : Prop :=
  ∀ e ∈ es.getLast?, e = .recovered ∨ e.kind? = some .newline ∨ e.level?.isSome = true

/-- How the tokens told so far stand where they should. -/
structure Placed (es : List Event) (l : Lexer) : Prop where
  mayChange : l.latched = false → l.lineStart = true ∨ l.indentation.owed ≠ 0 → MayChange es
  placed : ∀ before e after, es = before ++ e :: after → e.level?.isSome = true → MayChange before
  line : ∀ t ∈ es.filterMap Event.level?, t.line ≤ l.line
  /-- While changes are owed, all that were told on this line are of their kind. -/
  current : ∀ t ∈ es.filterMap Event.level?, t.line = l.line → l.indentation.owed ≤ 0 ∧
    (l.indentation.owed < 0 → t.kind = .dedent)
  alone : (es.filterMap Event.level?).Pairwise fun t t' =>
    t.line = t'.line → t.kind = .dedent ∧ t'.kind = .dedent

theorem placed_concat {e : Event}
    (h : ∀ before e after, es = before ++ e :: after → e.level?.isSome = true → MayChange before)
    (he : e.level?.isSome = true → MayChange es) (before : List Event) (e' : Event)
    (after : List Event) (heq : es ++ [e] = before ++ e' :: after)
    (he' : e'.level?.isSome = true) : MayChange before := by
  rcases List.eq_nil_or_concat' after with rfl | ⟨after, e'', rfl⟩
  · obtain ⟨rfl, hlast⟩ := List.append_inj' heq rfl
    cases hlast
    exact he he'
  · have heq' : es ++ [e] = (before ++ e' :: after) ++ [e''] := by
      rw [heq, List.append_assoc, List.cons_append]
    exact h before e' after (List.append_inj' heq' rfl).1 he'

theorem level?_eq_none (h : t.kind.isLevel = false) : (Event.token t).level? = none := by
  rw [Event.level?, h]
  rfl

/-- A token of the line may stand anywhere. -/
theorem Placed.other (h : Placed es l) (hkeeps : Keeps l t.kind l')
    (hmay : l'.latched = false → l.indentation.owed = 0 ∧ l.lineStart = false) :
    Placed (es ++ [.token t]) l' := by
  have hlevel := level?_eq_none hkeeps.isLevel
  have hsame : (es ++ [Event.token t]).filterMap Event.level? = es.filterMap Event.level? := by
    rw [List.filterMap_append, List.filterMap_cons_none hlevel, List.filterMap_nil, List.append_nil]
  refine ⟨fun hlatched how => ?_, placed_concat h.placed ?_, ?_, ?_, ?_⟩
  · -- a line that is about to begin was ended by this token
    obtain ⟨hzero, hstart⟩ := hmay hlatched
    have hnewline : t.kind = .newline := by
      rw [hkeeps.indentation] at how
      have hstart' := hkeeps.lineStart (how.resolve_right fun hne => hne hzero)
      exact hstart'.resolve_left (by rw [hstart]; exact nofun)
    rw [MayChange, List.getLast?_concat]
    rintro _ ⟨⟩
    exact .inr (.inl (congrArg some hnewline))
  · rw [hlevel]
    exact nofun
  · rw [hsame]
    exact fun t' ht' => (h.line t' ht').trans hkeeps.line
  · rw [hsame, hkeeps.indentation]
    exact fun t' ht' heq =>
      h.current t' ht' (le_antisymm (h.line t' ht') (heq ▸ hkeeps.line))
  · rw [hsame]
    exact h.alone

/-- On a line that begins, no change of level is told yet. -/
theorem Placed.begins (h : Placed es l) (hbegins : Begins l blanks f l') : Placed es l' := by
  have hstarts : ∀ l'' indentation, l.lineStart = true →
      Skips { l with lineStart := false, line := l.line + 1 } blanks l'' →
      Placed es { l'' with indentation } := fun l'' indentation hstart hskips => by
    have hlt : ∀ t ∈ es.filterMap Event.level?, t.line < l''.line := fun t ht =>
      Nat.lt_of_lt_of_le (Nat.lt_succ_of_le (h.line t ht)) hskips.line
    refine { h with
      mayChange := fun hlatched _ => ?_
      line := fun t ht => (hlt t ht).le
      current := fun t ht heq => absurd heq (hlt t ht).ne }
    have hlatched' : l''.latched = l.latched := hskips.latched
    exact h.mayChange (hlatched'.symm.trans hlatched) (.inl hstart)
  cases hbegins with
  | within => exact h
  | stopped hstart hskips _ => exact hstarts _ _ hstart hskips
  | entered hstart hskips _ _ _ => exact hstarts _ _ hstart hskips

/-- A change of level that is owed may be told. -/
theorem Placed.level {indentation : Indentation} (h : Placed es l)
    (hsound : l.indentation.Sound limit) (hlatched : l.latched = false)
    (hnext : l.indentation.next? = some (t.kind, indentation)) (hline : t.line = l.line)
    (latched : Bool) : Placed (es ++ [.token t]) { l with indentation, latched } := by
  obtain ⟨-, howed⟩ := Indentation.next?_eq_some hnext
  have hone := hsound.owed_le_one
  have hne : l.indentation.owed ≠ 0 := by
    rcases howed with ⟨-, hlt, -⟩ | ⟨-, hlt, -⟩ <;> omega
  have hlevel : (Event.token t).level? = some t := by
    rcases howed with ⟨hkind, -⟩ | ⟨hkind, -⟩ <;> rw [Event.level?, hkind] <;> rfl
  have hadds : (es ++ [Event.token t]).filterMap Event.level? =
      es.filterMap Event.level? ++ [t] := by
    rw [List.filterMap_append, List.filterMap_cons_some hlevel, List.filterMap_nil]
  -- one that opens is the only one on its line, and others close
  have honly : ∀ t' ∈ es.filterMap Event.level?, t'.line = t.line →
      t'.kind = .dedent ∧ t.kind = .dedent := fun t' ht' heq => by
    obtain ⟨hle, hdedent⟩ := h.current t' ht' (heq.trans hline)
    have hlt : l.indentation.owed < 0 := Int.lt_iff_le_and_ne.2 ⟨hle, hne⟩
    refine ⟨hdedent hlt, ?_⟩
    rcases howed with ⟨hkind, -⟩ | ⟨-, hpos, -⟩
    · exact hkind
    · omega
  refine ⟨fun _ _ => ?_, placed_concat h.placed fun _ => h.mayChange hlatched (.inr hne),
    ?_, ?_, ?_⟩
  · rw [MayChange, List.getLast?_concat]
    rintro _ ⟨⟩
    exact .inr (.inr (by rw [hlevel]; rfl))
  · rw [hadds]
    intro t' ht'
    rcases List.mem_append.1 ht' with ht' | ht'
    · exact h.line t' ht'
    · exact (congrArg Token.line (List.mem_singleton.1 ht')).trans hline |>.le
  · rw [hadds]
    intro t' ht' heq
    show indentation.owed ≤ 0 ∧ (indentation.owed < 0 → t'.kind = .dedent)
    refine ⟨by rcases howed with ⟨-, hlt, heq⟩ | ⟨-, hlt, heq⟩ <;> omega, fun hlt => ?_⟩
    rcases List.mem_append.1 ht' with ht' | ht'
    · exact (honly t' ht' (heq.trans hline.symm)).1
    · rw [List.mem_singleton.1 ht']
      rcases howed with ⟨hkind, -⟩ | ⟨-, hpos, heq⟩
      · exact hkind
      · omega
  · rw [hadds, List.pairwise_append]
    refine ⟨h.alone, List.pairwise_singleton _ _, fun t' ht' u hu heq => ?_⟩
    rw [List.mem_singleton.1 hu] at heq ⊢
    exact honly t' ht' heq

/-- After a recovery any change of level may be told. -/
theorem Placed.recover (h : Placed es l) (hindentation : l'.indentation = {})
    (hline : l'.line = l.line) : Placed (es ++ [.recovered]) l' := by
  have hsame : (es ++ [Event.recovered]).filterMap Event.level? = es.filterMap Event.level? := by
    rw [List.filterMap_append, List.filterMap_cons_none rfl, List.filterMap_nil, List.append_nil]
  refine ⟨fun _ _ => ?_, placed_concat h.placed nofun, ?_, fun _ _ _ => ?_, ?_⟩
  · rw [MayChange, List.getLast?_concat]
    rintro _ ⟨⟩
    exact .inl rfl
  · rw [hsame, hline]
    exact h.line
  · rw [hindentation]
    exact ⟨Int.le_refl 0, fun h => absurd h (Int.lt_irrefl 0)⟩
  · rw [hsame]
    exact h.alone

/-! ## Every use of a lexer -/

/-- What always holds of a lexer and of what it told. -/
structure Orderly (limit : Nat) (h : History) : Prop where
  counted : Counted limit h.events h.lexer
  placed : Placed h.events h.lexer
  column : ∀ c, h.column = some c → h.lexer.indentation.column = c

/-- The line that begins is entered at the column measured for it. -/
theorem column_of_beginLine (hcounted : Counted limit es l) (hbegin : l.beginLine = (blanks, f, l'))
    {column : Option UInt64} (hcolumn : ∀ c, column = some c → l.indentation.column = c) :
    ∀ c, (if l.lineStart then l.lineColumn? else column) = some c → l'.indentation.column = c := by
  intro c hc
  cases begins_of_eq hbegin with
  | within hstart =>
    rw [hstart] at hc
    exact hcolumn c hc
  | stopped hstart _ herror =>
    rw [hstart, if_pos rfl, lineColumn?, hbegin] at hc
    simp only [herror, if_true] at hc
    cases hc
  | entered hstart _ _ hstatus henter =>
    rw [hstart, if_pos rfl, lineColumn?, hbegin] at hc
    cases f with
    | some f => cases hc
    | none =>
      obtain rfl := Option.some.inj ((if_neg (Bool.eq_false_iff.1 hstatus)).symm.trans hc)
      have hzero := hcounted.owed_eq_zero hstart
      exact (hcounted.sound.enter hzero (hcounted.maxIndent ▸ henter)).2.2 rfl

theorem orderly_start (source : Source) (options : Options) :
    Orderly (max 1 options.maxIndent) (.start source options) where
  counted := {
    maxIndent := rfl
    sound := Indentation.sound_empty (Nat.le_max_left 1 _)
    owed_eq_zero := fun _ => rfl
    balance := rfl
    nonneg := fun p hp => List.prefix_nil.1 hp ▸ Int.le_refl 0
    nonneg_since := fun p hp => List.prefix_nil.1 hp ▸ Int.le_refl 0
    since_le := Int.le_refl 0 }
  placed := {
    mayChange := fun _ _ => nofun
    placed := fun _ _ _ h => absurd h (by simp [History.start])
    line := nofun
    current := nofun
    alone := .nil }
  column := nofun

section Token

variable {h : History} {l'' : Lexer} {indentation : Indentation}

theorem Orderly.column_receive (horderly : Orderly limit h) (hlatched : h.lexer.latched = false)
    (hbegin : h.lexer.beginLine = (blanks, f, l')) (hsame : l''.indentation.column =
      l'.indentation.column) :
    ∀ c, (h.receive (t, l'')).column = some c → l''.indentation.column = c := by
  intro c hc
  simp only [History.receive, hlatched, Bool.false_eq_true, not_false_eq_true, and_true] at hc
  rw [hsame]
  exact column_of_beginLine horderly.counted hbegin horderly.column c hc

/-- A line begins, and a token of it is handed out. -/
theorem Orderly.other (horderly : Orderly limit h) (hlatched : h.lexer.latched = false)
    (hbegin : h.lexer.beginLine = (blanks, f, l')) (hkeeps : Keeps l' t.kind l'')
    (hlatched' : l''.latched = decide (t.kind = .error))
    (howed : t.kind ≠ .error → l'.indentation.owed = 0) :
    Orderly limit (h.receive (t, l'')) := by
  have hbegins := begins_of_eq hbegin
  have hstart := hbegins.lineStart
  refine ⟨(horderly.counted.begins hbegins).other hkeeps fun hs => ?_,
    (horderly.placed.begins hbegins).other hkeeps fun hl => ⟨?_, hstart⟩,
    horderly.column_receive hlatched hbegin (by rw [hkeeps.indentation])⟩
  · have hnewline := (hkeeps.lineStart hs).resolve_left (by rw [hstart]; exact nofun)
    exact howed (by rw [hnewline]; exact nofun)
  · exact howed (of_decide_eq_false (hlatched'.symm.trans hl))

/-- A line begins, and a change of level is handed out. -/
theorem Orderly.level (horderly : Orderly limit h) (hlatched : h.lexer.latched = false)
    (hbegin : h.lexer.beginLine = (blanks, f, l'))
    (hnext : l'.indentation.next? = some (t.kind, indentation)) (hline : t.line = l'.line)
    (latched finished : Bool) :
    Orderly limit (h.receive (t, { l' with indentation, latched, finished })) := by
  have hbegins := begins_of_eq hbegin
  have hcounted := horderly.counted.begins hbegins
  have hlatched' : l'.latched = false := hbegins.latched.trans hlatched
  refine ⟨{ hcounted.level hbegins.lineStart hnext latched with },
    { (horderly.placed.begins hbegins).level hcounted.sound hlatched' hnext hline latched with },
    horderly.column_receive hlatched hbegin ?_⟩
  rw [Indentation.column, (Indentation.next?_eq_some hnext).1, Indentation.column]

/-- Handing out a token keeps the order. -/
theorem Orderly.token (horderly : Orderly limit h) (hgets : Gets h.lexer t l) (finished : Bool) :
    Orderly limit (h.receive (t, { l with finished })) := by
  cases hgets with
  | latched hlatched =>
    obtain ⟨hcounted, hplaced, hcolumn⟩ := horderly
    have hkeeps : Keeps h.lexer .endMarker { h.lexer with finished } :=
      ⟨rfl, rfl, Nat.le_refl _, .inl, rfl⟩
    refine ⟨hcounted.other hkeeps hcounted.owed_eq_zero,
      hplaced.other hkeeps fun hl => absurd hlatched (Bool.eq_false_iff.1 hl), fun c hc => ?_⟩
    simp only [History.receive, hlatched, not_true_eq_false, and_false, if_false] at hc
    exact hcolumn c hc
  | scanned hlatched hscans =>
    cases hscans with
    | @fault _ f l' hbegin =>
      obtain ⟨input, heq⟩ := exists_fault_eq l' f
      rw [heq]
      exact horderly.other hlatched hbegin ⟨rfl, rfl, Nat.le_refl _, .inl, rfl⟩ rfl
        fun hkind => absurd rfl hkind
    | stopped hbegin _ =>
      exact horderly.other hlatched hbegin ⟨rfl, rfl, Nat.le_refl _, .inl, rfl⟩ rfl
        fun hkind => absurd rfl hkind
    | level hbegin _ hnext => exact horderly.level hlatched hbegin hnext rfl _ _
    | token hbegin _ hnext htakes =>
      exact horderly.other hlatched hbegin { htakes.keeps with } rfl
        fun _ => Indentation.owed_of_next?_eq_none hnext

end Token

/-- Every call keeps the order. -/
theorem Orderly.step {h h' : History} (horderly : Orderly limit h) (hsteps : Steps h h') :
    Orderly limit h' := by
  cases hsteps with
  | idle => exact horderly
  | token finished hgets => exact horderly.token hgets finished
  | interrupt =>
    exact ⟨{ horderly.counted with }, { horderly.placed with }, horderly.column⟩
  | recover _ =>
    exact ⟨horderly.counted.recover horderly.counted.maxIndent rfl,
      horderly.placed.recover rfl rfl, nofun⟩

/-- After any calls on any source: the levels stand in order from column 0 on,
    within the limit; the changes told since the last recovery, with those that
    are owed, lead to the levels, and at no time more were closed than opened;
    each change is told where a line may begin; the changes on a line only close,
    or one opens; and the innermost level is the column of the line, if nothing
    was wrong with it. -/
theorem indentation_orderly (source : Source) (options : Options) (calls : List Call) :
    let h := (History.start source options).calls calls
    let i := h.lexer.indentation
    ([0] <+: i.stack ∧ i.stack.Pairwise (· < ·) ∧ i.stack.length ≤ max 1 options.maxIndent) ∧
      (opened (sinceRecovery h.events) + i.owed = h.lexer.depth ∧
        (∀ p, p <+: h.events → 0 ≤ opened p) ∧
        ∀ p, p <+: sinceRecovery h.events → 0 ≤ opened p) ∧
      (∀ before e after, h.events = before ++ e :: after → e.level?.isSome = true →
        MayChange before) ∧
      ((h.events.filterMap Event.level?).Pairwise fun t t' =>
        t.line = t'.line → t.kind = .dedent ∧ t'.kind = .dedent) ∧
      ∀ c, h.column = some c → i.stack.getLast? = some c := by
  intro h i
  obtain ⟨hcounted, hplaced, hcolumn⟩ : Orderly (max 1 options.maxIndent) h :=
    History.calls_induction (orderly_start source options) (fun _ _ => Orderly.step) calls
  refine ⟨⟨⟨i.levels.reverse, rfl⟩, hcounted.sound.sorted, hcounted.sound.room⟩,
    ⟨hcounted.balance, hcounted.nonneg, hcounted.nonneg_since⟩, hplaced.placed, hplaced.alone,
    fun c hc => ?_⟩
  rw [i.getLast?_stack, hcolumn c hc]

end ScriptCore.Lexer
