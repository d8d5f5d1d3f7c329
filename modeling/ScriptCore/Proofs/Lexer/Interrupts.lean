import ScriptCore.Proofs.Lexer.Coming
import ScriptCore.Proofs.Lexer.Errors

/-!
# Interrupts

A text that comes line by line may be interrupted between any two tokens. A driver
that recovers from each interrupt is told all of the text, and nothing twice.

* `History.driven`: what a driver does that interrupts and recovers.
* `work`: a bound on what it has to do, which each of its turns lowers, so that it
  comes to an end (`finished_driven`).
* `Follows`: how far it is in what a text says. Each turn keeps this (`Follows.ask`).
* `interrupts_unseen`: what follows for all texts and all interrupts.
-/

namespace ScriptCore.Lexer

open Token (Kind)

variable {l l' : Lexer} {bs : Bytes} {t : Token} {h : History}

/-! ## A driver -/

/-- The token that is told of. -/
def Event.token? : Event → Option Token
  | token t => some t
  | recovered => none

/-- What a token says of a text: its kind and its text, unless it tells of a level or
    an error. -/
def said? (t : Token) : Option (Kind × String) :=
  if t.kind.isLevel ∨ t.kind = .error then none else some (t.kind, t.text)

/-- The lexer behind the next token of a run. -/
def behind (l : Lexer) : Lexer :=
  { l.get.2 with finished := decide (l.get.1.kind = .endMarker) }

/-- A lexer that has recovered. -/
def afresh (l : Lexer) : Lexer :=
  { l with
    input := l.input.restart
    indentation := {}
    lineStart := true
    latched := false
    finished := false }

theorem recover?_eq_afresh (hs : l.status = .interrupted) : l.recover? = some l.afresh :=
  if_pos hs

theorem kind_get (hlatched : l.latched = false) : l.get.1.kind = l.scan.1.kind := by
  rw [get_eq hlatched]

theorem input_behind (hlatched : l.latched = false) : l.behind.input = l.scan.2.input := by
  rw [behind, get_eq hlatched]

theorem bound_behind_lt (hlatched : l.latched = false) (herror : l.get.1.kind ≠ .error)
    (hend : l.get.1.kind ≠ .endMarker) : l.behind.bound < l.bound := by
  rw [kind_get hlatched] at herror hend
  have hbound := ((scans_scan l).accounts herror).bound hend
  rw [behind, get_eq hlatched]
  exact hbound

theorem latched_behind : l.behind.latched = true ↔ l.latched = true ∨ l.get.1.kind = .error :=
  (gets_get l).latched_iff

theorem finished_behind : l.behind.finished = true ↔ l.get.1.kind = .endMarker :=
  decide_eq_true_iff

theorem runFor_eq_cons (hfinished : l.finished = false) (n : Nat) :
    l.runFor (n + 1) = (l.get.1, l.behind) :: l.behind.runFor n := by
  rw [runFor_succ, hfinished, if_neg Bool.false_ne_true]
  rfl

namespace History

/-- The tokens that were handed out. -/
def tokens (h : History) : List Token :=
  h.events.filterMap Event.token?

/-- Asks for the next token, up to the first end marker, and recovers if an error
    comes of an interrupt. -/
def ask (h : History) : History :=
  match h.lexer.next? with
  | none => h
  | some (t, l) =>
    if t.kind = .error ∧ l.status = .interrupted then (h.receive (t, l)).call .recover
    else h.receive (t, l)

/-- One turn of a driver: it may interrupt the next read, and asks for a token. -/
def turn (h : History) (interrupts : Bool) : History :=
  (if interrupts then h.call .interrupt else h).ask

/-- A driver that interrupts before some tokens, as a schedule says, and then goes on
    up to the end marker. -/
def driven (h : History) (schedule : List Bool) : History :=
  (schedule ++ List.replicate h.lexer.bound false).foldl turn h

theorem ask_of_finished (hfinished : h.lexer.finished = true) : h.ask = h := by
  rw [ask, next?_eq, if_pos hfinished]

theorem ask_eq (hfinished : h.lexer.finished = false) : h.ask =
    if h.lexer.get.1.kind = .error ∧ h.lexer.behind.status = .interrupted then
      (h.receive (h.lexer.get.1, h.lexer.behind)).call .recover
    else h.receive (h.lexer.get.1, h.lexer.behind) := by
  rw [ask, next?_eq, hfinished, if_neg Bool.false_ne_true]
  rfl

theorem lexer_recover (h : History) (hs : h.lexer.status = .interrupted) :
    (h.call .recover).lexer = h.lexer.afresh := by
  rw [call, recover?_eq_afresh hs]

theorem lexer_ask (hfinished : h.lexer.finished = false) : h.ask.lexer =
    if h.lexer.get.1.kind = .error ∧ h.lexer.behind.status = .interrupted then
      h.lexer.behind.afresh
    else h.lexer.behind := by
  rw [h.ask_eq hfinished]
  split_ifs with hs
  · exact (h.receive (h.lexer.get.1, h.lexer.behind)).lexer_recover hs.2
  · rfl

theorem tokens_receive (h : History) (t : Token) (l : Lexer) :
    (h.receive (t, l)).tokens = h.tokens ++ [t] := by
  rw [tokens, receive, List.filterMap_append]
  rfl

theorem tokens_recover (h : History) : (h.call .recover).tokens = h.tokens := by
  rw [call]
  cases h.lexer.recover? with
  | none => rfl
  | some l =>
    rw [tokens, List.filterMap_append]
    exact List.append_nil _

end History

/-! ### A driver comes to an end -/

/-- A bound on the tokens that are asked for, with those after an interrupt that waits. -/
def work (l : Lexer) : Nat :=
  if l.finished then 0 else if l.latched then 1 else l.bound + l.input.interrupts

theorem work_of_finished (h : l.finished = true) : l.work = 0 :=
  if_pos h

theorem work_eq (hfinished : l.finished = false) (hlatched : l.latched = false) :
    l.work = l.bound + l.input.interrupts := by
  rw [work, hfinished, hlatched]
  rfl

theorem Input.stable_byLine : Input.Stable Input.ByLine where
  fill := fun _ h => h.fill.byLine
  advance := fun _ _ hb h => (h.advance hb).byLine
  fault := fun _ f herror h => (h.fault herror f).byLine

theorem Input.stable_remaining (n : Nat) : Input.Stable (·.remaining ≤ n) where
  fill := fun i h => i.remaining_fill ▸ h
  advance := fun _ _ hb h => Nat.le_of_succ_le (Nat.le_trans (Input.remaining_advance hb).le h)
  fault := fun _ _ _ h => h

theorem Input.ByLine.behind (hbyLine : l.input.ByLine) : l.behind.input.ByLine :=
  Input.stable_byLine.get hbyLine

/-- A token leaves less to be done: it comes closer to the end, or it is an error,
    which only an end marker follows, or it is an end marker. -/
theorem work_behind_lt (hbyLine : l.input.ByLine) (hfinished : l.finished = false) :
    l.behind.work < l.work := by
  have hpos : 0 < l.work := by
    rw [work, hfinished, if_neg Bool.false_ne_true, bound]
    split_ifs
    · exact Nat.one_pos
    · omega
  by_cases hend : l.get.1.kind = .endMarker
  · rwa [work_of_finished (finished_behind.2 hend)]
  · have hlatched : l.latched = false := Bool.eq_false_iff.2 fun hlatched => by
      rw [Lexer.get, if_pos hlatched] at hend
      exact hend rfl
    rw [work_eq hfinished hlatched]
    have hunfinished := mt finished_behind.1 hend
    by_cases herror : l.get.1.kind = .error
    · rw [work, if_neg hunfinished, if_pos (latched_behind.2 (.inr herror)), bound]
      omega
    · have hunlatched := mt latched_behind.1 (not_or.2 ⟨Bool.eq_false_iff.1 hlatched, herror⟩)
      have hinterrupts := ((Input.stable_keeps l.input).get ⟨hbyLine, rfl, rfl⟩).interrupts
      rw [work_eq (Bool.eq_false_iff.2 hunfinished) (Bool.eq_false_iff.2 hunlatched)]
      exact Nat.add_lt_add_of_lt_of_le (bound_behind_lt hlatched herror hend) hinterrupts.le

/-- A lexer that recovers has no levels, and an interrupt less. -/
theorem work_afresh_lt (hbyLine : l.input.ByLine) (hfinished : l.finished = false)
    (hlatched : l.latched = false) (hs : l.behind.status = .interrupted) :
    l.behind.afresh.work < l.work := by
  have hremaining : l.behind.input.remaining ≤ l.input.remaining :=
    (Input.stable_remaining l.input.remaining).get (Nat.le_refl _)
  have hinterrupts : l.behind.input.restart.interrupts + 1 = l.input.interrupts :=
    (Input.interrupts_restart hs).trans
      ((Input.stable_keeps l.input).get ⟨hbyLine, rfl, rfl⟩).interrupts
  have hafresh : l.behind.afresh.work =
    2 * (0 + l.behind.input.source.size) + 0 + 0 + 3 + l.behind.input.restart.interrupts := rfl
  rw [Input.remaining] at hremaining
  rw [hafresh, work_eq hfinished hlatched, bound]
  omega

theorem byLine_ask (hbyLine : h.lexer.input.ByLine) : h.ask.lexer.input.ByLine := by
  cases hfinished : h.lexer.finished with
  | true => rwa [h.ask_of_finished hfinished]
  | false =>
    rw [h.lexer_ask hfinished]
    split_ifs
    · exact hbyLine.behind.restart
    · exact hbyLine.behind

/-- Asking for a token leaves less to be done. -/
theorem work_ask (hbyLine : h.lexer.input.ByLine) : h.ask.lexer.work ≤ h.lexer.work - 1 := by
  cases hfinished : h.lexer.finished with
  | true => rw [h.ask_of_finished hfinished, work_of_finished hfinished]
  | false =>
    rw [h.lexer_ask hfinished]
    split_ifs with hs
    · have hlatched : h.lexer.latched = false := Bool.eq_false_iff.2 fun hlatched => by
        rw [Lexer.get, if_pos hlatched] at hs
        cases hs.1
      exact Nat.le_sub_one_of_lt (work_afresh_lt hbyLine hfinished hlatched hs.2)
    · exact Nat.le_sub_one_of_lt (work_behind_lt hbyLine hfinished)

/-- An interrupt makes for one token more. -/
theorem work_interrupt_le (l : Lexer) : l.interrupt.work ≤ l.work + 1 := by
  have hle : l.interrupt.input.interrupts ≤ l.input.interrupts + 1 :=
    Input.interrupts_interrupt_le l.input
  have hbound : l.interrupt.bound = l.bound := rfl
  have hfinished : l.interrupt.finished = l.finished := rfl
  have hlatched : l.interrupt.latched = l.latched := rfl
  rw [work, work, hbound, hfinished, hlatched]
  split_ifs
  · exact Nat.zero_le _
  · exact Nat.le_succ _
  · omega

theorem byLine_turn (hbyLine : h.lexer.input.ByLine) (interrupts : Bool) :
    (h.turn interrupts).lexer.input.ByLine := by
  rw [History.turn]
  split_ifs
  · exact byLine_ask (h := h.call .interrupt) hbyLine.interrupt
  · exact byLine_ask hbyLine

/-- With or without an interrupt, no turn leaves more to be done. -/
theorem work_turn_le (hbyLine : h.lexer.input.ByLine) (interrupts : Bool) :
    (h.turn interrupts).lexer.work ≤ h.lexer.work := by
  rw [History.turn]
  split_ifs
  · have hask : (h.call .interrupt).ask.lexer.work ≤ h.lexer.interrupt.work - 1 :=
      work_ask (h := h.call .interrupt) hbyLine.interrupt
    have hinterrupt := work_interrupt_le h.lexer
    omega
  · exact Nat.le_trans (work_ask hbyLine) (Nat.sub_le _ _)

theorem work_turns_le (hbyLine : h.lexer.input.ByLine) (schedule : List Bool) :
    (schedule.foldl History.turn h).lexer.input.ByLine ∧
      (schedule.foldl History.turn h).lexer.work ≤ h.lexer.work := by
  induction schedule generalizing h with
  | nil => exact ⟨hbyLine, Nat.le_refl _⟩
  | cons b schedule ih =>
    obtain ⟨hlater, hwork⟩ := ih (byLine_turn hbyLine b)
    exact ⟨hlater, Nat.le_trans hwork (work_turn_le hbyLine b)⟩

theorem work_rest (hbyLine : h.lexer.input.ByLine) (n : Nat) :
    ((List.replicate n false).foldl History.turn h).lexer.work ≤ h.lexer.work - n := by
  induction n generalizing h with
  | zero => exact Nat.le_refl _
  | succ n ih =>
    have hrest := ih (h := h.turn false) (byLine_turn hbyLine false)
    have hask : (h.turn false).lexer.work ≤ h.lexer.work - 1 := work_ask hbyLine
    rw [List.replicate_succ, List.foldl_cons]
    omega

theorem finished_of_work (hwork : l.work = 0) : l.finished = true := by
  by_contra hfinished
  rw [work, if_neg hfinished, bound] at hwork
  split_ifs at hwork
  omega

/-- A driver goes on up to the end marker. -/
theorem finished_driven (hbyLine : h.lexer.input.ByLine) (hlatched : h.lexer.latched = false)
    (hinterrupts : h.lexer.input.interrupts = 0) (schedule : List Bool) :
    (h.driven schedule).lexer.finished = true := by
  obtain ⟨hlater, hwork⟩ := work_turns_le hbyLine schedule
  have hrest := work_rest hlater h.lexer.bound
  have hbound : h.lexer.work ≤ h.lexer.bound := by
    rw [work, if_neg (Bool.eq_false_iff.1 hlatched), hinterrupts]
    split_ifs
    · exact Nat.zero_le _
    · exact Nat.le_refl _
  refine finished_of_work ?_
  rw [History.driven, List.foldl_append]
  omega

/-! ### What a driver is told -/

/-- Whether a lexer is on its way through a text that comes line by line, and nothing
    was wrong so far. -/
structure Going (l : Lexer) : Prop where
  latched : l.latched = false
  finished : l.finished = false
  byLine : l.input.ByLine
  sound : ∀ f, l.status ≠ .malformed f

theorem Going.interrupt (hgoing : Going l) : Going l.interrupt :=
  { hgoing with byLine := hgoing.byLine.interrupt }

theorem Going.behind (hgoing : Going l) (herror : l.get.1.kind ≠ .error)
    (hend : l.get.1.kind ≠ .endMarker) : Going l.behind where
  latched := Bool.eq_false_iff.2
    (mt latched_behind.1 (not_or.2 ⟨Bool.eq_false_iff.1 hgoing.latched, herror⟩))
  finished := Bool.eq_false_iff.2 (mt finished_behind.1 hend)
  byLine := hgoing.byLine.behind
  sound := by
    refine hgoing.byLine.status_ne_malformed hgoing.sound ?_
    rw [kind_get hgoing.latched] at herror
    rw [input_behind hgoing.latched]
    exact (scans_scan l).ending.resolve_right fun h => herror h.1

theorem Going.afresh (hgoing : Going l) : Going l.behind.afresh :=
  ⟨rfl, rfl, hgoing.byLine.behind.restart, nofun⟩

/-- How far a driver is in a text that says `ts`: on its way, or at a fault, or at the
    end. -/
inductive Follows (ts : List (Kind × String)) (h : History) : Prop
  | going {more : List (Kind × String)} : Going h.lexer → Says h.lexer.input.coming more →
    h.tokens.filterMap said? ++ more = ts → Follows ts h
  | malformed {f : Fault} : h.lexer.latched = true → h.lexer.status = .malformed f → Follows ts h
  | finished : h.lexer.finished = true → h.tokens.filterMap said? = ts → Follows ts h

variable {ts : List (Kind × String)}

theorem Follows.interrupt (hfollows : Follows ts h) : Follows ts (h.call .interrupt) := by
  cases hfollows with
  | going hgoing hsaid heq =>
    refine .going hgoing.interrupt ?_ heq
    exact (hgoing.byLine.coming_interrupt hgoing.sound).symm ▸ hsaid
  | malformed hlatched hs => exact .malformed hlatched hs
  | finished hfinished heq => exact .finished hfinished heq

theorem said?_of_isLevel (ht : t.kind.isLevel = true) : said? t = none :=
  if_pos (.inl ht)

theorem said?_of_error (ht : t.kind = .error) : said? t = none :=
  if_pos (.inr ht)

theorem said?_of_isLevel_eq_false (ht : t.kind.isLevel = false) (herror : t.kind ≠ .error) :
    said? t = some (t.kind, t.text) :=
  if_neg (not_or.2 ⟨Bool.eq_false_iff.1 ht, herror⟩)

theorem LongestMatch.isLevel_eq_false {kind : Kind} {w : Bytes} {status : Status}
    (h : LongestMatch bs kind w status) : kind.isLevel = false := by
  cases h with
  | @symbol b _ _ => exact Kind.isLevel_of_isSpelled (Kind.isSpelled_ofByte b)
  | _ => rfl

theorem saidTokens_receive (h : History) (t : Token) (l : Lexer) :
    (h.receive (t, l)).tokens.filterMap said? =
      h.tokens.filterMap said? ++ (said? t).toList := by
  rw [History.tokens_receive, List.filterMap_append]
  cases hsaid : said? t with
  | none => rw [List.filterMap_cons_none hsaid]; rfl
  | some x => rw [List.filterMap_cons_some hsaid]; rfl

/-- What a token says is what the text says next. -/
theorem Going.follows_ask {more : List (Kind × String)} (hgoing : Going h.lexer)
    (hsaid : Says h.lexer.input.coming more) (heq : h.tokens.filterMap said? ++ more = ts) :
    Follows ts h.ask := by
  have htokens := saidTokens_receive h h.lexer.get.1 h.lexer.behind
  have htells : Tells h.lexer.input.coming h.lexer.get.1 h.lexer.behind.input :=
    tells_get hgoing.latched hgoing.byLine hgoing.sound
  rw [h.ask_eq hgoing.finished]
  cases htells with
  | level hlevel hgap hcoming =>
    have herror : h.lexer.get.1.kind ≠ .error := fun h => by
      rw [h] at hlevel
      cases hlevel
    have hend : h.lexer.get.1.kind ≠ .endMarker := fun h => by
      rw [h] at hlevel
      cases hlevel
    rw [if_neg fun h => herror h.1]
    refine .going (hgoing.behind herror hend) ((hcoming ▸ hsaid).of_append hgap) ?_
    rw [htokens, said?_of_isLevel hlevel, Option.toList_none, List.append_nil, heq]
  | token herror hend hcoming hprecedes hmatch htext =>
    rw [if_neg fun h => herror h.1]
    obtain ⟨more', rfl, hsaid'⟩ := (hcoming ▸ hsaid).eq_token hprecedes hmatch herror hend
    refine .going (hgoing.behind herror hend) hsaid' ?_
    rw [htokens, said?_of_isLevel_eq_false hmatch.isLevel_eq_false herror, htext, ← heq,
      Option.toList_some, List.append_assoc, List.singleton_append]
  | last hend htext hprecedes =>
    have hlevel : h.lexer.get.1.kind.isLevel = false := by rw [hend]; rfl
    have herror : h.lexer.get.1.kind ≠ .error := by rw [hend]; exact nofun
    rw [if_neg fun h => herror h.1]
    refine .finished (finished_behind.2 hend) ?_
    rw [htokens, said?_of_isLevel_eq_false hlevel herror, htext, hend, ← heq,
      hsaid.eq_last hprecedes, Option.toList_some]
  | malformed herror hstatus =>
    rw [if_neg fun h => by cases hstatus.symm.trans h.2]
    exact .malformed (latched_behind.2 (.inr herror)) hstatus
  | interrupted herror hstatus hcoming =>
    -- the error says nothing, and what comes after the interrupt says what is to come
    have hlexer := (h.receive (h.lexer.get.1, h.lexer.behind)).lexer_recover hstatus
    have hsaid' : Says h.lexer.behind.afresh.input.coming more :=
      (hgoing.byLine.behind.coming_restart hstatus).symm ▸ hcoming more hsaid
    rw [if_pos ⟨herror, hstatus⟩]
    refine .going (hlexer ▸ hgoing.afresh) (hlexer ▸ hsaid') ?_
    rw [History.tokens_recover, htokens, said?_of_error herror, Option.toList_none,
      List.append_nil, heq]

theorem Follows.ask (hfollows : Follows ts h) : Follows ts h.ask := by
  cases hfollows with
  | going hgoing hsaid heq => exact hgoing.follows_ask hsaid heq
  | @malformed f hlatched hs =>
    cases hfinished : h.lexer.finished with
    | true =>
      rw [h.ask_of_finished hfinished]
      exact .malformed hlatched hs
    | false =>
      have hget : h.lexer.get =
          ({ kind := .endMarker, text := "", line := h.lexer.line }, h.lexer) := by
        rw [Lexer.get, if_pos hlatched]
      have hstatus : h.lexer.behind.status = .malformed f := by
        rw [behind, hget]
        exact hs
      rw [h.ask_eq hfinished, if_neg fun h => by cases hstatus.symm.trans h.2]
      exact .malformed (latched_behind.2 (.inl hlatched)) hstatus
  | finished hfinished heq =>
    rw [h.ask_of_finished hfinished]
    exact .finished hfinished heq

theorem Follows.turns (hfollows : Follows ts h) (schedule : List Bool) :
    Follows ts (schedule.foldl History.turn h) := by
  induction schedule generalizing h with
  | nil => exact hfollows
  | cons b schedule ih =>
    refine ih (h := h.turn b) ?_
    rw [History.turn]
    split_ifs
    · exact hfollows.interrupt.ask
    · exact hfollows.ask

/-! ### What is told without interrupts -/

/-- A run without an error says all of a text that comes line by line. -/
theorem says_runFor {n : Nat} (hn : l.bound ≤ n) (hgoing : Going l)
    (herror : ∀ r ∈ l.runFor n, r.1.kind ≠ .error) :
    Says l.input.coming (((l.runFor n).map (·.1)).filterMap said?) := by
  induction n generalizing l with
  | zero => exact absurd hn (by rw [bound]; omega)
  | succ n ih =>
    rw [runFor_eq_cons hgoing.finished] at herror ⊢
    obtain ⟨herror, hlater⟩ := List.forall_mem_cons.1 herror
    have hmore : l.get.1.kind ≠ .endMarker →
        Says l.behind.input.coming
          (((l.behind.runFor n).map (·.1)).filterMap said?) := fun hend => by
      have hbound := bound_behind_lt hgoing.latched herror hend
      exact ih (Nat.le_of_lt_succ (Nat.lt_of_lt_of_le hbound hn)) (hgoing.behind herror hend) hlater
    have htells := tells_get hgoing.latched hgoing.byLine hgoing.sound
    rw [List.map_cons]
    cases htells with
    | level hlevel hgap hcoming =>
      rw [List.filterMap_cons_none (said?_of_isLevel hlevel), hcoming]
      refine (hmore fun hend => ?_).append hgap
      rw [hend] at hlevel
      cases hlevel
    | token _ hend hcoming hprecedes hmatch htext =>
      rw [List.filterMap_cons_some (said?_of_isLevel_eq_false hmatch.isLevel_eq_false herror),
        hcoming, htext]
      exact .token hprecedes hmatch herror hend (hmore hend)
    | last hend htext hprecedes =>
      have hlevel : l.get.1.kind.isLevel = false := by rw [hend]; rfl
      rw [List.filterMap_cons_some (said?_of_isLevel_eq_false hlevel herror),
        runFor_of_finished (decide_eq_true hend), hend, htext]
      exact .last hprecedes
    | malformed herror' _ => exact absurd herror' herror
    | interrupted herror' _ _ => exact absurd herror' herror

/-- After an error a run only ends. -/
theorem status_runFor (hlatched : l.latched = true) (n : Nat) :
    ∀ r ∈ l.runFor n, r.2.status = l.status := by
  cases n with
  | zero => exact fun r hr => absurd hr List.not_mem_nil
  | succ n =>
    have hget : l.get = ({ kind := .endMarker, text := "", line := l.line }, l) := by
      rw [Lexer.get, if_pos hlatched]
    rw [runFor_succ, hget]
    split_ifs
    · exact fun r hr => absurd hr List.not_mem_nil
    · rw [runFor_of_finished rfl]
      exact List.forall_mem_singleton.2 rfl

/-- Where nothing interrupts a text, an error in it is a fault. -/
theorem Scans.malformed {x : Lexeme} (h : Scans l x l') (hending : l.input.ending = .endOfInput)
    (herror : x.kind = .error) : ∃ f, l'.status = .malformed f := by
  have hstatus := h.isError herror
  have hne : l'.input.status ≠ .ok := fun hok => by
    rw [status, hok] at hstatus
    cases hstatus
  rcases h.ending with heq | ⟨-, f, heq⟩
  · rw [hending, Input.ending_of_ne_ok hne] at heq
    rw [status, heq] at hstatus
    cases hstatus
  · exact ⟨f, (Input.ending_of_ne_ok hne).symm.trans heq⟩

/-- Where nothing is wrong at the end of a run that nothing interrupts, there was no
    error. -/
theorem forall_runFor_ne_error {n : Nat} (hgoing : Going l) (hending : l.input.ending = .endOfInput)
    (hlast : ∀ r ∈ (l.runFor n).getLast?, ∀ f, r.2.status ≠ .malformed f) :
    ∀ r ∈ l.runFor n, r.1.kind ≠ .error := by
  induction n generalizing l with
  | zero => exact fun r hr => absurd hr List.not_mem_nil
  | succ n ih =>
    rw [runFor_eq_cons hgoing.finished, List.getLast?_cons] at hlast
    have hlast' := hlast _ rfl
    have herror : l.get.1.kind ≠ .error := fun herror => by
      have hlatched : l.behind.latched = true := (gets_get l).latched_iff.2 (.inr herror)
      obtain ⟨f, hf⟩ := (scans_scan l).malformed hending (kind_get hgoing.latched ▸ herror)
      have hbehind : l.behind.status = .malformed f :=
        (congrArg Input.status (input_behind hgoing.latched)).trans hf
      refine hlast' f ?_
      cases hmore : (l.behind.runFor n).getLast? with
      | none => exact hbehind
      | some r => exact (status_runFor hlatched n r (List.mem_of_getLast? hmore)).trans hbehind
    rw [runFor_eq_cons hgoing.finished]
    refine List.forall_mem_cons.2 ⟨herror, ?_⟩
    by_cases hend : l.get.1.kind = .endMarker
    · rw [runFor_of_finished (decide_eq_true hend)]
      exact fun r hr => absurd hr List.not_mem_nil
    · have hscan := (scans_scan l).ending.resolve_right fun h =>
        herror ((kind_get hgoing.latched).trans h.1)
      refine ih (hgoing.behind herror hend) ?_ fun r hr => ?_
      · rw [input_behind hgoing.latched, hscan, hending]
      · rw [Option.mem_def.1 hr] at hlast'
        exact hlast'

/-- Interrupts lose nothing and repeat nothing: a text that comes line by line is told
    to a driver that interrupts before any tokens and recovers from each interrupt, up
    to an end marker; and unless something is wrong with the text as it is told to the
    driver, or to a run without interrupts, both are told the same kinds and texts, but
    for the tokens of levels and of errors. -/
theorem interrupts_unseen (bs : Bytes) (options : Options) (schedule : List Bool) :
    let l := start (.ofLines bs) options
    let h := (History.start (.ofLines bs) options).driven schedule
    h.lexer.finished = true ∧
      ((∀ r ∈ l.run.getLast?, ∀ f, r.2.status ≠ .malformed f) →
        (∀ f, h.lexer.status ≠ .malformed f) →
          h.tokens.filterMap said? = l.tokens.filterMap said?) := by
  intro l h
  have hbyLine := Input.byLine_start bs options
  have hgoing : Going l := ⟨rfl, rfl, hbyLine, nofun⟩
  have hfinished : h.lexer.finished = true :=
    finished_driven (h := .start (.ofLines bs) options) hbyLine rfl rfl schedule
  refine ⟨hfinished, fun hplain hdriven => ?_⟩
  have hending := ending_start (Source.delivers_ofLines bs) options
  have hsaid := says_runFor (Nat.le_refl _) hgoing
    (forall_runFor_ne_error hgoing hending hplain)
  have hfollows : Follows (l.tokens.filterMap said?) (.start (.ofLines bs) options) :=
    .going hgoing hsaid rfl
  have hend : Follows (l.tokens.filterMap said?) h := hfollows.turns _
  cases hend with
  | going hgoing' _ _ => exact absurd (hgoing'.finished.symm.trans hfinished) Bool.false_ne_true
  | malformed _ hs => exact absurd hs (hdriven _)
  | finished _ heq => exact heq

/-- A line that goes on, a line and one without an end, where reads are interrupted in
    front of the second line, twice in front of the third one, and behind its name. -/
theorem interrupts_unseen_of_lines :
    let bs := Bytes.ofString "a\\\n b\n c"
    let schedule := [false, true, false, false, false, true, true, false, true]
    let l := start (.ofLines bs) {}
    let h := (History.start (.ofLines bs) {}).driven schedule
    ((∀ r ∈ l.run.getLast?, ∀ f, r.2.status ≠ .malformed f) ∧
        ∀ f, h.lexer.status ≠ .malformed f) ∧
      h.events.map Event.kind? = [some .name, some .error, none, some .indent, some .name,
        some .newline, some .error, none, some .error, none, some .indent, some .name,
        some .error, none, some .endMarker] ∧
      h.tokens.filterMap said? = l.tokens.filterMap said? := by
  intro bs schedule l h
  have hlast : l.run.getLast?.map (·.2.status) = some .endOfInput := by decide +kernel
  have hplain : ∀ r ∈ l.run.getLast?, ∀ f, r.2.status ≠ .malformed f := fun r hr f hf => by
    rw [Option.mem_def.1 hr] at hlast
    cases (Option.some.inj hlast).symm.trans hf
  have hstatus : h.lexer.status = .endOfInput := by decide +kernel
  have hdriven : ∀ f, h.lexer.status ≠ .malformed f := fun f hf => by cases hstatus.symm.trans hf
  exact ⟨⟨hplain, hdriven⟩, by decide +kernel,
    (interrupts_unseen bs {} schedule).2 hplain hdriven⟩

end ScriptCore.Lexer
