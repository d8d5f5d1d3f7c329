import ScriptCore.Proofs.Lexer.History
import ScriptCore.Proofs.Lexer.Levels

/-!
# Errors

An error is told once, by an error token, and nothing but end markers comes
after it, until the lexer recovers from an interrupted read. The end of the
input is as final.

* `Unmoved`: lexers that differ in nothing that a token depends on.
* `AtRest`: lexers that hand out one end marker again and again. Every call but a
  recovery keeps this, and leaves them unmoved.
* `errors_final`: what follows for all calls on all sources.
-/

namespace ScriptCore.Lexer

open Token (Kind)

/-! ## Lexers that are left as they were -/

/-- Whether a lexer is as it was, but for whether its run has ended and whether an
    interrupt is waiting. -/
inductive Unmoved (l : Lexer) : Lexer → Prop
  | mk (finished interrupted : Bool) : Unmoved l { l with
      finished
      input := { l.input with source := { l.input.source with interrupted } } }

/-- Whether a lexer hands out nothing but an end marker: after an error, or at the
    end of the input, where no line begins and no change of level is owed. -/
inductive AtRest : Token → Lexer → Prop
  | latched {l} : l.latched = true → AtRest { kind := .endMarker, text := "", line := l.line } l
  | ended {l} : l.latched = false → l.status = .endOfInput → l.lineStart = false →
    l.indentation.next? = none → AtRest { kind := .endMarker, text := "", line := l.line } l

/-- How a lexer at rest goes on: it tells only the one token, and is left as it was.
    For another token nothing is read, so any source may stand in for its own. -/
structure Repeats (t : Token) (l : Lexer) (es : List Event) (l' : Lexer) : Prop where
  events : ∀ e ∈ es, e = .token t
  unmoved : Unmoved l l'
  get : ∀ source, let l'' := { l' with input := { l'.input with source } }
    l''.get = (t, l'')

variable {l l' l'' : Lexer} {x : Lexeme} {t : Token} {h : History} {c : Call} {more : List Call}

theorem Unmoved.refl (l : Lexer) : Unmoved l l :=
  .mk l.finished l.input.source.interrupted

theorem Unmoved.trans (h : Unmoved l l') (h' : Unmoved l' l'') : Unmoved l l'' := by
  obtain ⟨_, _⟩ := h
  obtain ⟨finished, interrupted⟩ := h'
  exact .mk finished interrupted

theorem Unmoved.status (h : Unmoved l l') : l'.status = l.status := by
  obtain ⟨_, _⟩ := h
  rfl

theorem Unmoved.latched (h : Unmoved l l') : l'.latched = l.latched := by
  obtain ⟨_, _⟩ := h
  rfl

/-- What tells nothing moves nothing. -/
theorem unmoved_call (heq : (h.call c).events = h.events) : Unmoved h.lexer (h.call c).lexer := by
  have hne : ∀ e, h.events ++ [e] ≠ h.events := fun e => by simp
  cases c with
  | get => exact absurd heq (hne _)
  | next =>
    rw [History.call] at heq ⊢
    cases hnext : h.lexer.next? with
    | none => exact .refl _
    | some r =>
      rw [hnext] at heq
      exact absurd heq (hne _)
  | recover =>
    rw [History.call] at heq ⊢
    cases hrecover : h.lexer.recover? with
    | none => exact .refl _
    | some l =>
      rw [hrecover] at heq
      exact absurd heq (hne _)
  | interrupt => exact .mk h.lexer.finished _

theorem unmoved_calls (heq : (h.calls more).events = h.events) :
    Unmoved h.lexer (h.calls more).lexer := by
  induction more generalizing h with
  | nil => exact .refl _
  | cons c more ih =>
    -- the first call told nothing, since what it tells stays told
    have hlater : (h.call c).events <+: h.events := heq ▸ (h.call c).prefix_calls more
    have hcall : (h.call c).events = h.events :=
      hlater.eq_of_length_le (h.prefix_calls [c]).length_le
    exact (unmoved_call hcall).trans (ih (heq.trans hcall.symm))

/-- A token that a call tells is the one that is asked for. -/
theorem eq_get_of_call (heq : (h.call c).events = h.events ++ [.token t]) :
    t = h.lexer.get.1 ∧ ∃ finished, (h.call c).lexer = { h.lexer.get.2 with finished } := by
  have hne : h.events ≠ h.events ++ [.token t] := by simp
  have htoken : ∀ {e}, h.events ++ [e] = h.events ++ [.token t] → e = .token t :=
    fun heq => List.singleton_inj.1 (List.append_cancel_left heq)
  cases c with
  | get => exact ⟨(Event.token.inj (htoken heq)).symm, h.lexer.get.2.finished, rfl⟩
  | next =>
    rw [History.call, next?] at heq ⊢
    split_ifs at heq ⊢ with hfinished
    · exact absurd heq hne
    · exact ⟨(Event.token.inj (htoken heq)).symm, _, rfl⟩
  | recover =>
    rw [History.call] at heq
    cases hrecover : h.lexer.recover? with
    | none =>
      rw [hrecover] at heq
      exact absurd heq hne
    | some l =>
      rw [hrecover] at heq
      cases htoken heq
  | interrupt => exact absurd heq hne

/-! ## Errors -/

theorem isError_fault (l : Lexer) (f : Fault) : (l.fault f).status.isError = true := by
  rw [fault]
  split_ifs with herror
  · exact herror
  · rfl

theorem Takes.isError (h : Takes l x l') (hkind : x.kind = .error) : l'.status.isError = true := by
  cases h with
  | spelled _ hspells _ =>
    obtain rfl : _ = Kind.error := hkind
    cases hspells.isSpelled
  | newline => cases hkind
  | endMarker => cases hkind
  | stopped _ herror => exact herror
  | fault f _ => exact isError_fault _ f

/-- An error token leaves an error. -/
theorem Scans.isError (h : Scans l x l') (hkind : x.kind = .error) : l'.status.isError = true := by
  cases h with
  | fault _ => exact isError_fault _ _
  | stopped _ herror => exact herror
  | level _ _ hnext =>
    obtain ⟨-, ⟨rfl, -⟩ | ⟨rfl, -⟩⟩ := Indentation.next?_eq_some hnext
    · cases hkind
    · cases hkind
  | token _ _ _ htakes => exact htakes.isError hkind

theorem Gets.isError (h : Gets l t l') (hkind : t.kind = .error) : l'.status.isError = true := by
  cases h with
  | latched => cases hkind
  | scanned _ hscans => exact hscans.isError hkind

/-- Only an error lets a lexer hand out nothing but end markers. -/
theorem isError_of_latched {source : Source} {options : Options} (calls : List Call) :
    let l := ((History.start source options).calls calls).lexer
    l.latched = true → l.status.isError = true := by
  refine History.calls_induction
    (P := fun h => h.lexer.latched = true → h.lexer.status.isError = true)
    (fun hl => absurd hl Bool.false_ne_true) (fun h h' ih hsteps => ?_) calls
  cases hsteps with
  | idle => exact ih
  | token finished hgets =>
    cases hgets with
    | latched => exact ih
    | scanned _ hscans => exact fun hl => hscans.isError (of_decide_eq_true hl)
  | recover => exact nofun
  | interrupt => exact ih

/-- Where there is an error that was not told, it is told next. -/
theorem kind_get_of_isError (hlatched : l.latched = false) (hstatus : l.status.isError = true) :
    l.get.1.kind = .error := by
  have hne : l.input.status ≠ .ok := fun hok => by
    rw [status, hok] at hstatus
    cases hstatus
  -- a line begins without its column, as none of its bytes is read
  obtain ⟨l', hbegin, hstatus'⟩ : ∃ l', l.beginLine = ([], none, l') ∧ l'.status = l.status := by
    cases hstart : l.lineStart with
    | false => exact ⟨l, by rw [beginLine, hstart, if_neg Bool.false_ne_true], rfl⟩
    | true =>
      refine ⟨{ l with lineStart := false, line := l.line + 1 }, ?_, rfl⟩
      rw [beginLine, hstart, if_pos rfl, Input.munch_of_ne_ok _ _ hne]
      exact if_pos hstatus
  rw [get, hlatched, if_neg Bool.false_ne_true, scan, hbegin]
  simp only [hstatus', hstatus, if_true]

/-! ## Lexers at rest -/

theorem AtRest.get (h : AtRest t l) : l.get = (t, l) := by
  cases h with
  | latched hlatched => rw [Lexer.get, if_pos hlatched]
  | ended hlatched hstatus hstart hnext =>
    have hne : l.input.status ≠ .ok := by
      rw [← status, hstatus]
      decide
    -- no line begins and no level is owed, and where a byte would be asked for, the end is known
    have hscan : l.scan = ({ kind := .endMarker }, l) := by
      have hbegin : l.beginLine = ([], none, l) := by
        rw [beginLine, hstart, if_neg Bool.false_ne_true]
      have htoken : l.scanToken = ({ kind := .endMarker }, l) := by
        rw [scanToken, Input.munch_of_ne_ok _ _ hne]
        simp [GapPlace.excess, Input.head?, hne, atEnd, hstatus]
      simp [scan, hbegin, hstatus, Status.isError, hnext, htoken]
    rw [Lexer.get, hlatched, if_neg Bool.false_ne_true, hscan]
    have hsame : { l with latched := false } = l := by rw [← hlatched]
    exact Prod.ext rfl hsame

/-- Nothing is read at rest, so another source may stand in for the source. -/
theorem AtRest.withSource (h : AtRest t l) (finished : Bool) (source : Source) :
    AtRest t { l with finished, input := { l.input with source } } := by
  cases h with
  | latched hlatched =>
    exact .latched (l := { l with finished, input := { l.input with source } }) hlatched
  | ended hlatched hstatus hstart hnext =>
    exact .ended (l := { l with finished, input := { l.input with source } })
      hlatched hstatus hstart hnext

theorem AtRest.unmoved (h : AtRest t l) (hunmoved : Unmoved l l') : AtRest t l' := by
  obtain ⟨finished, interrupted⟩ := hunmoved
  exact h.withSource finished { l.input.source with interrupted }

theorem AtRest.ended_of_not_latched (h : AtRest t l) (hlatched : l.latched = false) :
    l.status = .endOfInput ∧ l.lineStart = false ∧ l.indentation.next? = none := by
  cases h with
  | latched h => exact absurd h (Bool.eq_false_iff.1 hlatched)
  | ended _ hstatus hstart hnext => exact ⟨hstatus, hstart, hnext⟩

/-- What a call does at rest, unless the lexer recovers. -/
theorem AtRest.call (hrest : AtRest t h.lexer) (c : Call) :
    (h.lexer.status = .interrupted ∧ (h.call c).events = h.events ++ [.recovered]) ∨
      ∃ es, (h.call c).events = h.events ++ es ∧ (∀ e ∈ es, e = .token t) ∧
        Unmoved h.lexer (h.call c).lexer := by
  cases c with
  | get =>
    refine .inr ⟨[.token t], ?_, List.forall_mem_singleton.2 rfl, ?_⟩
    · rw [History.call, hrest.get]
      rfl
    · rw [History.call, hrest.get]
      exact .refl _
  | next =>
    rw [History.call, next?, hrest.get]
    split_ifs with hfinished
    · exact .inr ⟨[], (List.append_nil _).symm, List.forall_mem_nil _, .refl _⟩
    · exact .inr ⟨[.token t], rfl, List.forall_mem_singleton.2 rfl,
        .mk _ h.lexer.input.source.interrupted⟩
  | recover =>
    rw [History.call, recover?]
    split_ifs with hstatus
    · exact .inl ⟨hstatus, rfl⟩
    · exact .inr ⟨[], (List.append_nil _).symm, List.forall_mem_nil _, .refl _⟩
  | interrupt =>
    exact .inr ⟨[], (List.append_nil _).symm, List.forall_mem_nil _, .mk h.lexer.finished _⟩

/-- What calls do at rest, unless the lexer recovers. -/
theorem AtRest.calls (hrest : AtRest t h.lexer) (more : List Call) :
    ∃ es, (h.calls more).events = h.events ++ es ∧
      (.recovered ∈ es → h.lexer.status = .interrupted) ∧
      (.recovered ∉ es → Repeats t h.lexer es (h.calls more).lexer) := by
  induction more generalizing h with
  | nil =>
    refine ⟨[], (List.append_nil _).symm, fun hmem => absurd hmem List.not_mem_nil, fun _ => ?_⟩
    exact ⟨List.forall_mem_nil _, .refl _, fun source =>
      (hrest.withSource h.lexer.finished source).get⟩
  | cons c more ih =>
    rcases hrest.call c with ⟨hstatus, heq⟩ | ⟨es, heq, hes, hunmoved⟩
    · -- whatever is told after the recovery, the recovery was told
      obtain ⟨es, hlater⟩ := (h.call c).prefix_calls more
      refine ⟨.recovered :: es, ?_, fun _ => hstatus, fun hnot => ?_⟩
      · rw [History.calls_cons, ← hlater, heq, List.append_assoc]
        rfl
      · exact absurd List.mem_cons_self hnot
    · obtain ⟨es', heq', hstatus, hrepeats⟩ := ih (hrest.unmoved hunmoved)
      refine ⟨es ++ es', ?_, fun hmem => ?_, fun hnot => ?_⟩
      · rw [History.calls_cons, heq', heq, List.append_assoc]
      · refine hunmoved.status ▸ hstatus ((List.mem_append.1 hmem).resolve_left fun hmem => ?_)
        cases hes _ hmem
      · obtain ⟨hes', hunmoved', hget⟩ := hrepeats (mt (List.mem_append_right es) hnot)
        exact ⟨List.forall_mem_append.2 ⟨hes, hes'⟩, hunmoved.trans hunmoved', hget⟩

theorem AtRest.repeats_of_notMem {es : List Event} (hrest : AtRest t h.lexer)
    (heq : (h.calls more).events = h.events ++ es) (hnot : .recovered ∉ es) :
    Repeats t h.lexer es (h.calls more).lexer := by
  obtain ⟨es', heq', -, hrepeats⟩ := hrest.calls more
  obtain rfl : es = es' := List.append_cancel_left (heq.symm.trans heq')
  exact hrepeats hnot

/-- Without an error there is nothing to recover from. -/
theorem AtRest.repeats_of_isError {es : List Event} (hrest : AtRest t h.lexer)
    (heq : (h.calls more).events = h.events ++ es) (hstatus : h.lexer.status.isError = false) :
    Repeats t h.lexer es (h.calls more).lexer := by
  obtain ⟨es', heq', hrecovered, -⟩ := hrest.calls more
  obtain rfl : es = es' := List.append_cancel_left (heq.symm.trans heq')
  refine hrest.repeats_of_notMem heq fun hmem => ?_
  rw [hrecovered hmem] at hstatus
  cases hstatus

/-- An end marker stands where the input has ended, and leaves it there. -/
theorem Takes.ended (h : Takes l x l') (hkind : x.kind = .endMarker) : x.bytes = [] ∧
    l'.status = .endOfInput ∧ l'.lineStart = l.lineStart ∧ l'.indentation = l.indentation := by
  cases h with
  | spelled _ hspells _ =>
    obtain rfl : _ = Kind.endMarker := hkind
    cases hspells.isSpelled
  | newline => cases hkind
  | endMarker _ hskips hstatus => exact ⟨rfl, hstatus, hskips.lineStart, hskips.indentation⟩
  | stopped => cases hkind
  | fault => cases hkind

/-- A lexer that hands out nothing but end markers has an error still. -/
theorem Gets.latched_eq_false (h : Gets l t l')
    (herror : l.latched = true → l.status.isError = true)
    (hstatus : l'.status.isError = false) : l.latched = false := by
  cases h with
  | latched hlatched => exact absurd (herror hlatched) (Bool.eq_false_iff.1 hstatus)
  | scanned hlatched _ => exact hlatched

/-- After an error token, a lexer is at rest. -/
theorem Gets.atRest_of_error (h : Gets l t l') (hkind : t.kind = .error) :
    AtRest { kind := .endMarker, text := "", line := t.line } l' := by
  have hlatched := h.latched_iff.2 (.inr hkind)
  cases h with
  | latched => cases hkind
  | @scanned x l' _ _ =>
    exact .latched (l := { l' with latched := decide (x.kind = .error) }) hlatched

/-- After an end marker at the end of the input, a lexer is at rest. -/
theorem Gets.atRest_of_endMarker (h : Gets l t l') (hkind : t.kind = .endMarker)
    (hlatched : l.latched = false) : AtRest t l' := by
  cases h with
  | latched h => exact absurd h (Bool.eq_false_iff.1 hlatched)
  | @scanned x l' _ hscans =>
    cases hscans with
    | fault => cases hkind
    | stopped => cases hkind
    | level _ _ hnext =>
      obtain ⟨-, ⟨rfl, -⟩ | ⟨rfl, -⟩⟩ := Indentation.next?_eq_some hnext
      · cases hkind
      · cases hkind
    | @token blanks l₁ x l' hbegin _ hnext htakes =>
      obtain ⟨hbytes, hstatus, hstart, hindentation⟩ := htakes.ended hkind
      obtain ⟨kind, skipped, bytes⟩ := x
      obtain rfl : kind = .endMarker := hkind
      obtain rfl : bytes = [] := hbytes
      exact .ended (l := { l' with latched := false }) rfl hstatus
        (hstart.trans (begins_of_eq hbegin).lineStart) (hindentation ▸ hnext)

/-! ## Every use of a lexer -/

/-- After any calls on any source, a lexer recovers where a read was interrupted,
    and is left as it was elsewhere. Whenever a call tells a token: an error token
    leaves an error; an error without an error token is told by the next token; after
    an error token there are end markers of its line, and nothing is read or changed,
    until the lexer recovers; and after an end marker without an error, it comes again
    and again, and nothing is read or changed at all. -/
theorem errors_final (source : Source) (options : Options) (calls : List Call) :
    let h := (History.start source options).calls calls
    ((h.lexer.recover?.isSome = true ↔ h.lexer.status = .interrupted) ∧
        (h.lexer.status ≠ .interrupted → h.call .recover = h)) ∧
      ∀ c t, (h.call c).events = h.events ++ [.token t] →
        let h' := h.call c
        (t.kind = .error → h'.lexer.status.isError = true) ∧
          (t.kind ≠ .error → h.lexer.latched = false → h'.lexer.status.isError = true →
            ∀ more, (h'.calls more).events = h'.events →
              (h'.calls more).lexer.get.1.kind = .error) ∧
          ∀ more, ∃ es, (h'.calls more).events = h'.events ++ es ∧
            (t.kind = .error → .recovered ∉ es →
              Repeats { kind := .endMarker, text := "", line := t.line } h'.lexer es
                (h'.calls more).lexer) ∧
            (t.kind = .endMarker → h'.lexer.status.isError = false →
              Repeats t h'.lexer es (h'.calls more).lexer) := by
  intro h
  refine ⟨⟨?_, fun hs => ?_⟩, fun c t heq => ?_⟩
  · rw [recover?]
    split_ifs with hs
    · exact iff_of_true rfl hs
    · exact iff_of_false Bool.false_ne_true hs
  · rw [History.call, recover?, if_neg hs]
  · intro h'
    obtain ⟨ht, finished, hlexer⟩ := eq_get_of_call heq
    have hgets : Gets h.lexer t h.lexer.get.2 := ht ▸ gets_get h.lexer
    have hlexer' : h'.lexer = { h.lexer.get.2 with finished } := hlexer
    -- whether the run has ended does not matter to what is handed out
    have hatRest : ∀ {t}, AtRest t h.lexer.get.2 → AtRest t h'.lexer := fun hrest =>
      hlexer' ▸ hrest.withSource finished h.lexer.get.2.input.source
    refine ⟨fun hkind => ?_, fun hkind hlatched hstatus more hmore => ?_, fun more => ?_⟩
    · rw [hlexer']
      exact hgets.isError hkind
    · have hunmoved := unmoved_calls hmore
      have hlatched' : h'.lexer.latched = false := by
        rw [hlexer']
        refine Bool.eq_false_iff.2 (mt hgets.latched_iff.1 (not_or.2 ⟨?_, hkind⟩))
        exact Bool.eq_false_iff.1 hlatched
      exact kind_get_of_isError (hunmoved.latched ▸ hlatched') (hunmoved.status ▸ hstatus)
    · obtain ⟨es, hes⟩ := h'.prefix_calls more
      refine ⟨es, hes.symm, fun hkind hnot => ?_, fun hkind hstatus => ?_⟩
      · exact (hatRest (hgets.atRest_of_error hkind)).repeats_of_notMem hes.symm hnot
      · have hstatus' : h.lexer.get.2.status.isError = false := by
          rwa [hlexer'] at hstatus
        have hlatched := hgets.latched_eq_false (isError_of_latched calls) hstatus'
        have hrest := hatRest (hgets.atRest_of_endMarker hkind hlatched)
        exact hrest.repeats_of_isError hes.symm hstatus

end ScriptCore.Lexer
