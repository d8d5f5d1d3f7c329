import Mathlib.Data.List.DropRight
import ScriptCore.Proofs.Lexer.Scan

/-!
# The history of a lexer

A lexer is used by calls: for the next token, with or without an end after the
first end marker, to recover, and to interrupt the next read. Its history keeps
what it handed out and where it recovered, in order.

* `Gets`: what can become of a lexer when a token is asked for.
* `Steps`: what one call can do to a history.
* `History.calls_induction`: what holds at the start and is kept by each step
  holds after all calls.
-/

namespace ScriptCore.Lexer

open Token (Kind)

variable {l : Lexer}

/-! ## Asking for a token -/

/-- What can become of a lexer when a token is asked for: after an error there
    are only end markers. -/
inductive Gets (l : Lexer) : Token → Lexer → Prop
  | latched : l.latched = true → Gets l { kind := .endMarker, text := "", line := l.line } l
  | scanned {x l'} : l.latched = false → Scans l x l' →
    Gets l { kind := x.kind, text := x.text, line := l'.line }
      { l' with latched := decide (x.kind = .error) }

theorem gets_get (l : Lexer) : Gets l l.get.1 l.get.2 := by
  rw [get]
  split_ifs with h
  · exact .latched h
  · exact .scanned (Bool.eq_false_iff.2 h) (scans_scan l)

/-- Without an error so far, the token is that of the lexeme that is scanned. -/
theorem get_eq (h : l.latched = false) : l.get =
    ({ kind := l.scan.1.kind, text := l.scan.1.text, line := l.scan.2.line },
      { l.scan.2 with latched := decide (l.scan.1.kind = .error) }) := by
  rw [get, h, if_neg Bool.false_ne_true]

theorem Gets.latched_iff {t : Token} {l' : Lexer} (h : Gets l t l') :
    l'.latched = true ↔ l.latched = true ∨ t.kind = .error := by
  cases h with
  | latched hlatched => exact iff_of_true hlatched (.inl hlatched)
  | scanned hlatched => rw [hlatched]; simp

/-! ## Calls -/

/-- What a user asks of a lexer. -/
inductive Call
  | get
  | next
  | recover
  | interrupt
  deriving DecidableEq, Repr

/-- What a user is told. -/
inductive Event
  | token (t : Token)
  | recovered
  deriving DecidableEq, Repr

/-- The kind of the token that is told of. -/
def Event.kind? : Event → Option Kind
  | token t => some t.kind
  | recovered => none

/-- The token that is told of, if it tells a change of level. -/
def Event.level? : Event → Option Token
  | token t => if t.kind.isLevel then some t else none
  | recovered => none

/-- What was told since the start or the last recovery. -/
def sinceRecovery (es : List Event) : List Event :=
  es.rtakeWhile (· ≠ .recovered)

theorem sinceRecovery_token (es : List Event) (t : Token) :
    sinceRecovery (es ++ [.token t]) = sinceRecovery es ++ [.token t] :=
  List.rtakeWhile_concat_pos _ es _ (by simp)

theorem sinceRecovery_recovered (es : List Event) : sinceRecovery (es ++ [.recovered]) = [] :=
  List.rtakeWhile_concat_neg _ es _ (by simp)

/-- The column measured for the line that begins, if nothing is wrong with it. -/
def lineColumn? (l : Lexer) : Option UInt64 :=
  match l.beginLine with
  | (blanks, none, l') => if l'.status.isError then none else some (columnAfter l.tabSize blanks)
  | (_, some _, _) => none

/-- A lexer with what it told so far, and the column measured for the line that
    it began last, if nothing was wrong with it. -/
structure History where
  lexer : Lexer
  events : List Event := []
  column : Option UInt64 := none

namespace History

/-- A lexer at the beginning of a source. -/
def start (source : Source) (options : Options) : History where
  lexer := Lexer.start source options

/-- A token is handed out. -/
def receive (h : History) (r : Token × Lexer) : History where
  lexer := r.2
  events := h.events ++ [.token r.1]
  column := if h.lexer.lineStart ∧ ¬h.lexer.latched then h.lexer.lineColumn? else h.column

/-- What a call does. -/
def call (h : History) : Call → History
  | .get => h.receive h.lexer.get
  | .next => match h.lexer.next? with
    | some r => h.receive r
    | none => h
  | .recover => match h.lexer.recover? with
    | some lexer => { lexer, events := h.events ++ [.recovered] }
    | none => h
  | .interrupt => { h with lexer := h.lexer.interrupt }

/-- What calls do, one after the other. -/
def calls (h : History) (cs : List Call) : History :=
  cs.foldl call h

end History

/-- What one call can do: nothing, or hand out a token, or begin anew, or prepare
    an interrupt. -/
inductive Steps (h : History) : History → Prop
  | idle : Steps h h
  | token {t l} (finished : Bool) : Gets h.lexer t l →
    Steps h (h.receive (t, { l with finished }))
  | recover : h.lexer.status = .interrupted →
    Steps h {
      lexer := { h.lexer with
        input := h.lexer.input.restart
        indentation := {}
        lineStart := true
        latched := false
        finished := false }
      events := h.events ++ [.recovered] }
  | interrupt : Steps h { h with lexer := h.lexer.interrupt }

namespace History

theorem steps_call (h : History) (c : Call) : Steps h (h.call c) := by
  cases c with
  | get => exact .token h.lexer.get.2.finished (gets_get h.lexer)
  | next =>
    rw [call, next?]
    split_ifs with hf
    · exact .idle
    · exact .token _ (gets_get h.lexer)
  | recover =>
    rw [call, recover?]
    split_ifs with hs
    · exact .recover hs
    · exact .idle
  | interrupt => exact .interrupt

theorem calls_induction {P : History → Prop} {h : History} (hstart : P h)
    (hstep : ∀ h h', P h → Steps h h' → P h') (cs : List Call) : P (h.calls cs) := by
  induction cs generalizing h with
  | nil => exact hstart
  | cons c cs ih => exact ih (hstep h (h.call c) hstart (h.steps_call c))

/-- Of calls that interrupt nothing, what is kept by each holds after all. -/
theorem uninterrupted_induction {P : History → Prop} {h : History} (hstart : P h)
    (hcall : ∀ h c, P h → c ≠ .interrupt → P (h.call c)) {cs : List Call}
    (hcs : .interrupt ∉ cs) : P (h.calls cs) := by
  induction cs generalizing h with
  | nil => exact hstart
  | cons c cs ih =>
    obtain ⟨hc, hcs⟩ := not_or.1 (mt List.mem_cons.2 hcs)
    exact ih (hcall h c hstart (Ne.symm hc)) hcs

theorem calls_cons (h : History) (c : Call) (cs : List Call) :
    h.calls (c :: cs) = (h.call c).calls cs :=
  rfl

/-- A run is made of calls for the next token. -/
theorem events_calls_next (h : History) (n : Nat) :
    (h.calls (List.replicate n .next)).events =
      h.events ++ (h.lexer.runFor n).map fun r => .token r.1 := by
  induction n generalizing h with
  | zero => exact (List.append_nil _).symm
  | succ n ih =>
    rw [List.replicate_succ, calls_cons, ih, runFor_succ, call, next?_eq]
    cases hfinished : h.lexer.finished with
    | true => simp [runFor_of_finished hfinished]
    | false => simp [receive]

/-- What was told is never taken back. -/
theorem prefix_calls (h : History) (cs : List Call) : h.events <+: (h.calls cs).events := by
  refine calls_induction (P := fun h' => h.events <+: h'.events) List.prefix_rfl
    (fun h' h'' hprefix hsteps => ?_) cs
  cases hsteps with
  | idle => exact hprefix
  | token => exact hprefix.trans (List.prefix_append _ _)
  | recover => exact hprefix.trans (List.prefix_append _ _)
  | interrupt => exact hprefix

end History

end ScriptCore.Lexer
