import ScriptCore.Proofs.Lexer.History
import ScriptCore.Proofs.Lexer.Lexemes

/-!
# Lexers on a text

A text that a source delivers is taken from its beginning to its end, whatever
is asked of the lexer, and nothing but a fault in it keeps the lexer from the
end.

* `Scans.ending`: a token does not change how the input ends, but for a fault.
* `Through`: what is left of the text, and how it ends. Each call but an
  interrupt keeps this (`through_calls`).
-/

namespace ScriptCore.Lexer

open Token (Kind)

variable {l l' : Lexer} {x : Lexeme} {bs blanks : Bytes} {f : Option Fault} {h : History}

/-! ## How the input ends -/

theorem ending_fault (l : Lexer) (f : Fault) : (l.fault f).input.ending = l.input.ending ∨
    (l.fault f).input.ending = .malformed f := by
  rw [fault]
  split_ifs
  · exact .inl rfl
  · exact .inr rfl

theorem Takes.ending (h : Takes l x l') : l'.input.ending = l.input.ending ∨
    x.kind = .error ∧ ∃ f, l'.input.ending = .malformed f := by
  cases h with
  | spelled _ _ hskips => exact .inl hskips.ending
  | newline _ hskips => exact .inl hskips.ending
  | endMarker _ hskips _ => exact .inl hskips.ending
  | stopped hskips _ => exact .inl hskips.ending
  | @fault _ _ l' f hskips =>
    rcases ending_fault l' f with heq | heq
    · exact .inl (heq.trans hskips.ending)
    · exact .inr ⟨rfl, f, heq⟩

theorem Begins.ending (h : Begins l blanks f l') : l'.input.ending = l.input.ending := by
  cases h with
  | within => rfl
  | stopped _ hskips _ => exact hskips.ending
  | entered _ hskips _ _ _ => exact hskips.ending

/-- A token does not change how the input ends, unless it is one for a fault. -/
theorem Scans.ending (h : Scans l x l') : l'.input.ending = l.input.ending ∨
    x.kind = .error ∧ ∃ f, l'.input.ending = .malformed f := by
  cases h with
  | @fault _ f l' hbegin =>
    rcases ending_fault l' f with heq | heq
    · exact .inl (heq.trans (begins_of_eq hbegin).ending)
    · exact .inr ⟨rfl, f, heq⟩
  | stopped hbegin _ => exact .inl (begins_of_eq hbegin).ending
  | level hbegin _ _ => exact .inl (begins_of_eq hbegin).ending
  | token hbegin _ _ htakes =>
    rw [← (begins_of_eq hbegin).ending]
    exact htakes.ending

/-- Where the input ends without an error, none is met before the end. -/
theorem isError_of_ending {i : Input} (h : i.ending = .endOfInput) : i.status.isError = false := by
  by_cases hs : i.status = .ok
  · rw [hs]
    rfl
  · rw [← Input.ending_of_ne_ok hs, h]
    rfl

/-! ## The way through a text -/

/-- Whether a lexer is on its way through a text: unless there was an error, what
    is left is the end of the text, and nothing follows it. -/
structure Through (bs : Bytes) (l : Lexer) : Prop where
  rest : l.latched = false → l.input.rest <:+ bs
  ending : l.latched = false → l.input.ending = .endOfInput
  uninterrupted : l.input.ending ≠ .interrupted

theorem through_start {source : Source} (h : source.Delivers bs) (options : Options) :
    Through bs (start source options) := by
  have hending := ending_start h options
  exact ⟨fun _ => rest_start h options ▸ List.suffix_rfl, fun _ => hending,
    by rw [hending]; decide⟩

/-- A token, or an end marker after an error. -/
theorem Through.gets {t : Token} (h : Through bs l) (hgets : Gets l t l') : Through bs l' := by
  cases hgets with
  | latched => exact h
  | @scanned x l' hlatched hscans =>
    have hend := h.ending hlatched
    refine ⟨fun hl => ?_, fun hl => ?_, ?_⟩
    · have hrest := (hscans.accounts (of_decide_eq_false hl)).rest
      have hsuffix : l'.input.rest <:+ l.input.rest := hrest ▸ List.suffix_append _ _
      exact hsuffix.trans (h.rest hlatched)
    · rcases hscans.ending with heq | ⟨herror, -⟩
      · exact heq.trans hend
      · exact absurd herror (of_decide_eq_false hl)
    · -- a fault is the one thing that can take the place of the end
      show l'.input.ending ≠ .interrupted
      rcases hscans.ending with heq | ⟨-, f, heq⟩
      · rw [heq, hend]
        exact nofun
      · rw [heq]
        exact nofun

theorem Through.get (h : Through bs l) : Through bs l.get.2 :=
  h.gets (gets_get l)

theorem Through.recover?_eq_none (h : Through bs l) : l.recover? = none := by
  refine if_neg fun hs => h.uninterrupted ?_
  rw [status] at hs
  rw [Input.ending_of_ne_ok (by rw [hs]; decide), hs]

theorem Through.call (hthrough : Through bs h.lexer) {c : Call} (hc : c ≠ .interrupt) :
    Through bs (h.call c).lexer := by
  cases c with
  | get => exact hthrough.get
  | next =>
    rw [History.call, Lexer.next?]
    split_ifs
    · exact hthrough
    · exact { hthrough.get with }
  | recover =>
    rw [History.call, hthrough.recover?_eq_none]
    exact hthrough
  | interrupt => exact absurd rfl hc

/-- Calls keep a lexer on its way through a text, if they interrupt nothing. -/
theorem through_calls {source : Source} (hsource : source.Delivers bs) (options : Options)
    {calls : List Call} (hcalls : .interrupt ∉ calls) :
    Through bs ((History.start source options).calls calls).lexer :=
  History.uninterrupted_induction (P := fun h => Through bs h.lexer)
    (through_start hsource options) (fun _ _ hthrough hc => hthrough.call hc) hcalls

end ScriptCore.Lexer
