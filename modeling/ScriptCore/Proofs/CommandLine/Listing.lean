import ScriptCore.CommandLine
import ScriptCore.Proofs.Lexer.Columns
import ScriptCore.Proofs.Lexer.Text

/-!
# Listing tokens

Tokens are listed up to an end marker, or up to an error that the lexer does not recover from,
unless the program breaks off before. One of these always comes, so the list comes to its end by
itself.

* `Lists`: how a list of tokens goes on, one case for each way in which a token is dealt with.
* `lists_listFor`: the bound on the number of tokens is none in effect.
* `upToEnd`: the tokens of a run up to the first error or end marker.
* `listTokens_ofLines`: on a text, these are listed, and the exit code tells whether there is an
  error, if the program does not break off.
* `listTokens_of_match`: lexers that cannot be told apart list the same.
-/

namespace ScriptCore

namespace Lexer

open Token (Kind)

variable {l l' : Lexer} {bs : Bytes} {n : Nat}

/-! ## Interrupted reads -/

theorem Source.pauses_next (s : Source) :
    s.next.2.pauses + (if s.next.1 = .interrupted then 1 else 0) = s.pauses := by
  obtain ⟨reads, interruptible, interrupted⟩ := s
  cases interrupted with
  | true => simp [next, pauses, Nat.add_comm]
  | false =>
    cases reads with
    | nil => rfl
    | cons r reads => simp [next, pauses, List.count_cons]

theorem Read.outcome_eq_interrupted {r : Read} : r.outcome.1 = .interrupted ↔ r = .interrupted := by
  fun_cases outcome r <;> simp

namespace Input

/-- The number of reads that are still to be interrupted, with the one that reading stopped
    at. -/
def pauses (i : Input) : Nat :=
  i.source.pauses + if i.status = .interrupted then 1 else 0

theorem pauses_fill (i : Input) : i.fill.pauses = i.pauses := by
  by_cases hok : i.status = .ok
  · cases hp : i.pending with
    | nil =>
      obtain ⟨hsource, houtcome⟩ := fill_of_pending_eq_nil hok hp
      have hstatus : i.fill.status = .interrupted ↔ i.source.next.1 = .interrupted := by
        rw [(Prod.mk.inj houtcome).1]
        exact Read.outcome_eq_interrupted
      simp only [pauses, hsource, hstatus, hok, Source.pauses_next, reduceCtorEq, if_false,
        Nat.add_zero]
    | cons b bs => rw [Input.fill, hok, hp]
  · rw [fill_of_ne_ok hok]

theorem stable_pauses (n : Nat) : Stable (·.pauses ≤ n) where
  fill i h := i.pauses_fill ▸ h
  advance i b _ h := by
    simp only [pauses, source_advance, status_advance] at h ⊢
    exact h
  fault i f _ h := Nat.le_trans (Nat.le_add_right i.source.pauses _) h

end Input

/-! ## Asking for tokens -/

theorem Takes.finished {x : Lexeme} (h : Takes l x l') : l'.finished = l.finished := by
  cases h with
  | spelled _ _ hskips => exact hskips.finished
  | newline _ hskips => exact hskips.finished
  | endMarker _ hskips _ => exact hskips.finished
  | stopped hskips _ => exact hskips.finished
  | @fault _ _ l' f hskips =>
    obtain ⟨input, heq⟩ := exists_fault_eq l' f
    rw [heq]
    exact hskips.finished

theorem Begins.finished {f : Option Fault} (h : Begins l bs f l') : l'.finished = l.finished := by
  cases h with
  | within => rfl
  | stopped _ hskips _ => exact hskips.finished
  | entered _ hskips _ _ _ => exact hskips.finished

theorem Scans.finished {x : Lexeme} (h : Scans l x l') : l'.finished = l.finished := by
  cases h with
  | @fault _ f l' hbegin =>
    obtain ⟨input, heq⟩ := exists_fault_eq l' f
    rw [heq]
    exact (begins_of_eq hbegin).finished
  | stopped hbegin _ => exact (begins_of_eq hbegin).finished
  | level hbegin _ _ => exact (begins_of_eq hbegin).finished
  | token hbegin _ _ htakes => exact htakes.finished.trans (begins_of_eq hbegin).finished

/-- Only a run minds whether it has come to its end. -/
theorem finished_get (l : Lexer) : l.get.2.finished = l.finished := by
  have hgets := gets_get l
  generalize l.get.1 = t, l.get.2 = l' at hgets
  cases hgets with
  | latched => rfl
  | scanned _ hscans => exact hscans.finished

/-- Behind a token that is no end marker, a run goes on as the lexer is. -/
theorem behind_eq_get (hfinished : l.finished = false) (hend : l.get.1.kind ≠ .endMarker) :
    l.behind = l.get.2 := by
  have hget := (finished_get l).trans hfinished
  rw [behind, decide_eq_false hend, ← hget]

theorem latched_of_kind_ne (hend : l.get.1.kind ≠ .endMarker) : l.latched = false :=
  Bool.eq_false_iff.2 fun hlatched => hend (by rw [Lexer.get, if_pos hlatched])

theorem latched_get (hlatched : l.latched = false) (herror : l.get.1.kind ≠ .error) :
    l.get.2.latched = false :=
  Bool.eq_false_iff.2 (mt (gets_get l).latched_iff.1
    (not_or.2 ⟨Bool.eq_false_iff.1 hlatched, herror⟩))

theorem exists_add_one_of_bound_le (hn : l.bound ≤ n) : ∃ m, n = m + 1 :=
  Nat.exists_eq_add_one.2 (by rw [bound] at hn; omega)

theorem pauses_get_le (l : Lexer) : l.get.2.input.pauses ≤ l.input.pauses :=
  (Input.stable_pauses l.input.pauses).get (Nat.le_refl _)

end Lexer

namespace CommandLine

open Lexer Token

/-! ## How a list goes on -/

/-- Whether some tokens are those that are listed of a lexer, each with the lexer after it, and
    the list ends so: before the program breaks off, with an end marker, or with an error that
    the lexer does not recover from. -/
inductive Lists : Lexer → List (Token × Lexer) → Ending → Prop
  | brokenOff {l} : l.breaksOff = true → Lists l [] .brokenOff
  | endMarker {l} : l.breaksOff = false → l.get.1.kind = .endMarker →
    Lists l [l.get] (if l.get.2.status.isError then .ill else .well)
  | error {l} : l.breaksOff = false → l.get.1.kind = .error → l.get.2.recover? = none →
    Lists l [l.get] .ill
  | recovered {l l' listed ending} : l.breaksOff = false → l.get.1.kind = .error →
    l.get.2.recover? = some l' → Lists l' listed ending → Lists l (l.get :: listed) ending
  | token {l listed ending} : l.breaksOff = false → l.get.1.kind ≠ .error →
    l.get.1.kind ≠ .endMarker → Lists l.get.2 listed ending → Lists l (l.get :: listed) ending

variable {l : Lexer} {n : Nat} {bs : Bytes} {listed : List (Token × Lexer)} {ending : Ending}
  {t : Token} {ts : List Token}

theorem listBound_eq (l : Lexer) : listBound l = l.bound + l.input.pauses :=
  Nat.add_assoc _ _ _

theorem listFor_of_breaksOff (h : l.breaksOff = true) :
    listFor (n + 1) l = ([], .brokenOff) := by
  rw [listFor, get?, if_pos h]

theorem listFor_succ (h : l.breaksOff = false) (n : Nat) :
    let rest := match l.get.1.kind with
      | .endMarker => ([], if l.get.2.status.isError then Ending.ill else .well)
      | .error => match l.get.2.recover? with
        | some l => listFor n l
        | none => ([], .ill)
      | _ => listFor n l.get.2
    listFor (n + 1) l = (l.get :: rest.1, rest.2) := by
  rw [listFor, get?, h]
  rfl

theorem listFor_of_token (h : l.breaksOff = false) (herror : l.get.1.kind ≠ .error)
    (hend : l.get.1.kind ≠ .endMarker) :
    listFor (n + 1) l = (l.get :: (listFor n l.get.2).1, (listFor n l.get.2).2) := by
  rw [listFor_succ h]
  split
  · next heq => exact absurd heq hend
  · next heq => exact absurd heq herror
  · rfl

/-- A token that is listed and is not the last one leaves fewer to list. -/
theorem listBound_get_lt (herror : l.get.1.kind ≠ .error) (hend : l.get.1.kind ≠ .endMarker) :
    listBound l.get.2 < listBound l := by
  have hbound : l.get.2.bound < l.bound := bound_behind_lt (latched_of_kind_ne hend) herror hend
  have hpauses := pauses_get_le l
  rw [listBound_eq, listBound_eq]
  omega

/-- Recovering leaves fewer to list, by the interrupted read. -/
theorem listBound_afresh_lt (hs : l.get.2.status = .interrupted) :
    listBound l.get.2.afresh < listBound l := by
  have hremaining : l.get.2.input.remaining ≤ l.input.remaining :=
    (Input.stable_remaining l.input.remaining).get (Nat.le_refl _)
  have hpauses := pauses_get_le l
  have hafresh : listBound l.get.2.afresh =
    2 * (0 + l.get.2.input.source.size) + 0 + 0 + 3 + l.get.2.input.source.pauses + 0 := rfl
  rw [Input.remaining] at hremaining
  rw [Input.pauses, ← status, hs, if_pos rfl] at hpauses
  rw [hafresh, listBound_eq, bound]
  omega

/-- **A list comes to its end by itself**, whatever the lexer was asked before and whatever its
    source answers: the bound on the number of tokens cuts nothing off. -/
theorem lists_listFor (hn : listBound l ≤ n) : Lists l (listFor n l).1 (listFor n l).2 := by
  induction n generalizing l with
  | zero => exact absurd hn (by rw [listBound, bound]; omega)
  | succ n ih =>
    cases hbreak : l.breaksOff with
    | true =>
      rw [listFor_of_breaksOff hbreak]
      exact .brokenOff hbreak
    | false =>
      by_cases hend : l.get.1.kind = .endMarker
      · rw [listFor_succ hbreak, hend]
        exact .endMarker hbreak hend
      by_cases herror : l.get.1.kind = .error
      · rw [listFor_succ hbreak, herror]
        by_cases hs : l.get.2.status = .interrupted
        · have hlt := listBound_afresh_lt hs
          simp only [recover?_eq_afresh hs]
          exact .recovered hbreak herror (recover?_eq_afresh hs) (ih (by omega))
        · have hnone : l.get.2.recover? = none := if_neg hs
          simp only [hnone]
          exact .error hbreak herror hnone
      · have hlt := listBound_get_lt herror hend
        rw [listFor_of_token hbreak herror hend]
        exact .token hbreak herror hend (ih (by omega))

/-! ## Lists of texts -/

/-- The tokens up to the first error or end marker. -/
def upToEnd : List Token → List Token
  | [] => []
  | t :: ts => t :: if t.kind = .error ∨ t.kind = .endMarker then [] else upToEnd ts

/-- Whether a list tells of a run: it has the tokens up to the first error or end marker, and
    its ending tells whether there is an error. -/
structure Reports (listed : List (Token × Lexer)) (ending : Ending) (ts : List Token) : Prop where
  tokens : listed.map (·.1) = upToEnd ts
  ending : ending = if ∀ t ∈ ts, t.kind ≠ .error then .well else .ill

theorem reports_endMarker (hend : t.kind = .endMarker) (hstatus : l.status.isError = false) :
    Reports [(t, l)] (if l.status.isError then .ill else .well) [t] where
  tokens := by rw [upToEnd, if_pos (.inr hend)]; rfl
  ending := by simp [hend, hstatus]

theorem reports_error (herror : t.kind = .error) : Reports [(t, l)] .ill (t :: ts) where
  tokens := by rw [upToEnd, if_pos (.inl herror)]; rfl
  ending := by simp [herror]

theorem Reports.cons (h : Reports listed ending ts) (herror : t.kind ≠ .error)
    (hend : t.kind ≠ .endMarker) : Reports ((t, l) :: listed) ending (t :: ts) where
  tokens := by
    rw [upToEnd, if_neg (not_or.2 ⟨herror, hend⟩), ← h.tokens]
    rfl
  ending := by
    rw [h.ending]
    simp only [List.forall_mem_cons, herror, ne_eq, not_false_eq_true, true_and]

/-- A list of a text tells of its run. -/
theorem Lists.reports (h : Lists l listed ending) (hthrough : Through bs l)
    (hlatched : l.latched = false) (hfinished : l.finished = false) (hn : l.bound ≤ n)
    (hunbroken : Unbroken l (l.runFor n)) : Reports listed ending ((l.runFor n).map (·.1)) := by
  obtain ⟨hbreak, hbehind⟩ := List.forall_mem_cons.1 hunbroken
  -- the induction is on the list, which the run goes along with up to its end
  induction h generalizing n with
  | @brokenOff l hbroken => cases hbreak.symm.trans hbroken
  | @endMarker l _ hend =>
    obtain ⟨n, rfl⟩ := exists_add_one_of_bound_le hn
    have hstatus : l.get.2.status.isError = false :=
      isError_of_ending (hthrough.get.ending (latched_get hlatched (by rw [hend]; exact nofun)))
    rw [runFor_eq_cons hfinished, runFor_of_finished (finished_behind.2 hend)]
    exact reports_endMarker hend hstatus
  | error _ herror _ =>
    obtain ⟨n, rfl⟩ := exists_add_one_of_bound_le hn
    rw [runFor_eq_cons hfinished]
    exact reports_error herror
  | recovered _ _ hrecover =>
    -- nothing is interrupted in a text
    cases hthrough.get.recover?_eq_none.symm.trans hrecover
  | @token l listed ending _ herror hend hlists ih =>
    obtain ⟨n, rfl⟩ := exists_add_one_of_bound_le hn
    have hlt : l.behind.bound < l.bound := bound_behind_lt hlatched herror hend
    rw [runFor_eq_cons hfinished] at hbehind ⊢
    rw [behind_eq_get hfinished hend] at hlt hbehind ⊢
    obtain ⟨hbreak, hbehind⟩ := List.forall_mem_cons.1 hbehind
    exact (ih hthrough.get (latched_get hlatched herror) ((finished_get l).trans hfinished)
      (by omega) (List.forall_mem_cons.2 ⟨hbreak, hbehind⟩) hbreak hbehind).cons herror hend

/-- **Listing a text.** Unless the program breaks off, the lines are those of the tokens of the
    run up to the first error or end marker, and the exit code is 0 if there is no error among
    the tokens, and 1 if there is. -/
theorem listTokens_ofLines (bs : Bytes) (options : Options)
    (h : Unbroken (start (.ofLines bs) options) (start (.ofLines bs) options).run) :
    let l := start (.ofLines bs) options
    (listTokens l).output = String.join ((upToEnd l.tokens).map tokenLine) ∧
      (listTokens l).code = if ∀ t ∈ l.tokens, t.kind ≠ .error then 0 else 1 := by
  intro l
  have hthrough : Through bs l := through_start (Source.delivers_ofLines bs) options
  obtain ⟨htokens, hending⟩ := (lists_listFor (Nat.le_refl (listBound l))).reports hthrough rfl rfl
    (Nat.le_refl l.bound) h
  refine ⟨?_, ?_⟩
  · rw [Lexer.tokens, Lexer.run, ← htokens, List.map_map]
    rfl
  · show Ending.code (listFor (listBound l) l).2 = _
    rw [hending]
    exact apply_ite Ending.code _ _ _

/-! ## Lexers that cannot be told apart -/

section Match

variable {R : Input → Input → Prop} (hR : Input.Indistinct R) {l l' : Lexer}
include hR

theorem listFor_of_match (h : Match R l l') (n : Nat) :
    (listFor n l).1.map (·.1) = (listFor n l').1.map (·.1) ∧
      (listFor n l).2 = (listFor n l').2 := by
  induction n generalizing l l' with
  | zero => exact ⟨rfl, rfl⟩
  | succ n ih =>
    have hbreak := h.breaksOff hR
    cases hbroken : l.breaksOff with
    | true =>
      rw [listFor_of_breaksOff hbroken, listFor_of_breaksOff (hbreak.symm.trans hbroken)]
      exact ⟨rfl, rfl⟩
    | false =>
      obtain ⟨htoken, hget⟩ := h.get hR
      have hstatus := hget.agree.status hR.toParallel
      have hne : l.get.2.status ≠ .interrupted := hR.uninterrupted hget.agree.input
      have hrecover : l.get.2.recover? = none := if_neg hne
      have hrecover' : l'.get.2.recover? = none := if_neg (hstatus ▸ hne)
      obtain ⟨hlisted, hending⟩ := ih hget
      simp only [listFor_succ hbroken, listFor_succ (hbreak.symm.trans hbroken), ← htoken,
        ← hstatus, hrecover, hrecover', List.map_cons]
      split
      · exact ⟨rfl, rfl⟩
      · exact ⟨rfl, rfl⟩
      · exact ⟨congrArg (_ :: ·) hlisted, hending⟩

/-- The same is listed of lexers that cannot be told apart. -/
theorem listTokens_of_match (h : Match R l l') (hbound : listBound l = listBound l') :
    (listTokens l).output = (listTokens l').output ∧ (listTokens l).code = (listTokens l').code := by
  obtain ⟨hlisted, hending⟩ := listFor_of_match hR h (listBound l)
  refine ⟨?_, ?_⟩
  · show String.join ((listFor (listBound l) l).1.map (tokenLine ∘ Prod.fst)) =
      String.join ((listFor (listBound l') l').1.map (tokenLine ∘ Prod.fst))
    rw [← List.map_map, ← List.map_map, hlisted, hbound]
  · show (listFor (listBound l) l).2.code = (listFor (listBound l') l').2.code
    rw [hending, hbound]

end Match

end CommandLine

end ScriptCore
