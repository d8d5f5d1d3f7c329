import ScriptCore.Proofs.Lexer.Languages
import ScriptCore.Proofs.Lexer.Text

/-!
# Longest matches

A token begins after the space, the comment and the continued lines in front of
it, and is the longest match that the next byte allows.

* `Precedes`: all that stands in front of a token, and what begins with the token.
* `LongestMatch`: what a text begins with, by its first byte.
* `tokens_longest`: what follows for a text that comes in any way, wherever the
  lexer looks for a token.
-/

namespace ScriptCore.Lexer

open Token (Kind)

/-! ## The place of a token -/

/-- Whether a text does not begin with space between tokens. -/
def Tight (bs : Bytes) : Prop :=
  ∀ w, Gap w → w <+: bs → w = []

/-- What stands in front of a token, and what begins with the token: a gap that
    is as long as it can be, and no comment after it; or a gap with a comment,
    which goes on to the end of the line. -/
inductive Precedes : Bytes → Bytes → Prop
  | gap {bs rest} : Gap bs → Tight rest → rest.head? ≠ some '#'.toUInt8 → Precedes bs rest
  | comment {bs text rest} : Gap bs → '\n'.toUInt8 ∉ text →
    (∀ b, rest.head? = some b → b = '\n'.toUInt8) → Precedes (bs ++ '#'.toUInt8 :: text) rest

/-- What a text begins with, by its first byte: the kind of the token, its bytes,
    and how things stand after it. -/
inductive LongestMatch : Bytes → Kind → Bytes → Status → Prop
  | endMarker : LongestMatch [] .endMarker [] .endOfInput
  | name {b bs w status} : Byte.beginsName b = true → IsLongest names (b :: bs) w →
    LongestMatch (b :: bs) .name w status
  | number {b bs w status} : Byte.isDigit b = true → IsLongest numbers (b :: bs) w →
    LongestMatch (b :: bs) .number w status
  | string {bs w status} : IsLongest strings ('\''.toUInt8 :: bs) w →
    LongestMatch ('\''.toUInt8 :: bs) .string w status
  | unterminated {bs w} : (∀ w, w <+: '\''.toUInt8 :: bs → w ∉ strings) →
    LongestMatch ('\''.toUInt8 :: bs) .error w (.malformed .unterminatedString)
  | backslash {bs w} :
    LongestMatch ('\\'.toUInt8 :: bs) .error w (.malformed .badContinuation)
  | newline {bs status} :
    LongestMatch ('\n'.toUInt8 :: bs) .newline ['\n'.toUInt8] status
  | symbol {b bs status} : Byte.beginsName b = false → Byte.isDigit b = false →
    b ∉ ['\''.toUInt8, '\\'.toUInt8, '\n'.toUInt8] →
    LongestMatch (b :: bs) (.ofByte b) [b] status

/-- Whether a lexeme is what a text begins with, after what stands in front of it. -/
def Finds (bs : Bytes) (r : Lexeme × Lexer) : Prop :=
  ∃ rest, bs = r.1.skipped ++ rest ∧ Precedes r.1.skipped rest ∧
    LongestMatch rest r.1.kind r.1.bytes r.2.status

/-- Whether reading stopped otherwise than by the end of the input where a text goes
    on to no token: at the end of the text, or after the beginning of a token that
    the text does not complete. -/
def Stops (e : Status) (bs : Bytes) (r : Lexeme × Lexer) : Prop :=
  (e ≠ .endOfInput ∧ r.2.status = e ∧ r.1.kind = .error) ∧
    ∃ rest, bs = r.1.skipped ++ rest ∧ Precedes r.1.skipped rest ∧ '\n'.toUInt8 ∉ rest ∧
      (rest = [] ∨ ∃ w status, LongestMatch rest .error w status)

/-- What a lexeme is where a text ends as `e` says. -/
def Meets (e : Status) (bs : Bytes) (r : Lexeme × Lexer) : Prop :=
  Finds bs r ∨ Stops e bs r

variable {l : Lexer} {b : UInt8} {bs bs' rest : Bytes} {r : Lexeme × Lexer} {e : Status}

theorem Precedes.append (h : Precedes bs' rest) (hgap : Gap bs) : Precedes (bs ++ bs') rest := by
  cases h with
  | gap hgap' htight hhash => exact .gap (hgap.append hgap') htight hhash
  | comment hgap' htext hend => exact List.append_assoc .. ▸ .comment (hgap.append hgap') htext hend

/-- What is passed over in front of the space before a token belongs to that space. -/
theorem Meets.append (h : Meets e rest r) (hgap : Gap bs) :
    Meets e (bs ++ rest) ({ r.1 with skipped := bs ++ r.1.skipped }, r.2) := by
  rcases h with ⟨rest', rfl, hprecedes, hmatch⟩ | ⟨hstatus, rest', rfl, hprecedes, hbreaks⟩
  · exact .inl ⟨rest', (List.append_assoc ..).symm, hprecedes.append hgap, hmatch⟩
  · exact .inr ⟨hstatus, rest', (List.append_assoc ..).symm, hprecedes.append hgap, hbreaks⟩

/-- At the end of the input, a text ends with an end marker. -/
theorem Meets.finds (h : Meets e bs r) (he : e = .endOfInput) : Finds bs r :=
  h.resolve_right fun hstops => hstops.1.1 he

theorem tight_nil : Tight [] :=
  fun _ _ hprefix => List.prefix_nil.1 hprefix

theorem tight_cons (hblank : Byte.isBlank b = false) (hbackslash : b ≠ '\\'.toUInt8) :
    Tight (b :: bs) := by
  intro w hw hprefix
  cases hw with
  | nil => rfl
  | blank hc _ =>
    obtain ⟨rfl, -⟩ := List.cons_prefix_cons.1 hprefix
    exact absurd hc (Bool.eq_false_iff.1 hblank)
  | line _ => exact absurd (List.cons_prefix_cons.1 hprefix).1.symm hbackslash
  | returned _ => exact absurd (List.cons_prefix_cons.1 hprefix).1.symm hbackslash

/-- A backslash that is not followed by the end of a line. -/
theorem tight_backslash (hline : ¬['\n'.toUInt8] <+: bs)
    (hreturned : ¬['\r'.toUInt8, '\n'.toUInt8] <+: bs) : Tight ('\\'.toUInt8 :: bs) := by
  intro w hw hprefix
  cases hw with
  | nil => rfl
  | blank hc _ =>
    obtain ⟨rfl, -⟩ := List.cons_prefix_cons.1 hprefix
    exact absurd hc (by decide)
  | line _ =>
    exact absurd ((List.prefix_append [_] _).trans (List.cons_prefix_cons.1 hprefix).2) hline
  | returned _ =>
    exact absurd ((List.prefix_append [_, _] _).trans (List.cons_prefix_cons.1 hprefix).2) hreturned

theorem GapPlace.Leaves.newline_notMem {place : GapPlace} (h : place.Leaves bs) :
    '\n'.toUInt8 ∉ bs := by
  cases h with
  | between => exact List.not_mem_nil
  | backslash => decide
  | returned => decide
  | other _ hline =>
    exact List.not_mem_cons_of_ne_of_not_mem (by decide) (by simpa using hline.symm)
  | otherReturned hline =>
    exact List.not_mem_cons_of_ne_of_not_mem (by decide)
      (List.not_mem_cons_of_ne_of_not_mem (by decide) (by simpa using hline.symm))

/-- What breaks a gap off is a backslash that ends no line, where nothing more comes
    unless the place is broken. -/
theorem GapPlace.Leaves.exists_backslash {place : GapPlace} (h : place.Leaves bs)
    (hplace : place.excess ≠ 0)
    (hrest : ∀ b after, rest = b :: after →
      gapPattern.isComplete place = true ∨ gapPattern.step place b = none) :
    ∃ bs', bs ++ rest = '\\'.toUInt8 :: bs' ∧ Tight ('\\'.toUInt8 :: bs') := by
  -- a place that any byte leads on from is left only at the end
  have hnil : (∀ b, gapStep place b ≠ none) → gapPattern.isComplete place = false → rest = [] :=
    fun hstep hc => by
      cases rest with
      | nil => rfl
      | cons b after =>
        rcases hrest b after rfl with hcomplete | hnone
        · exact absurd hcomplete (Bool.eq_false_iff.1 hc)
        · exact absurd hnone (hstep b)
  cases h with
  | between => exact absurd rfl hplace
  | backslash =>
    rw [hnil (fun b => by simp only [gapStep]; split_ifs <;> exact Option.some_ne_none _) rfl]
    exact ⟨_, rfl, tight_backslash (by decide) (by decide)⟩
  | returned =>
    rw [hnil (fun b => by simp only [gapStep]; split_ifs <;> exact Option.some_ne_none _) rfl]
    exact ⟨_, rfl, tight_backslash (by decide) (by decide)⟩
  | other hreturn hline =>
    refine ⟨_, rfl, tight_backslash (fun h => hline ?_) (fun h => hreturn ?_)⟩
    · exact (List.cons_prefix_cons.1 h).1.symm
    · exact (List.cons_prefix_cons.1 h).1.symm
  | otherReturned hline =>
    refine ⟨_, rfl, tight_backslash (fun h => ?_) (fun h => hline ?_)⟩
    · exact absurd (List.cons_prefix_cons.1 h).1 (by decide)
    · exact (List.cons_prefix_cons.1 (List.cons_prefix_cons.1 h).2).1.symm

/-! ## A token -/

/-- An error that comes of taking the bytes of a pattern is met behind the last byte. -/
theorem stops_of_munched {σ : Type} {p : Pattern σ} {s s' : σ} {i i' : Input}
    (h : Input.Munched p s i bs s' i') (hok : i.status = .ok) (herror : i'.status.isError = true) :
    (i.ending ≠ .endOfInput ∧ i'.status = i.ending) ∧ p.isComplete s' = false ∧
      i'.rest = [] := by
  have hstatus := h.status
  split_ifs at hstatus with hmore
  · rw [hstatus, hok] at herror
    cases herror
  · obtain ⟨hc, hrest⟩ := not_or.1 hmore
    refine ⟨⟨fun hend => ?_, hstatus⟩, Bool.eq_false_iff.2 hc, Decidable.not_not.1 hrest⟩
    rw [hstatus, hend] at herror
    cases herror

theorem fault_of_isError {f : Fault} (h : l.status.isError = true) : l.fault f = l :=
  if_pos h

theorem fault_of_not_isError {f : Fault} (h : l.status.isError = false) :
    l.fault f = { l with input := { l.input with status := .malformed f } } :=
  if_neg (Bool.eq_false_iff.1 h)

/-- What is taken by a pattern. Where it is at fault, reading may have stopped before
    that, behind the last byte. -/
theorem exists_take {σ : Type} (hb : l.input.head? = some b) (p : Pattern σ) (s : σ)
    (verdict : σ → Kind ⊕ Fault) :
    ∃ bs, l.input.rest = b :: bs ∧ (match verdict (p.run s bs).2 with
      | .inl kind => (l.take b p s verdict).1 = { kind, bytes := b :: (p.run s bs).1 }
      | .inr f => (l.take b p s verdict).1 = { kind := .error, bytes := b :: (p.run s bs).1 } ∧
          ((l.take b p s verdict).2.status = .malformed f ∨
            (l.input.ending ≠ .endOfInput ∧ (l.take b p s verdict).2.status = l.input.ending) ∧
              p.isComplete (p.run s bs).2 = false ∧ (p.run s bs).1 = bs)) := by
  obtain ⟨taken, s', input, hmunch, hmunched⟩ := Input.exists_munched p s l.input.advance
  have hok : l.input.advance.status = .ok :=
    (Input.status_advance l.input).trans (Input.exists_pending_of_head? hb).1
  refine ⟨l.input.advance.rest, Input.rest_advance hb, ?_⟩
  simp only [hmunched.run, take, hmunch]
  cases hv : verdict s' with
  | inl kind => rfl
  | inr f =>
    refine ⟨rfl, ?_⟩
    let m : Lexer := { l with input }
    show (m.fault f).status = .malformed f ∨
      (l.input.ending ≠ .endOfInput ∧ (m.fault f).status = l.input.ending) ∧
        p.isComplete s' = false ∧ taken = l.input.advance.rest
    cases herror : m.status.isError with
    | false =>
      rw [fault_of_not_isError herror]
      exact .inl rfl
    | true =>
      obtain ⟨hends, hc, hrest⟩ := stops_of_munched hmunched hok herror
      rw [Input.ending_advance] at hends
      rw [fault_of_isError herror]
      exact .inr ⟨hends, hc, by rw [hmunched.rest, hrest, List.append_nil]⟩

/-- Where no byte is at hand after one was asked for, the input has ended. -/
theorem meets_atEnd {σ : Type} {p : Pattern σ} {s s' : σ} {i : Input} {skipped : Bytes}
    (h : Input.Munched p s i bs s' l.input) (hc : p.isComplete s' = false)
    (hb : l.input.head? = none) (hprecedes : Precedes skipped []) :
    Meets i.ending skipped ({ l.atEnd.1 with skipped }, l.atEnd.2) := by
  have hne : l.input.status ≠ .ok := status_ne_ok_of_munched h hc hb
  have hstatus : l.status = i.ending := (Input.ending_of_ne_ok hne).symm.trans h.ending
  rw [atEnd]
  by_cases hend : l.status = .endOfInput
  · have hends : LongestMatch [] .endMarker [] l.status := by
      rw [hend]
      exact .endMarker
    rw [if_pos hend]
    exact .inl ⟨[], (List.append_nil _).symm, hprecedes, hends⟩
  · rw [if_neg hend]
    exact .inr ⟨⟨hstatus ▸ hend, hstatus, rfl⟩, [], (List.append_nil _).symm, hprecedes,
      List.not_mem_nil, .inl rfl⟩

/-- A comment goes on to the end of the line, and a token begins there. -/
theorem meets_takeComment (hb : l.input.head? = some '#'.toUInt8) :
    Meets l.input.ending l.input.rest (l.takeComment '#'.toUInt8) := by
  obtain ⟨text, s', input, hmunch, hmunched⟩ :=
    Input.exists_munched commentPattern () l.advance.obeyComment.input
  have hskips := (skips_advance hb).trans (skips_obeyComment l.advance)
  obtain ⟨htext, hline⟩ := comment_of_munched hmunched
  have hprecedes : Precedes ('#'.toUInt8 :: text) input.rest := .comment .nil htext hline
  simp only [takeComment, hmunch]
  cases hhead : input.head? with
  | none =>
    have hrest : input.rest = [] := List.head?_eq_none_iff.1 ((hmunched.head rfl).symm.trans hhead)
    have hmeets := meets_atEnd (l := { l.advance.obeyComment with input }) hmunched rfl hhead
      (hrest ▸ hprecedes)
    rw [hskips.rest, hmunched.rest, ← hskips.ending, hrest, List.append_nil, List.append_nil]
    exact hmeets
  | some c =>
    obtain rfl := hline c ((hmunched.head rfl).symm.trans hhead)
    rw [hskips.rest, hmunched.rest]
    refine .inl ⟨input.rest, rfl, hprecedes, ?_⟩
    rw [Input.rest_advance hhead]
    exact .newline

theorem takeToken_longest (hb : l.input.head? = some b) (hhash : b ≠ '#'.toUInt8)
    (hbackslash : b ≠ '\\'.toUInt8) : (l.takeToken b).1.skipped = [] ∧
      (LongestMatch l.input.rest (l.takeToken b).1.kind (l.takeToken b).1.bytes
          (l.takeToken b).2.status ∨
        (l.input.ending ≠ .endOfInput ∧ (l.takeToken b).2.status = l.input.ending ∧
          (l.takeToken b).1.kind = .error) ∧ '\n'.toUInt8 ∉ l.input.rest ∧
          ∃ w status, LongestMatch l.input.rest .error w status) := by
  rw [takeToken, if_neg hhash]
  -- one case for each first byte, in the order in which they are looked for
  split_ifs with hname hnewline hzero hdigit hquote
  · obtain ⟨bs, hrest, htake⟩ := exists_take hb namePattern () fun _ => .inl .name
    rw [hrest, htake]
    exact ⟨rfl, .inl (.name hname (isLongest_names hname))⟩
  · subst hnewline
    rw [Input.rest_advance hb]
    exact ⟨rfl, .inl .newline⟩
  · subst hzero
    obtain ⟨bs, hrest, htake⟩ := exists_take hb numberPattern .zero fun _ => .inl .number
    rw [hrest, htake]
    exact ⟨rfl, .inl (.number (by decide) (isLongest_numbers (by decide)))⟩
  · obtain ⟨bs, hrest, htake⟩ := exists_take hb numberPattern .whole fun _ => .inl .number
    rw [hrest, htake]
    refine ⟨rfl, .inl (.number hdigit (isLongest_numbers ?_))⟩
    rw [numberStep, if_neg hzero, if_pos hdigit]
  · subst hquote
    obtain ⟨bs, hrest, htake⟩ := exists_take hb stringPattern .inside fun s =>
      if s = .closed then .inl .string else .inr .unterminatedString
    rw [hrest]
    by_cases hclosed : (stringPattern.run .inside bs).2 = .closed
    · simp only [if_pos hclosed] at htake
      rw [htake]
      exact ⟨rfl, .inl (.string (isLongest_strings hclosed))⟩
    · simp only [if_neg hclosed] at htake
      obtain ⟨hlexeme, hstatus | ⟨⟨hend, hstatus⟩, hc, hall⟩⟩ := htake
      · rw [hlexeme, hstatus]
        exact ⟨rfl, .inl (.unterminated (notMem_strings hclosed))⟩
      · rw [hlexeme]
        refine ⟨rfl, .inr ⟨⟨hend, hstatus, rfl⟩, fun hmem => ?_,
          [], _, .unterminated (notMem_strings hclosed)⟩⟩
        have hbs := (List.mem_cons.1 hmem).resolve_left (by decide)
        exact newline_notMem_run_string hc (hall.symm ▸ hbs)
  · rw [Input.rest_advance hb]
    refine ⟨rfl, .inl (.symbol (Bool.eq_false_iff.2 hname) (Bool.eq_false_iff.2 hdigit) ?_)⟩
    simp [hquote, hbackslash, hnewline]

/-- A token begins where no space and no continued line does. -/
theorem meets_takeToken (hb : l.input.head? = some b) (hblank : Byte.isBlank b = false)
    (hbackslash : b ≠ '\\'.toUInt8) : Meets l.input.ending l.input.rest (l.takeToken b) := by
  have hrest := Input.rest_advance hb
  by_cases hhash : b = '#'.toUInt8
  · subst hhash
    rw [takeToken, if_pos rfl]
    exact meets_takeComment hb
  · obtain ⟨hskipped, hmatch⟩ := takeToken_longest hb hhash hbackslash
    have hprecedes : Precedes [] l.input.rest := by
      rw [hrest]
      exact .gap .nil (tight_cons hblank hbackslash) fun heq => hhash (Option.some.inj heq)
    rcases hmatch with hmatch | ⟨hstops, hline, hmatch⟩
    · exact .inl ⟨l.input.rest, by rw [hskipped]; rfl, hskipped ▸ hprecedes, hmatch⟩
    · exact .inr ⟨hstops, l.input.rest, by rw [hskipped]; rfl, hskipped ▸ hprecedes, hline,
        .inr hmatch⟩

/-- A token, with the space in front of it. -/
theorem meets_scanToken (l : Lexer) : Meets l.input.ending l.input.rest l.scanToken := by
  obtain ⟨bs, place, input, hmunch, hmunched⟩ := Input.exists_munched gapPattern .between l.input
  obtain ⟨gap, left, rfl, hgap, hleaves⟩ := exists_gap_of_run hmunched.run
  have hskipped : (gap ++ left).take ((gap ++ left).length - place.excess) = gap := by
    rw [← hleaves.length, List.length_append, Nat.add_sub_cancel, List.take_left]
  -- the run ends with all bytes, or before one that it does not accept
  have hstop : ∀ b after, input.rest = b :: after →
      gapPattern.isComplete place = true ∨ gapPattern.step place b = none := fun b after hafter =>
    Pattern.stop_run (hafter ▸ hmunched.rest ▸ hmunched.run)
  simp only [scanToken, hmunch, hskipped, hmunched.rest, List.append_assoc]
  -- the gap is left where it may be, or behind a backslash that ends no line
  by_cases hexcess : place.excess = 0
  · obtain rfl := eq_between_of_excess hmunched.run hexcess
    cases hleaves
    rw [if_pos hexcess]
    refine (?_ : Meets l.input.ending input.rest _).append hgap
    cases hhead : input.head? with
    | none =>
      rw [List.head?_eq_none_iff.1 ((hmunched.head rfl).symm.trans hhead)]
      exact meets_atEnd (l := { l with input, line := l.line + gap.count '\n'.toUInt8 })
        hmunched rfl hhead (.gap .nil tight_nil (Option.some_ne_none _).symm)
    | some b =>
      have hstep : gapStep .between b = none :=
        (hstop b _ (Input.rest_advance hhead)).resolve_left Bool.false_ne_true
      simp only [gapStep] at hstep
      split_ifs at hstep with hblank hbackslash
      rw [← hmunched.ending]
      exact meets_takeToken (l := { l with input, line := l.line + gap.count '\n'.toUInt8 })
        hhead (Bool.eq_false_iff.2 hblank) hbackslash
  · rw [if_neg hexcess]
    obtain ⟨after, heq, htight⟩ := hleaves.exists_backslash hexcess hstop
    have hprecedes : Precedes gap ('\\'.toUInt8 :: after) :=
      .gap hgap htight (by rw [List.head?_cons]; decide)
    rw [heq]
    let m : Lexer := { l with input, line := l.line + gap.count '\n'.toUInt8 }
    show Meets l.input.ending (gap ++ '\\'.toUInt8 :: after)
      ({ kind := .error, skipped := gap, bytes := (gap ++ left).drop gap.length },
        m.fault .badContinuation)
    cases herror : m.status.isError with
    | false =>
      refine .inl ⟨_, rfl, hprecedes, ?_⟩
      rw [fault_of_not_isError herror]
      exact .backslash
    | true =>
      have hok : l.input.status = .ok := Input.status_of_rest_ne_nil fun hnil => by
        rw [hmunched.rest, List.append_assoc, heq] at hnil
        exact List.cons_ne_nil _ _ (List.append_eq_nil_iff.1 hnil).2
      obtain ⟨⟨hend, hstatus⟩, -, hrest⟩ := stops_of_munched hmunched hok herror
      rw [hrest, List.append_nil] at heq
      rw [fault_of_isError herror]
      exact .inr ⟨⟨hend, hstatus, rfl⟩, _, rfl, hprecedes, heq ▸ hleaves.newline_notMem,
        .inr ⟨[], _, .backslash⟩⟩

theorem finds_scanToken (hend : l.input.ending = .endOfInput) : Finds l.input.rest l.scanToken :=
  (meets_scanToken l).finds hend

/-! ## Wherever a token begins -/

/-- Where a token is looked for, and not a change of level. -/
theorem finds_scan {blanks : Bytes} {l' : Lexer} (hend : l.input.ending = .endOfInput)
    (hbegin : l.beginLine = (blanks, none, l')) (hnext : l'.indentation.next? = none) :
    Finds l.input.rest l.scan := by
  have hbegins := begins_of_eq hbegin
  have hend' : l'.input.ending = .endOfInput := hbegins.ending.trans hend
  have hstatus : l'.status.isError = false := isError_of_ending hend'
  have hscan : l.scan =
      ({ l'.scanToken.1 with skipped := blanks ++ l'.scanToken.1.skipped }, l'.scanToken.2) := by
    rw [scan, hbegin]
    simp only [hstatus, Bool.false_eq_true, if_false, hnext]
  rw [hscan, hbegins.rest]
  exact (((meets_scanToken l').append (hbegins.gap hstatus)).finds hend')

/-- Tokens are longest matches: on the way through a text, by any reads and any
    calls, wherever no error was met and a token is looked for after the space,
    the comment and the continued lines in front of it, what is handed out is the
    longest match that the next byte of the text allows; and without an error, the
    next token is looked for behind it. -/
theorem tokens_longest {source : Source} (hsource : source.Delivers bs) (options : Options)
    {calls : List Call} (hcalls : .interrupt ∉ calls) :
    let l := ((History.start source options).calls calls).lexer
    ∀ blanks l', l.latched = false → l.beginLine = (blanks, none, l') →
      l'.indentation.next? = none →
      l.input.rest <:+ bs ∧ Finds l.input.rest l.scan ∧
        (l.get.1.kind = l.scan.1.kind ∧ l.get.1.text = l.scan.1.text ∧
          l.get.2.status = l.scan.2.status) ∧
        (l.get.1.kind ≠ .error →
          l.input.rest = l.scan.1.skipped ++ l.scan.1.bytes ++ l.get.2.input.rest) := by
  intro l blanks l' hlatched hbegin hnext
  have hthrough : Through bs l := through_calls hsource options hcalls
  refine ⟨hthrough.rest hlatched, finds_scan (hthrough.ending hlatched) hbegin hnext, ?_, ?_⟩
  · rw [get_eq hlatched]
    exact ⟨rfl, rfl, rfl⟩
  · rw [get_eq hlatched]
    exact fun herror => ((scans_scan l).accounts herror).rest

/-- The text `x=`, a backslash that ends a line, ` 0.5e+7f`, line by line, after two
    tokens of it. -/
theorem tokens_longest_of_number :
    let bs := Bytes.ofString "x=\\\n 0.5e+7f"
    let l := ((History.start (.ofLines bs) {}).calls [.get, .get]).lexer
    (Source.ofLines bs).Delivers bs ∧ Call.interrupt ∉ [Call.get, Call.get] ∧
      l.latched = false ∧ l.beginLine = ([], none, l) ∧ l.indentation.next? = none ∧
      l.get.1 = { kind := .number, text := "0.5e+7", line := 2 } ∧
      Finds l.input.rest l.scan := by
  intro bs l
  have hlatched : l.latched = false := by decide +kernel
  have hbegin : l.beginLine = ([], none, l) := by decide +kernel
  have hnext : l.indentation.next? = none := by decide +kernel
  have hcalls : Call.interrupt ∉ [Call.get, Call.get] := by decide
  have hsource := Source.delivers_ofLines bs
  exact ⟨hsource, hcalls, hlatched, hbegin, hnext, by decide +kernel,
    (tokens_longest hsource {} hcalls [] l hlatched hbegin hnext).2.1⟩

end ScriptCore.Lexer
