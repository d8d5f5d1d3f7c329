import ScriptCore.Proofs.Lexer.LineNumbers

/-!
# Dialogues

A text that comes line by line, with prompts, is a dialogue: a prompt is shown, a line
is read, and its tokens are told before the next line is asked for.

* `Source.ofLinesUntil`: the lines of a text, and its end as often as it is read.
* `Reading`: where a dialogue is after some reads. What a lexer does with its input
  keeps this up to the end (`stable_converses`).
* `Poised`: a lexer asks for a line only where one is to begin (`Poised.get`).
* `prompts_match_reads`: what follows for all calls.
-/

namespace ScriptCore.Lexer

open Token (Kind)

variable {l l' : Lexer} {b : UInt8} {bs text : Bytes} {p q : String} {m n : Nat} {i : Input}
  {h : History}

/-! ## Lines that are asked for -/

/-- A text that comes line by line, where the first `m` reads at its end are answers too,
    so that they can be counted. -/
def Source.ofLinesUntil (bs : Bytes) (m : Nat) : Source :=
  { ofLines bs with reads := (ofLines bs).reads ++ List.replicate m .endOfInput }

/-- The prompts for `n` lines. -/
def prompted (p q : String) : Nat → List String
  | 0 => []
  | n + 1 => p :: List.replicate n q

theorem prompted_succ (p q : String) (n : Nat) :
    prompted p q (n + 1) = prompted p q n ++ [if n = 0 then p else q] := by
  cases n with
  | zero => rfl
  | succ n => rw [prompted, prompted, List.replicate_succ', if_neg n.succ_ne_zero]; rfl

theorem Source.text_of_reads {s : Source}
    (h : s.reads = (lines bs).map .bytes ++ List.replicate m .endOfInput) : s.text = bs := by
  have hends : (List.replicate m Read.endOfInput).flatMap Read.content = [] :=
    List.flatMap_eq_nil_iff.2 fun r hr => by rw [List.eq_of_mem_replicate hr]; rfl
  rw [text, h, List.flatMap_append, hends, List.append_nil]
  exact text_ofLines bs

theorem Source.eq_nil_of_lines (h : lines (b :: text) = [b] :: lines text)
    (hb : b ≠ '\n'.toUInt8) : text = [] := by
  rw [lines_cons_of_ne hb] at h
  cases hlines : lines text with
  | nil => rw [← flatten_lines text, hlines]; rfl
  | cons line ls =>
    have hline : line ≠ [] := ne_nil_of_mem_lines (hlines ▸ List.mem_cons_self)
    rw [hlines] at h
    exact absurd (List.cons.inj (List.cons.inj h).1).2 hline

namespace Input

/-- Where a dialogue on a text is after `n` reads, when the bytes of `text` are still to
    be read: what is at hand is a line or the rest of one, and a prompt was shown for
    each line that was read. -/
structure Reading (bs : Bytes) (m : Nat) (p q : String) (n : Nat) (text : Bytes) (i : Input) :
    Prop where
  status : i.status = .ok
  interrupted : i.source.interrupted = false
  reads : i.source.reads = (Source.lines text).map .bytes ++ List.replicate m .endOfInput
  left : Source.lines text = (Source.lines bs).drop n
  le : n ≤ (Source.lines bs).length
  line : i.pending = [] ∨ Source.lines (i.pending ++ text) = i.pending :: Source.lines text
  last : i.pending = [] → i.midLine = true → text = []
  /-- Of the lines that were read all but the last one are taken, and that one too where
      nothing is left of it but its newline was. -/
  count : n + (i.pending ++ text).count '\n'.toUInt8 =
    bs.count '\n'.toUInt8 + if i.pending = [] ∧ i.midLine = false then 0 else 1
  prompts : i.prompts = { first := some p, later := some q }
  due : i.due = some (if n = 0 then p else q)
  shown : i.shown = prompted p q n

/-- How a dialogue on a text stands: it goes on, or has come to the end of the text, or
    something was wrong with the text. -/
inductive Converses (bs : Bytes) (m : Nat) (p q : String) (i : Input) : Prop
  | reading {n : Nat} {text : Bytes} : Reading bs m p q n text i → Converses bs m p q i
  | ended : i.status = .endOfInput →
    i.shown = p :: List.replicate (bs.count '\n'.toUInt8) q ++ ["\n"] → Converses bs m p q i
  | malformed (f : Fault) : i.status = .malformed f → Converses bs m p q i

theorem reading_start (bs : Bytes) (m : Nat) (p q : String) : Reading bs m p q 0 bs
    { source := .ofLinesUntil bs m, prompts := { first := some p, later := some q } } where
  status := rfl
  interrupted := rfl
  reads := rfl
  left := rfl
  le := Nat.zero_le _
  line := .inl rfl
  last := fun _ => nofun
  count := Nat.zero_add _
  prompts := rfl
  due := rfl
  shown := rfl

theorem Reading.lines_eq (h : Reading bs m p q n text i) {rest : Bytes} (hp : i.pending = b :: rest) :
    Source.lines (b :: (rest ++ text)) = (b :: rest) :: Source.lines text := by
  have hline := h.line.resolve_left fun hnil => List.cons_ne_nil b rest (hp.symm.trans hnil)
  rwa [hp] at hline

/-- A newline is the last byte of its line. -/
theorem Reading.eq_nil_of_newline (h : Reading bs m p q n text i) {rest : Bytes}
    (hp : i.pending = '\n'.toUInt8 :: rest) : rest = [] := by
  have hline := h.lines_eq hp
  rw [Source.lines, if_pos rfl] at hline
  exact (List.cons.inj (List.cons.inj hline).1).2.symm

/-- A byte that is taken is one of the line at hand. -/
theorem Reading.advance (h : Reading bs m p q n text i) (hb : i.head? = some b) :
    Reading bs m p q n text i.advance := by
  obtain ⟨-, rest, hp⟩ := exists_pending_of_head? hb
  have hcount := h.count
  rw [hp, if_neg fun hnil => List.cons_ne_nil b rest hnil.1, List.cons_append,
    List.count_cons] at hcount
  rw [advance_eq hp]
  exact {
    h with
    line := Source.lines_of_lines_cons (h.lines_eq hp)
    last := fun hrest hb => by
      obtain rfl : rest = [] := hrest
      exact Source.eq_nil_of_lines (h.lines_eq hp) (of_decide_eq_true hb)
    count := by
      by_cases hb : b = '\n'.toUInt8
      · subst hb
        obtain rfl := h.eq_nil_of_newline hp
        simp at hcount ⊢
        omega
      · simpa [hb] using hcount }

theorem Reading.showPrompt (h : Reading bs m p q n text i) (hline : i.midLine = false) :
    i.showPrompt = { i with shown := prompted p q (n + 1), due := some q } := by
  rw [Input.showPrompt, hline, if_neg Bool.false_ne_true, h.due]
  simp only [h.prompts, h.shown, prompted_succ]

/-- A line is asked for, and the next one comes. -/
theorem Reading.fill_line (h : Reading bs m p q n text i) (hp : i.pending = []) {line : Bytes}
    {ls : List Bytes} (hlines : Source.lines text = line :: ls) :
    Reading bs m p q (n + 1) ls.flatten i.fill := by
  have hnil : line ≠ [] := Source.ne_nil_of_mem_lines (hlines ▸ List.mem_cons_self)
  obtain ⟨b, rest, rfl⟩ := List.exists_cons_of_ne_nil hnil
  have hline : i.midLine = false := Bool.eq_false_iff.2 fun hmid => by
    rw [h.last hp hmid] at hlines
    cases hlines
  have hlater : Source.lines ls.flatten = ls := Source.lines_flatten_of_cons hlines
  have htext : b :: rest ++ ls.flatten = text := by
    rw [← List.flatten_cons, ← hlines, Source.flatten_lines]
  have hnext : i.source.next = (.bytes (b :: rest), { i.source with
      reads := (Source.lines ls.flatten).map .bytes ++ List.replicate m .endOfInput }) := by
    simp [Source.next, h.interrupted, h.reads, hlines, hlater]
  have hcount := h.count
  rw [hp, List.nil_append, if_pos ⟨rfl, hline⟩] at hcount
  rw [fill_of_nil h.status hp, hnext, h.showPrompt hline]
  exact {
    status := h.status
    interrupted := h.interrupted
    reads := rfl
    left := by rw [hlater, ← List.tail_drop, ← h.left, hlines, List.tail_cons]
    le := by
      have hlength := congrArg List.length (h.left.symm.trans hlines)
      rw [List.length_drop, List.length_cons] at hlength
      omega
    line := .inr (by
      show Source.lines (b :: rest ++ ls.flatten) = _
      rw [htext, hlines, hlater]
      rfl)
    last := fun hnone => absurd hnone hnil
    count := by
      show n + 1 + (b :: rest ++ ls.flatten).count '\n'.toUInt8 = _
      rw [if_neg fun hnone => hnil hnone.1, htext]
      omega
    prompts := h.prompts
    due := rfl
    shown := rfl }

/-- A line is asked for, and the end of the text comes. -/
theorem Reading.fill_end (h : Reading bs m p q n [] i) (hp : i.pending = []) :
    Converses bs m p q i.fill := by
  have hend : i.source.next.1 = .endOfInput := by
    rw [Source.next, h.interrupted, if_neg Bool.false_ne_true, h.reads]
    cases m <;> rfl
  have hcount := h.count
  rw [hp] at hcount
  rw [fill_of_nil h.status hp, hend]
  cases hline : i.midLine with
  | true =>
    -- the last line has no newline, and no prompt is shown behind it
    obtain rfl : n = bs.count '\n'.toUInt8 + 1 := by simpa [hline] using hcount
    have hshow : i.showPrompt = i := if_pos hline
    refine .ended rfl ?_
    rw [hshow, receive, stop]
    simp only [h.due, h.shown]
    rfl
  | false =>
    obtain rfl : n = bs.count '\n'.toUInt8 := by simpa [hline] using hcount
    rw [h.showPrompt hline]
    exact .ended rfl rfl

theorem Reading.fill (h : Reading bs m p q n text i) : Converses bs m p q i.fill := by
  cases hp : i.pending with
  | cons b rest =>
    rw [fill_of_ne_nil (by simp [hp])]
    exact .reading h
  | nil =>
    cases hlines : Source.lines text with
    | nil =>
      obtain rfl : text = [] := by
        rw [← Source.flatten_lines text, hlines]
        rfl
      exact h.fill_end hp
    | cons line ls => exact .reading (h.fill_line hp hlines)

/-- What a lexer does with its input keeps a dialogue up. -/
theorem stable_converses (bs : Bytes) (m : Nat) (p q : String) : Stable (Converses bs m p q) where
  fill := fun i hi => by
    cases hi with
    | reading h => exact h.fill
    | ended hs hshown =>
      rw [fill_of_ne_ok (by rw [hs]; exact nofun)]
      exact .ended hs hshown
    | malformed f hs =>
      rw [fill_of_ne_ok (by rw [hs]; exact nofun)]
      exact .malformed f hs
  advance := fun i b hb hi => by
    have hok := (exists_pending_of_head? hb).1
    cases hi with
    | reading h => exact .reading (h.advance hb)
    | ended hs _ => cases hok.symm.trans hs
    | malformed f hs => cases hok.symm.trans hs
  fault := fun i f _ _ => .malformed f rfl

/-! ## Inside of a line -/

/-- Whether an input that goes on is inside of a line: more of it is at hand, or the byte
    taken last did not end it. -/
def Inside (i : Input) : Prop :=
  i.status = .ok → i.pending ≠ [] ∨ i.midLine = true

/-- Where a pattern goes on, and the next byte was looked at. -/
theorem Munched.inside {σ : Type} {P : Pattern σ} {s s' : σ} {i' : Input} (h : Munched P s i bs s' i')
    (hc : P.isComplete s' = false) : i'.Inside := by
  intro hok
  have hrest : i'.rest ≠ [] := fun hnil => by
    have hstatus := h.status
    rw [if_neg (by simp [hc, hnil]), hok] at hstatus
    exact i.ending_ne_ok hstatus.symm
  obtain ⟨b, rest, hrest⟩ := List.exists_cons_of_ne_nil hrest
  have hhead := h.head hc
  rw [hrest, List.head?_cons] at hhead
  obtain ⟨-, rest, hp⟩ := exists_pending_of_head? hhead
  exact .inl (hp ▸ List.cons_ne_nil b rest)

theorem inside_advance (hb : i.head? = some b) (hline : b ≠ '\n'.toUInt8) : i.advance.Inside := by
  obtain ⟨-, rest, hp⟩ := exists_pending_of_head? hb
  rw [advance_eq hp]
  exact fun _ => .inr (decide_eq_true hline)

/-- A string that is closed ends with a quote. -/
theorem inside_munch_string {s : StringPlace} (hs : s ≠ .closed)
    (hclosed : (munch stringPattern s i).2.1 = .closed) : (munch stringPattern s i).2.2.Inside := by
  fun_induction munch stringPattern s i with
  | case1 => exact absurd hclosed hs
  | case2 => exact absurd hclosed hs
  | case3 => exact absurd hclosed hs
  | case4 s i _ b hb s' hstep r ih =>
    by_cases hs' : s' = .closed
    · subst hs'
      have hquote := eq_quote_of_closed hstep
      have hr : r = ([], .closed, i.fill.advance) := munch_of_isComplete rfl
      rw [hr]
      exact inside_advance hb (by rw [hquote]; decide)
    · exact ih hs' hclosed

end Input

/-- Whether a lexer that goes on asks for another line exactly where a line is to begin. -/
def Poised (l : Lexer) : Prop :=
  l.status = .ok → (l.lineStart = true ↔ l.input.pending = [] ∧ l.input.midLine = false)

theorem Input.Inside.poised (h : l.input.Inside) (hstart : l.lineStart = false) : Poised l := by
  intro hok
  refine iff_of_false (by rw [hstart]; decide) fun hnone => ?_
  rcases h hok with hpending | hline
  · exact hpending hnone.1
  · exact absurd (hline.symm.trans hnone.2) (by decide)

theorem poised_of_isError (h : l.status.isError = true) : Poised l := fun hok => by
  rw [hok] at h
  cases h

theorem poised_take {σ : Type} (hstart : l.lineStart = false) (b : UInt8) (P : Pattern σ) (s : σ)
    (verdict : σ → Kind ⊕ Fault)
    (hinside : ∀ kind, verdict (l.input.advance.munch P s).2.1 = .inl kind →
      (l.input.advance.munch P s).2.2.Inside) : Poised (l.take b P s verdict).2 := by
  simp only [take]
  cases hv : verdict (l.input.advance.munch P s).2.1 with
  | inl kind => exact (hinside kind hv).poised hstart
  | inr f => exact poised_of_isError (isError_fault _ f)

theorem poised_endLine (h : l.input.Converses bs m p q) (hb : l.input.head? = some '\n'.toUInt8) :
    Poised (l.endLine '\n'.toUInt8).2 := by
  obtain ⟨hok, rest, hp⟩ := Input.exists_pending_of_head? hb
  cases h with
  | reading h =>
    obtain rfl := h.eq_nil_of_newline hp
    refine fun _ => iff_of_true rfl ?_
    show l.input.advance.pending = [] ∧ l.input.advance.midLine = false
    rw [Input.advance_eq hp]
    exact ⟨rfl, rfl⟩
  | ended hs _ => cases hok.symm.trans hs
  | malformed f hs => cases hok.symm.trans hs

theorem poised_takeComment (h : l.input.Converses bs m p q)
    (hb : l.input.head? = some '#'.toUInt8) : Poised (l.takeComment '#'.toUInt8).2 := by
  obtain ⟨taken, s', input, hmunch, hmunched⟩ :=
    Input.exists_munched commentPattern () l.advance.obeyComment.input
  obtain ⟨-, hline⟩ := comment_of_munched hmunched
  have hinput : input.Converses bs m p q := by
    have hmunch' := hmunch
    rw [obeyComment_eq] at hmunch'
    have hstable := Input.stable_converses bs m p q
    have hinput := hstable.munch commentPattern () (hstable.advance l.input _ hb h)
    rwa [show Input.munch commentPattern () l.input.advance = _ from hmunch'] at hinput
  simp only [takeComment, hmunch]
  cases hhead : input.head? with
  | none => exact fun hok => absurd hok (status_ne_ok_of_munched hmunched rfl hhead)
  | some c =>
    obtain rfl := hline c ((hmunched.head rfl).symm.trans hhead)
    exact poised_endLine hinput hhead

theorem poised_takeToken (h : l.input.Converses bs m p q) (hstart : l.lineStart = false)
    (hb : l.input.head? = some b) : Poised (l.takeToken b).2 := by
  -- where a pattern goes on for good, the byte after it was looked at
  have hmunch {σ : Type} (P : Pattern σ) (s : σ) (hc : ∀ s', P.isComplete s' = false) :
      (l.input.advance.munch P s).2.2.Inside := (Input.munched P s l.input.advance).inside (hc _)
  rw [takeToken]
  split_ifs with hhash hname hnewline hzero hdigit hquote
  · subst hhash
    exact poised_takeComment h hb
  · exact poised_take hstart b _ _ _ fun _ _ => hmunch _ _ fun _ => rfl
  · subst hnewline
    exact poised_endLine h hb
  · exact poised_take hstart b _ _ _ fun _ _ => hmunch _ _ fun _ => rfl
  · exact poised_take hstart b _ _ _ fun _ _ => hmunch _ _ fun _ => rfl
  · refine poised_take hstart b _ _ _ fun kind hv => Input.inside_munch_string (by decide) ?_
    by_contra hopen
    rw [if_neg hopen] at hv
    cases hv
  · exact (Input.inside_advance hb hnewline).poised (l := l.advance) hstart

theorem poised_scanToken (h : l.input.Converses bs m p q) (hstart : l.lineStart = false) :
    Poised l.scanToken.2 := by
  obtain ⟨gap, place, input, hmunch, hmunched⟩ :=
    Input.exists_munched gapPattern .between l.input
  have hinput := (Input.stable_converses bs m p q).munch gapPattern .between h
  rw [hmunch] at hinput
  simp only [scanToken, hmunch]
  split_ifs with hexcess
  · obtain rfl := eq_between_of_excess hmunched.run hexcess
    cases hhead : input.head? with
    | none => exact fun hok => absurd hok (status_ne_ok_of_munched hmunched rfl hhead)
    | some b => exact poised_takeToken (l := { l with input, line := _ }) hinput hstart hhead
  · exact poised_of_isError (isError_fault _ _)

theorem Poised.beginLine (hpoised : Poised l) : Poised l.beginLine.2.2 := by
  rw [Lexer.beginLine]
  split_ifs with hstart
  · have hinside := (Input.munched (columnPattern l.tabSize) 0 l.input).inside rfl
    simp only
    split_ifs
    · exact hinside.poised rfl
    · exact hinside.poised rfl
  · exact hpoised

theorem Poised.scan (hpoised : Poised l) (h : l.input.Converses bs m p q) :
    Poised l.scan.2 := by
  obtain ⟨blanks, f, l', hbegin⟩ : ∃ blanks f l', l.beginLine = (blanks, f, l') := ⟨_, _, _, rfl⟩
  have hpoised' := hpoised.beginLine
  have hinput := (Input.stable_converses bs m p q).beginLine h
  rw [hbegin] at hpoised' hinput
  rw [Lexer.scan, hbegin]
  cases f with
  | some f => exact poised_of_isError (isError_fault _ f)
  | none =>
    simp only
    split_ifs
    · exact hpoised'
    · cases l'.indentation.next? with
      | some r => exact hpoised'
      | none => exact poised_scanToken hinput (begins_of_eq hbegin).lineStart

theorem Poised.get (hpoised : Poised l) (h : l.input.Converses bs m p q) : Poised l.get.2 := by
  rw [Lexer.get]
  split_ifs
  · exact hpoised
  · exact hpoised.scan h

/-! ## Every use of a lexer -/

/-- What holds on the way through a dialogue. -/
structure Engaged (bs : Bytes) (m : Nat) (p q : String) (h : History) : Prop where
  input : h.lexer.input.Converses bs m p q
  poised : Poised h.lexer
  numbered : Numbered bs h

theorem engaged_start (bs : Bytes) (m : Nat) (p q : String) (options : Options) :
    Engaged bs m p q (.start (.ofLinesUntil bs m)
      { options with prompts := { first := some p, later := some q } }) where
  input := .reading (Input.reading_start bs m p q)
  poised := fun _ => iff_of_true rfl ⟨rfl, rfl⟩
  numbered := by
    have htext : (Source.ofLinesUntil bs m).text = bs := Source.text_of_reads rfl
    have hnumbered := numbered_start (.ofLinesUntil bs m)
      { options with prompts := { first := some p, later := some q } }
    rwa [htext] at hnumbered

theorem Input.Converses.status_ne_interrupted (h : i.Converses bs m p q) :
    i.status ≠ .interrupted := by
  cases h with
  | reading h => rw [h.status]; exact nofun
  | ended hs _ => rw [hs]; exact nofun
  | malformed f hs => rw [hs]; exact nofun

theorem Engaged.call (hengaged : Engaged bs m p q h) {c : Call} (hc : c ≠ .interrupt) :
    Engaged bs m p q (h.call c) := by
  have hinput := (Input.stable_converses bs m p q).get hengaged.input
  have hpoised := hengaged.poised.get hengaged.input
  cases c with
  | get => exact ⟨hinput, hpoised, hengaged.numbered.call nofun⟩
  | next =>
    rw [History.call, next?_eq]
    split_ifs
    · exact hengaged
    · exact ⟨hinput, hpoised, hengaged.numbered.receive _⟩
  | recover =>
    have hnone : h.lexer.recover? = none := if_neg hengaged.input.status_ne_interrupted
    rw [History.call, hnone]
    exact hengaged
  | interrupt => exact absurd rfl hc

/-- A lexer that goes on is on the line that was read last. -/
theorem Engaged.line_eq (hengaged : Engaged bs m p q h) (hlatched : h.lexer.latched = false)
    (hreading : h.lexer.input.Reading bs m p q n text) : h.lexer.line = n := by
  obtain ⟨before, hbs, hline⟩ := hengaged.numbered.counted hlatched
  have hcount := hreading.count
  have hpoised := hengaged.poised hreading.status
  have hsplit : bs.count '\n'.toUInt8 =
      before.count '\n'.toUInt8 + (h.lexer.input.pending ++ text).count '\n'.toUInt8 := by
    rw [hbs, Input.content, Source.text_of_reads hreading.reads]
    exact List.count_append
  rw [hsplit] at hcount
  cases hstart : h.lexer.lineStart with
  | true =>
    rw [if_pos (hpoised.1 hstart)] at hcount
    rw [hstart, Bool.toNat_true] at hline
    omega
  | false =>
    rw [if_neg (mt hpoised.2 (Bool.eq_false_iff.1 hstart))] at hcount
    rw [hstart, Bool.toNat_false] at hline
    omega

/-- Where reading goes on, as many lines were read as were begun, each after a prompt. -/
theorem Engaged.of_ok (hengaged : Engaged bs m p q h) (hlatched : h.lexer.latched = false)
    (hok : h.lexer.status = .ok) (hone : 1 ≤ h.lexer.line) :
    h.lexer.line ≤ (Source.lines bs).length ∧
      h.lexer.input.source.reads = (Source.ofLinesUntil bs m).reads.drop h.lexer.line ∧
      h.lexer.input.shown = p :: List.replicate (h.lexer.line - 1) q := by
  cases hengaged.input with
  | @reading n text hreading =>
    have hline := hengaged.line_eq hlatched hreading
    have hreads : (Source.ofLinesUntil bs m).reads =
      (Source.lines bs).map .bytes ++ List.replicate m .endOfInput := rfl
    obtain ⟨k, hk⟩ := Nat.exists_eq_add_of_le' hone
    refine ⟨hline ▸ hreading.le, ?_, ?_⟩
    · rw [hline, hreading.reads, hreading.left, List.map_drop, hreads,
        List.drop_append_of_le_length]
      rw [List.length_map]
      exact hreading.le
    · rw [hreading.shown, ← hline, hk]
      rfl
  | ended hs _ => cases hok.symm.trans hs
  | malformed f hs => cases hok.symm.trans hs

theorem Engaged.shown_of_ended (hengaged : Engaged bs m p q h)
    (hended : h.lexer.status = .endOfInput) :
    h.lexer.input.shown = p :: List.replicate (bs.count '\n'.toUInt8) q ++ ["\n"] := by
  cases hengaged.input with
  | reading hreading => cases hended.symm.trans hreading.status
  | ended _ hshown => exact hshown
  | malformed f hs => cases hended.symm.trans hs

theorem line_get (l : Lexer) : l.get.1.line = l.get.2.line := by
  rw [get]
  split_ifs <;> rfl

theorem Gets.latched_later {t : Token} (hgets : Gets l t l') (hlatched : l.latched = false)
    (herror : t.kind ≠ .error) : l'.latched = false :=
  Bool.eq_false_iff.2 fun hl =>
    (hgets.latched_iff.1 hl).elim (Bool.eq_false_iff.1 hlatched) herror

/-- Where reading goes on behind a token, there was no error up to it. -/
theorem Gets.latched_of_ok {t : Token} (hgets : Gets l t l')
    (hl : l.latched = true → l.status.isError = true) (hok : l'.status = .ok) :
    l.latched = false ∧ l'.latched = false := by
  have hlatched := hgets.latched_eq_false hl (by rw [hok]; rfl)
  refine ⟨hlatched, hgets.latched_later hlatched fun hkind => ?_⟩
  have herror := hgets.isError hkind
  rw [hok] at herror
  cases herror

/-- Reading is lazy, and prompts match reads. In a dialogue on the lines of a text, by any
    calls that interrupt nothing, whatever call hands out the next token: where reading
    goes on behind it, as many lines were read as the line of the token tells, and nothing
    else; the first prompt was shown, and the other one for each further line. And where the
    token is an end marker and there was no error, the first prompt was shown, the other
    one for each newline of the text, and a newline. What is shown is what was to be
    written, whether that succeeded or not. -/
theorem prompts_match_reads (bs : Bytes) (m : Nat) (p q : String) (options : Options)
    {calls : List Call} (hcalls : .interrupt ∉ calls) :
    let source := Source.ofLinesUntil bs m
    let h := (History.start source
      { options with prompts := { first := some p, later := some q } }).calls calls
    ∀ c t, (h.call c).events = h.events ++ [.token t] →
      let i := (h.call c).lexer.input
      (i.status = .ok → (1 ≤ t.line ∧ t.line ≤ (Source.lines bs).length) ∧
        i.source.reads = source.reads.drop t.line ∧
        i.shown = p :: List.replicate (t.line - 1) q) ∧
      (t.kind = .endMarker → (∀ t, .token t ∈ h.events → t.kind ≠ .error) →
        i.shown = p :: List.replicate (bs.count '\n'.toUInt8) q ++ ["\n"]) := by
  intro source h c t ht i
  have hengaged : Engaged bs m p q h := History.uninterrupted_induction
    (engaged_start bs m p q options) (fun _ _ hengaged hc => hengaged.call hc) hcalls
  have hc : c ≠ .interrupt := by
    rintro rfl
    simp [History.call] at ht
  have hengaged' := hengaged.call hc
  obtain ⟨rfl, finished, hcall⟩ := eq_get_of_call ht
  have hgets := gets_get h.lexer
  have hline : h.lexer.get.1.line = (h.call c).lexer.line := by
    rw [hcall]
    exact line_get h.lexer
  refine ⟨fun hok => ?_, fun hkind herror => ?_⟩
  · have hok' : h.lexer.get.2.status = .ok := by
      rw [← hok, show i = (h.call c).lexer.input from rfl, hcall]
      rfl
    obtain ⟨hlatched, hlatched'⟩ := hgets.latched_of_ok (isError_of_latched calls) hok'
    obtain ⟨before, -, hbefore⟩ := hengaged.numbered.scan hlatched
    have hone : 1 ≤ h.lexer.get.1.line := by
      rw [get_eq hlatched, hbefore]
      exact Nat.le_add_right 1 _
    have hread := hengaged'.of_ok (by rwa [hcall]) hok (hline ▸ hone)
    rw [← hline] at hread
    exact ⟨⟨hone, hread.1⟩, hread.2⟩
  · have hlatched := hengaged.numbered.latched_eq_false herror
    have hlatched' := hgets.latched_later hlatched (by rw [hkind]; decide)
    have hrest := hgets.atRest_of_endMarker hkind hlatched
    refine hengaged'.shown_of_ended ?_
    rw [hcall]
    exact (hrest.ended_of_not_latched hlatched').1

/-- Two lines, of which the second one has no newline: behind the first one it is not asked
    for yet, and behind it no prompt is shown. -/
theorem prompts_match_reads_of_two_lines :
    let bs := Bytes.ofString "a\nb"
    let source := Source.ofLinesUntil bs 2
    let start := History.start source { prompts := { first := some ">>> ", later := some "... " } }
    let h := start.calls [.get]
    let h' := start.calls [.get, .next, .get]
    (h.call .next).events = h.events ++ [.token ⟨.newline, "", 1⟩] ∧
      (h.call .next).lexer.status = .ok ∧
      (h.call .next).lexer.input.source.reads = source.reads.drop 1 ∧
      (h.call .next).lexer.input.shown = [">>> "] ∧
      (h'.call .next).events = h'.events ++ [.token ⟨.endMarker, "", 2⟩] ∧
      (∀ t, .token t ∈ h'.events → t.kind ≠ .error) ∧
      (h'.call .next).lexer.input.shown = [">>> ", "... ", "\n"] := by
  intro bs source start h h'
  have hnewline : (h.call .next).events = h.events ++ [.token ⟨.newline, "", 1⟩] := by
    decide +kernel
  have hok : (h.call .next).lexer.status = .ok := by decide +kernel
  have hend : (h'.call .next).events = h'.events ++ [.token ⟨.endMarker, "", 2⟩] := by
    decide +kernel
  have hevents : h'.events = [.token ⟨.name, "a", 1⟩, .token ⟨.newline, "", 1⟩,
      .token ⟨.name, "b", 2⟩] := by decide +kernel
  have herror : ∀ t, .token t ∈ h'.events → t.kind ≠ .error := by simp [hevents]
  have hcalls : Call.interrupt ∉ [Call.get] := by decide
  have hcalls' : Call.interrupt ∉ [Call.get, .next, .get] := by decide
  have hline := (prompts_match_reads bs 2 ">>> " "... " {} hcalls .next _ hnewline).1 hok
  have hlast := (prompts_match_reads bs 2 ">>> " "... " {} hcalls' .next _ hend).2 rfl herror
  exact ⟨hnewline, hok, hline.2.1, hline.2.2, hend, herror, hlast⟩

end ScriptCore.Lexer
