import ScriptCore.Proofs.Lexer.Agreement
import ScriptCore.Proofs.Lexer.Indentation

/-!
# Recovery

A lexer that recovers from an interrupted read begins anew: nothing that was read
is lost, and it goes on as a new lexer on what the source has still to bring, with
the tab size of the last comment that set one.

* `Input.Stable`: what an input keeps, whatever a lexer does with it. An interrupted
  read leaves nothing at hand (`stable_drained`).
* `Lexer.after`: a lexer later in a dialogue. It does the same, some lines later
  (`get_after`, `calls_after`).
* `recover_afresh`: what follows for all calls on all sources.
-/

namespace ScriptCore.Lexer

variable {l l' : Lexer} {b : UInt8} {h : History}

/-! ## What an input keeps -/

/-- Whether a property of an input is kept by all that a lexer does with it between
    recoveries: by reading, by taking a byte and by noting a fault. -/
structure Input.Stable (P : Input → Prop) : Prop where
  fill : ∀ i, P i → P i.fill
  advance : ∀ i b, i.head? = some b → P i → P i.advance
  fault : ∀ i f, i.status.isError = false → P i → P { i with status := .malformed f }

section Stable

variable {P : Input → Prop} (hP : Input.Stable P)
include hP

theorem Input.Stable.munch {σ : Type} (p : Pattern σ) (s : σ) {i : Input} (hi : P i) :
    P (munch p s i).2.2 :=
  munch_induction hP.fill hP.advance p s hi

theorem Input.Stable.noteFault (hl : P l.input) (f : Fault) : P (l.fault f).input := by
  rw [Lexer.fault]
  split_ifs with herror
  · exact hl
  · exact hP.fault l.input f (Bool.eq_false_iff.2 herror) hl

theorem Input.Stable.take {σ : Type} (hl : P l.input) (hb : l.input.head? = some b)
    (p : Pattern σ) (s : σ) (verdict : σ → Token.Kind ⊕ Fault) :
    P (l.take b p s verdict).2.input := by
  have hmunch := hP.munch p s (hP.advance l.input b hb hl)
  simp only [Lexer.take]
  cases verdict (Input.munch p s l.input.advance).2.1 with
  | inl kind => exact hmunch
  | inr f => exact hP.noteFault (l := { l with input := _ }) hmunch f

theorem Input.Stable.takeComment (hl : P l.input) (hb : l.input.head? = some b) :
    P (l.takeComment b).2.input := by
  have hmunch := hP.munch commentPattern () (hP.advance l.input b hb hl)
  simp only [Lexer.takeComment, obeyComment_eq]
  split
  · next c hc => exact hP.advance _ c hc hmunch
  · exact hmunch

theorem Input.Stable.takeToken (hl : P l.input) (hb : l.input.head? = some b) :
    P (l.takeToken b).2.input := by
  rw [Lexer.takeToken]
  split_ifs
  · exact hP.takeComment hl hb
  · exact hP.take hl hb _ _ _
  · exact hP.advance l.input b hb hl
  · exact hP.take hl hb _ _ _
  · exact hP.take hl hb _ _ _
  · exact hP.take hl hb _ _ _
  · exact hP.advance l.input b hb hl

theorem Input.Stable.scanToken (hl : P l.input) : P l.scanToken.2.input := by
  obtain ⟨gap, place, input, hmunch⟩ : ∃ gap place input,
    l.input.munch gapPattern .between = (gap, place, input) := ⟨_, _, _, rfl⟩
  have hinput := hP.munch gapPattern .between hl
  rw [hmunch] at hinput
  simp only [Lexer.scanToken, hmunch]
  split_ifs
  · cases hhead : input.head? with
    | none => exact hinput
    | some b => exact hP.takeToken (l := { l with input, line := _ }) hinput hhead
  · exact hP.noteFault (l := { l with input, line := _ }) hinput _

theorem Input.Stable.beginLine (hl : P l.input) : P l.beginLine.2.2.input := by
  have hmunch := hP.munch (columnPattern l.tabSize) 0 hl
  rw [Lexer.beginLine]
  split_ifs
  · simp only
    split_ifs
    · exact hmunch
    · exact hmunch
  · exact hl

theorem Input.Stable.scan (hl : P l.input) : P l.scan.2.input := by
  obtain ⟨blanks, f, m, hbegin⟩ : ∃ blanks f m, l.beginLine = (blanks, f, m) := ⟨_, _, _, rfl⟩
  have hm := hP.beginLine hl
  rw [hbegin] at hm
  rw [Lexer.scan, hbegin]
  cases f with
  | some f => exact hP.noteFault hm f
  | none =>
    simp only
    split_ifs
    · exact hm
    · cases m.indentation.next? with
      | some r => exact hm
      | none => exact hP.scanToken hm

theorem Input.Stable.get (hl : P l.input) : P l.get.2.input := by
  rw [Lexer.get]
  split_ifs
  · exact hl
  · exact hP.scan hl

/-- What is kept by recovering and by interrupting too is kept by each call. -/
theorem Input.Stable.call (hrestart : ∀ i, i.status = .interrupted → P i → P i.restart)
    (hinterrupt : ∀ i, P i → P { i with source := i.source.interrupt })
    (hh : P h.lexer.input) (c : Call) : P (h.call c).lexer.input := by
  cases c with
  | get => exact hP.get hh
  | next =>
    rw [History.call, Lexer.next?_eq]
    split_ifs
    · exact hh
    · exact hP.get hh
  | recover =>
    rw [History.call, Lexer.recover?]
    split_ifs with hs
    · exact hrestart _ hs hh
    · exact hh
  | interrupt => exact hinterrupt _ hh

theorem Input.Stable.calls (hrestart : ∀ i, i.status = .interrupted → P i → P i.restart)
    (hinterrupt : ∀ i, P i → P { i with source := i.source.interrupt })
    (hh : P h.lexer.input) (calls : List Call) : P (h.calls calls).lexer.input := by
  induction calls generalizing h with
  | nil => exact hh
  | cons c calls ih => exact ih (hP.call hrestart hinterrupt hh c)

end Stable

namespace Input

variable {i : Input}

theorem prompts_fill (i : Input) : i.fill.prompts = i.prompts := by
  have hshow : i.showPrompt.prompts = i.prompts := by
    unfold showPrompt
    split_ifs
    · rfl
    · split <;> rfl
  have hreceive : ∀ (j : Input) (r : Read), (j.receive r).prompts = j.prompts := fun j r => by
    fun_cases receive j r <;> rfl
  unfold fill
  split
  · exact (hreceive _ _).trans hshow
  · rfl

theorem stable_prompts (prompts : Prompts) : Stable (·.prompts = prompts) where
  fill := fun i hi => i.prompts_fill.trans hi
  advance := fun i _ _ hi => by
    unfold advance
    split
    · exact hi
    · exact hi
  fault := fun _ _ _ hi => hi

/-- Whether nothing is at hand after an interrupted read. -/
def Drained (i : Input) : Prop :=
  i.status = .interrupted → i.pending = []

theorem Drained.fill (h : i.Drained) : i.fill.Drained := by
  unfold Input.fill
  split
  · next hs hp =>
    have hshow : i.showPrompt.pending = [] := (pending_showPrompt i).trans hp
    have hstatus : i.showPrompt.status = .ok := (status_showPrompt i).trans hs
    match i.source.next with
    | (.bytes [], _) => exact fun _ => hshow
    | (.bytes (b :: bs), _) => exact fun hs' => absurd (hstatus.symm.trans hs') nofun
    | (.endOfInput, _) => exact fun _ => hshow
    | (.interrupted, _) => exact fun _ => hshow
    | (.failed _, _) => exact fun _ => hshow
  · exact h

/-- A read is asked for only where nothing is at hand. -/
theorem stable_drained : Stable Drained where
  fill := fun _ => Drained.fill
  advance := fun i b hb _ hs => by
    rw [status_advance, (exists_pending_of_head? hb).1] at hs
    cases hs
  fault := fun _ _ _ _ hs => nomatch hs

end Input

/-! ## What a lexer keeps -/

theorem TabDirective.bounds_of_parse? {comment : Bytes} {n : Nat}
    (h : parse? comment = some n) : 1 ≤ n ∧ n ≤ largest := by
  simp only [parse?, Option.bind_eq_bind, Option.bind_eq_some_iff] at h
  obtain ⟨rest, -, rest', -, m, -, hsize⟩ := h
  generalize (if (sign (skipSpaces rest')).1 = true then -m else m) = size at hsize
  split at hsize
  · next hrange =>
    obtain rfl := Option.some.inj hsize
    omega
  · cases hsize

section TabSize

variable {P : UInt64 → Prop} (hP : ∀ n, 1 ≤ n → n ≤ TabDirective.largest → P n.toUInt64)
include hP

theorem tabSizeAfter_induction {tabSize : UInt64} (h : P tabSize) (comment : Bytes) :
    P (tabSizeAfter comment tabSize) := by
  rw [tabSizeAfter]
  cases hparse : TabDirective.parse? comment with
  | none => exact h
  | some n =>
    obtain ⟨hone, hle⟩ := TabDirective.bounds_of_parse? hparse
    exact hP n hone hle

theorem tabSize_get_induction (h : P l.tabSize) : P l.get.2.tabSize := by
  rw [tabSize_get]
  cases l.comment? with
  | none => exact h
  | some i => exact tabSizeAfter_induction hP h i.advance.pending

/-- What holds of the tab size at first, and of all that comments may set, holds of it after
    any calls. -/
theorem tabSize_induction (hh : P h.lexer.tabSize) (calls : List Call) :
    P (h.calls calls).lexer.tabSize := by
  induction calls generalizing h with
  | nil => exact hh
  | cons c calls ih =>
    refine ih (h := h.call c) ?_
    cases c with
    | get => exact tabSize_get_induction hP hh
    | next =>
      rw [History.call, next?_eq]
      split_ifs
      · exact hh
      · exact tabSize_get_induction hP hh
    | recover =>
      rw [History.call, recover?]
      split_ifs
      · exact hh
      · exact hh
    | interrupt => exact hh

end TabSize

/-- A tab size that a comment may set is not changed by 64 bits. -/
theorem TabDirective.toNat_toUInt64 {n : Nat} (h : n ≤ largest) : n.toUInt64.toNat = n :=
  UInt64.toNat_ofNat_of_lt' (Nat.lt_of_le_of_lt h (by decide))

/-- Whatever comments say, the tab size is at least 1. -/
theorem one_le_tabSize (hh : 1 ≤ h.lexer.tabSize) (calls : List Call) :
    1 ≤ (h.calls calls).lexer.tabSize := by
  refine tabSize_induction (P := (1 ≤ ·)) (fun n hone hle => ?_) hh calls
  rwa [UInt64.le_iff_toNat_le, TabDirective.toNat_toUInt64 hle]

/-! ## Later in a dialogue -/

namespace Input

/-- An input to which something was shown before. -/
def after (told : List String) (i : Input) : Input :=
  { i with shown := told ++ i.shown }

section After

variable (told : List String) (i : Input)

theorem showPrompt_after : (i.after told).showPrompt = i.showPrompt.after told := by
  obtain ⟨_, _, due, _, _, midLine, _⟩ := i
  cases midLine <;> cases due <;> simp [showPrompt, after]

theorem receive_after (r : Read) : (i.after told).receive r = (i.receive r).after told := by
  have hstop : ∀ s, (i.after told).stop s = (i.stop s).after told := fun s => by
    obtain ⟨_, _, due, _, _, _, _⟩ := i
    cases due <;> simp [stop, after]
  fun_cases receive i r
  · exact hstop .endOfInput
  · exact hstop .endOfInput
  · rfl
  · exact hstop .interrupted
  · exact hstop (.failed _)

theorem fill_after : (i.after told).fill = i.fill.after told := by
  by_cases hs : i.status = .ok
  · cases hp : i.pending with
    | cons b bs =>
      simp [fill, after, hs, hp]
    | nil =>
      have hfill : ∀ j : Input, j.status = .ok → j.pending = [] →
          j.fill = { j.showPrompt with source := j.source.next.2 }.receive j.source.next.1 :=
        fun j hs hp => by rw [fill, hs, hp]
      rw [hfill i hs hp, hfill (i.after told) hs hp, showPrompt_after, ← receive_after]
      rfl
  · rw [fill_of_ne_ok hs, fill_of_ne_ok (i := i.after told) hs]

theorem head?_after : (i.after told).head? = i.head? :=
  rfl

theorem advance_after : (i.after told).advance = i.advance.after told := by
  obtain ⟨_, _, _, _, pending, _, _⟩ := i
  cases pending <;> rfl

theorem munch_after {σ : Type} (p : Pattern σ) (s : σ) : munch p s (i.after told) =
    ((munch p s i).1, (munch p s i).2.1, (munch p s i).2.2.after told) := by
  have hfill : ∀ i : Input, (i.after told).fill.head? = i.fill.head? := fun i => by
    rw [fill_after, head?_after]
  fun_induction munch p s i with
  | case1 s i hc => exact munch_of_isComplete hc
  | case2 s i hc hb =>
    rw [munch_of_head?_eq_none (Bool.eq_false_iff.2 hc) ((hfill i).trans hb), fill_after]
  | case3 s i hc b hb hstep =>
    rw [munch_of_step_eq_none (Bool.eq_false_iff.2 hc) ((hfill i).trans hb) hstep, fill_after]
  | case4 s i hc b hb s' hstep r ih =>
    rw [munch_of_step_eq_some (Bool.eq_false_iff.2 hc) ((hfill i).trans hb) hstep, fill_after,
      advance_after, ih]

end After

end Input

/-- A lexer as it is later in a dialogue: to which something was shown before, and
    which has begun some lines more. -/
def after (told : List String) (lines : Nat) (l : Lexer) : Lexer :=
  { l with input := l.input.after told, line := lines + l.line }

section After

variable (told : List String) (lines : Nat) (l : Lexer)

theorem status_after : (l.after told lines).status = l.status :=
  rfl

theorem fault_after (f : Fault) :
    (l.after told lines).fault f = (l.fault f).after told lines := by
  rw [fault, fault, status_after]
  split_ifs <;> rfl

theorem advance_after : (l.after told lines).advance = l.advance.after told lines := by
  simp only [advance, after, Input.advance_after]

theorem take_after {σ : Type} (b : UInt8) (p : Pattern σ) (s : σ)
    (verdict : σ → Token.Kind ⊕ Fault) : (l.after told lines).take b p s verdict =
      ((l.take b p s verdict).1, (l.take b p s verdict).2.after told lines) := by
  have hmunch : Input.munch p s (l.after told lines).input.advance = _ :=
    (congrArg _ (Input.advance_after told l.input)).trans (Input.munch_after told _ p s)
  simp only [take, hmunch]
  cases verdict (Input.munch p s l.input.advance).2.1 with
  | inl kind => rfl
  | inr f => exact congrArg (Prod.mk _) (fault_after told lines { l with input := _ } f)

theorem endLine_after (b : UInt8) : (l.after told lines).endLine b =
    ((l.endLine b).1, (l.endLine b).2.after told lines) := by
  simp only [endLine, advance_after]
  rfl

theorem takeComment_after (b : UInt8) : (l.after told lines).takeComment b =
    ((l.takeComment b).1, (l.takeComment b).2.after told lines) := by
  have hobey : (l.after told lines).advance.obeyComment =
      l.advance.obeyComment.after told lines := by
    rw [advance_after, obeyComment_eq, obeyComment_eq]
    rfl
  obtain ⟨bs, s, input, hm⟩ : ∃ bs s input,
    l.advance.obeyComment.input.munch commentPattern () = (bs, s, input) := ⟨_, _, _, rfl⟩
  have hm' : (l.advance.obeyComment.after told lines).input.munch commentPattern () =
      (bs, s, input.after told) := (Input.munch_after told _ _ _).trans (by rw [hm])
  simp only [takeComment, hobey, hm, hm', Input.head?_after]
  cases input.head? with
  | none => rfl
  | some c =>
    have hend := endLine_after told lines { l.advance.obeyComment with input } c
    exact congrArg (fun r : Lexeme × Lexer => ({ r.1 with skipped := b :: bs }, r.2)) hend

theorem takeToken_after (b : UInt8) : (l.after told lines).takeToken b =
    ((l.takeToken b).1, (l.takeToken b).2.after told lines) := by
  simp only [takeToken, takeComment_after, take_after, endLine_after, advance_after]
  split_ifs <;> rfl

theorem scanToken_after : (l.after told lines).scanToken =
    (l.scanToken.1, l.scanToken.2.after told lines) := by
  obtain ⟨gap, place, input, hm⟩ : ∃ gap place input,
    l.input.munch gapPattern .between = (gap, place, input) := ⟨_, _, _, rfl⟩
  have hm' : (l.after told lines).input.munch gapPattern .between =
      (gap, place, input.after told) := (Input.munch_after told _ _ _).trans (by rw [hm])
  let skipped := gap.take (gap.length - place.excess)
  let m : Lexer := { l with input, line := l.line + skipped.count '\n'.toUInt8 }
  have hline : { l.after told lines with
      input := input.after told
      line := (l.after told lines).line + skipped.count '\n'.toUInt8 } = m.after told lines := by
    simp only [after, m, Nat.add_assoc]
  simp only [scanToken, hm, hm', Input.head?_after]
  rw [hline]
  split_ifs
  · cases input.head? with
    | none => rfl
    | some b =>
      exact congrArg (fun r : Lexeme × Lexer =>
        ({ r.1 with skipped := skipped ++ r.1.skipped }, r.2)) (takeToken_after told lines m b)
  · exact congrArg (Prod.mk _) (fault_after told lines m .badContinuation)

theorem beginLine_after : (l.after told lines).beginLine =
    (l.beginLine.1, l.beginLine.2.1, l.beginLine.2.2.after told lines) := by
  obtain ⟨blanks, column, input, hm⟩ : ∃ blanks column input,
    l.input.munch (columnPattern l.tabSize) 0 = (blanks, column, input) := ⟨_, _, _, rfl⟩
  have hm' : (l.after told lines).input.munch (columnPattern l.tabSize) 0 =
      (blanks, column, input.after told) := (Input.munch_after told _ _ _).trans (by rw [hm])
  have hline : (l.after told lines).line + 1 = lines + (l.line + 1) := Nat.add_assoc ..
  have hstart : (l.after told lines).lineStart = l.lineStart := rfl
  have htab : (l.after told lines).tabSize = l.tabSize := rfl
  have hstatus : (input.after told).status = input.status := rfl
  simp only [beginLine, hstart, htab, hm, hm', hline, status, hstatus]
  split_ifs
  · rfl
  · rfl
  · rfl

theorem scan_after : (l.after told lines).scan = (l.scan.1, l.scan.2.after told lines) := by
  obtain ⟨blanks, f, m, hbegin⟩ : ∃ blanks f m, l.beginLine = (blanks, f, m) := ⟨_, _, _, rfl⟩
  rw [scan, beginLine_after, scan, hbegin]
  cases f with
  | some f => exact congrArg (Prod.mk _) (fault_after told lines m f)
  | none =>
    have hnext : (m.after told lines).indentation.next? = m.indentation.next? := rfl
    simp only [status_after, hnext, scanToken_after]
    split_ifs
    · rfl
    · cases m.indentation.next? <;> rfl

theorem get_after : (l.after told lines).get =
    ({ l.get.1 with line := lines + l.get.1.line }, l.get.2.after told lines) := by
  have hlatched : (l.after told lines).latched = l.latched := rfl
  rw [get, get, hlatched, scan_after]
  split_ifs
  · rfl
  · rfl

theorem next?_after : (l.after told lines).next? =
    l.next?.map fun r => ({ r.1 with line := lines + r.1.line }, r.2.after told lines) := by
  have hfinished : (l.after told lines).finished = l.finished := rfl
  rw [next?_eq, next?_eq, hfinished, get_after]
  split_ifs
  · rfl
  · rfl

theorem recover?_after : (l.after told lines).recover? =
    l.recover?.map (Lexer.after told lines) := by
  rw [recover?, recover?, status_after]
  split_ifs
  · rfl
  · rfl

theorem lineColumn?_after : (l.after told lines).lineColumn? = l.lineColumn? := by
  obtain ⟨blanks, f, m, hbegin⟩ : ∃ blanks f m, l.beginLine = (blanks, f, m) := ⟨_, _, _, rfl⟩
  rw [lineColumn?, beginLine_after, lineColumn?, hbegin]
  cases f <;> rfl

/-- What is told some lines later. -/
def Event.after (lines : Nat) : Event → Event
  | token t => token { t with line := lines + t.line }
  | recovered => recovered

/-- The history of a lexer as it is later in a dialogue. -/
def History.after (h : History) : History where
  lexer := h.lexer.after told lines
  events := h.events.map (·.after lines)
  column := h.column

theorem History.receive_after (h : History) (t : Token) :
    (h.after told lines).receive ({ t with line := lines + t.line }, l.after told lines) =
      (h.receive (t, l)).after told lines := by
  have hlatched : (h.lexer.after told lines).latched = h.lexer.latched := rfl
  have hstart : (h.lexer.after told lines).lineStart = h.lexer.lineStart := rfl
  simp only [receive, after, lineColumn?_after, hlatched, hstart, List.map_append]
  rfl

theorem History.call_after (h : History) (c : Call) :
    (h.after told lines).call c = (h.call c).after told lines := by
  have hlexer : (h.after told lines).lexer = h.lexer.after told lines := rfl
  cases c with
  | get =>
    rw [call, hlexer, get_after]
    exact receive_after told lines h.lexer.get.2 h h.lexer.get.1
  | next =>
    rw [call, hlexer, next?_after, call]
    cases h.lexer.next? with
    | none => rfl
    | some r => exact receive_after told lines r.2 h r.1
  | recover =>
    rw [call, hlexer, recover?_after, call]
    cases h.lexer.recover? with
    | none => rfl
    | some l =>
      simp only [after, Option.map_some, List.map_append]
      rfl
  | interrupt => rfl

/-- Later in a dialogue, calls do the same. -/
theorem History.calls_after (h : History) (calls : List Call) :
    (h.after told lines).calls calls = (h.calls calls).after told lines := by
  induction calls generalizing h with
  | nil => rfl
  | cons c calls ih => rw [calls_cons, call_after, ih, calls_cons]

end After

/-! ## Recovering -/

/-- A lexer that recovers is a new one, later in the dialogue. -/
theorem recover?_eq_start {options : Options} (hstatus : l.status = .interrupted)
    (hprompts : l.input.prompts = options.prompts) (htab : 1 ≤ l.tabSize)
    (hmax : l.maxIndent = max 1 options.maxIndent) : l.recover? =
      some ((start l.input.source { options with tabSize := l.tabSize }).after
        l.input.shown l.line) := by
  have htab' : max 1 l.tabSize = l.tabSize := if_pos htab
  rw [recover?, if_pos hstatus]
  simp only [start, after, Input.after, Input.restart, hprompts, hmax, htab', List.append_nil,
    Nat.add_zero]

/-- Where a read was interrupted, after any calls on any source, all that was read has
    been taken; and a lexer that recovers there goes on, by any calls, as a new one
    does with the same options, but the present tab size, on what the source has
    still to bring: it tells the same, but for the lines, which are counted from the
    line of the interrupt; it answers the same; it reads the same; and it shows the
    same, after what was shown before. -/
theorem recover_afresh (source : Source) (options : Options) (calls : List Call) :
    let l := ((History.start source options).calls calls).lexer
    l.status = .interrupted → l.input.pending = [] ∧ ∃ l', l.recover? = some l' ∧
      ∀ more : List Call,
        let h := History.calls { lexer := l' } more
        let fresh :=
          (History.start l.input.source { options with tabSize := l.tabSize }).calls more
        h.events = fresh.events.map (·.after l.line) ∧
          h.lexer.line = l.line + fresh.lexer.line ∧
          h.lexer.answers = fresh.lexer.answers ∧
          h.lexer.input.source = fresh.lexer.input.source ∧
          h.lexer.input.shown = l.input.shown ++ fresh.lexer.input.shown := by
  intro l hstatus
  have hdrained : l.input.Drained := by
    refine Input.stable_drained.calls (fun i _ _ _ => rfl) (fun _ hi => hi) ?_ calls
    exact fun hs => nomatch hs
  have hprompts : l.input.prompts = options.prompts :=
    (Input.stable_prompts options.prompts).calls (fun _ _ hi => hi) (fun _ hi => hi) rfl calls
  have htab : 1 ≤ l.tabSize := by
    refine one_le_tabSize ?_ calls
    show 1 ≤ if 1 ≤ options.tabSize then options.tabSize else 1
    split_ifs with hone
    · exact hone
    · decide
  have horderly : Orderly (max 1 options.maxIndent) ((History.start source options).calls calls) :=
    History.calls_induction (orderly_start source options) (fun _ _ => Orderly.step) calls
  refine ⟨hdrained hstatus, _, recover?_eq_start hstatus hprompts htab horderly.counted.maxIndent,
    fun more => ?_⟩
  intro h fresh
  have hh : h = fresh.after l.input.shown l.line :=
    (History.start l.input.source { options with tabSize := l.tabSize }).calls_after
      l.input.shown l.line more
  rw [hh]
  exact ⟨rfl, rfl, rfl, rfl, rfl⟩

/-- A dialogue that is interrupted inside a name on an indented line, behind a comment
    that sets the tab size, and goes on with a new line. -/
theorem recover_afresh_of_name :
    let source : Source := { reads := [.bytes (Bytes.ofString "#vi:set tabsize=2\n"),
      .bytes (Bytes.ofString "\tab"), .interrupted, .bytes (Bytes.ofString " c\n")] }
    let options : Options := { prompts := { first := some ">", later := some "." } }
    let l := ((History.start source options).calls [.get, .get, .get]).lexer
    l.status = .interrupted ∧ (l.depth, l.line, l.tabSize) = (1, 2, 2) ∧
      ∃ l', l.recover? = some l' ∧
        (History.calls { lexer := l' } [.get, .get, .get]).events =
          [.token ⟨.indent, "", 3⟩, .token ⟨.name, "c", 3⟩, .token ⟨.newline, "", 3⟩] := by
  intro source options l
  have hstatus : l.status = .interrupted := by decide +kernel
  obtain ⟨l', hrecover, hmore⟩ := (recover_afresh source options [.get, .get, .get] hstatus).2
  refine ⟨hstatus, by decide +kernel, l', hrecover, ?_⟩
  rw [(hmore [.get, .get, .get]).1]
  decide +kernel

end ScriptCore.Lexer
