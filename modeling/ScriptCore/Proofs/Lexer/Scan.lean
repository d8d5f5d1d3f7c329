import ScriptCore.Proofs.Lexer.Spelling

/-!
# What a token takes

What the lexer does to hand out one token, in terms of the bytes that are left.

* `Takes`: what can become of a lexer by `scanToken`, one case for each way in
  which a token can end.
* `Begins`: what can become of it at the beginning of a line.
* `Scans`: what can become of it by `scan`.
-/

namespace ScriptCore.Lexer

open Token (Kind)

variable {l l' l'' : Lexer} {b : UInt8} {bs bs' : Bytes} {x : Lexeme} {kind : Kind}

/-! ## The beginning of a text -/

theorem rest_start {source : Source} (h : source.Delivers bs) (options : Options) :
    (start source options).input.rest = bs :=
  (Input.rest_of_ok rfl).trans (congrArg Prod.fst h)

theorem ending_start {source : Source} (h : source.Delivers bs) (options : Options) :
    (start source options).input.ending = .endOfInput :=
  (Input.ending_of_ok rfl).trans (congrArg Prod.snd h)

/-- The ways to deliver a text cannot be told apart by taking bytes. -/
theorem Input.same_start {source source' : Source} (h : source.Delivers bs)
    (h' : source'.Delivers bs) (options : Options) :
    (start source options).input.Same (start source' options).input where
  status := rfl
  rest := (rest_start h options).trans (rest_start h' options).symm
  ending := (ending_start h options).trans (ending_start h' options).symm

theorem bound_start {source source' : Source} (h : source.size = source'.size)
    (options : Options) : (start source options).bound = (start source' options).bound :=
  congrArg (fun n => 2 * (0 + n) + 0 + 0 + 3) h

/-! ## Passing over bytes -/

/-- Whether a lexer is left as it was, but for bytes that it passed over. -/
structure Skips (l : Lexer) (bs : Bytes) (l' : Lexer) : Prop where
  rest : l.input.rest = bs ++ l'.input.rest
  ending : l'.input.ending = l.input.ending
  remaining : bs.length + l'.input.remaining = l.input.remaining
  indentation : l'.indentation = l.indentation
  maxIndent : l'.maxIndent = l.maxIndent
  lineStart : l'.lineStart = l.lineStart
  latched : l'.latched = l.latched
  finished : l'.finished = l.finished
  line : l.line ≤ l'.line

theorem Skips.refl (l : Lexer) : Skips l [] l :=
  ⟨rfl, rfl, Nat.zero_add _, rfl, rfl, rfl, rfl, rfl, Nat.le_refl _⟩

theorem Skips.trans (h : Skips l bs l') (h' : Skips l' bs' l'') : Skips l (bs ++ bs') l'' where
  rest := by rw [h.rest, h'.rest, List.append_assoc]
  ending := h'.ending.trans h.ending
  remaining := by
    have hr := h.remaining
    have hr' := h'.remaining
    rw [List.length_append]
    omega
  indentation := h'.indentation.trans h.indentation
  maxIndent := h'.maxIndent.trans h.maxIndent
  lineStart := h'.lineStart.trans h.lineStart
  latched := h'.latched.trans h.latched
  finished := h'.finished.trans h.finished
  line := Nat.le_trans h.line h'.line

theorem skips_advance (h : l.input.head? = some b) : Skips l [b] l.advance where
  rest := Input.rest_advance h
  ending := Input.ending_advance l.input
  remaining := by
    have hr := Input.remaining_advance h
    rw [List.length_singleton, Nat.add_comm]
    exact hr
  indentation := rfl
  maxIndent := rfl
  lineStart := rfl
  latched := rfl
  finished := rfl
  line := Nat.le_refl _

theorem skips_munch {σ : Type} {p : Pattern σ} {s s' : σ} {input : Input}
    (h : Input.Munched p s l.input bs s' input) {line : Nat} (hline : l.line ≤ line) :
    Skips l bs { l with input, line } where
  rest := h.rest
  ending := h.ending
  remaining := h.remaining
  indentation := rfl
  maxIndent := rfl
  lineStart := rfl
  latched := rfl
  finished := rfl
  line := hline

theorem skips_obeyComment (l : Lexer) : Skips l [] l.obeyComment := by
  unfold obeyComment
  split
  · exact { Skips.refl l with }
  · exact .refl l

/-! ## The ends of a token -/

/-- What can become of a lexer by a token, with the space in front of it. -/
inductive Takes (l : Lexer) : Lexeme → Lexer → Prop
  | spelled {kind skipped bytes l'} : Gap skipped → Spells kind bytes →
    Skips l (skipped ++ bytes) l' → Takes l { kind, skipped, bytes } l'
  | newline {skipped l'} : Trail skipped → Skips l (skipped ++ ['\n'.toUInt8]) l' →
    Takes l { kind := .newline, skipped, bytes := ['\n'.toUInt8] } { l' with lineStart := true }
  | endMarker {skipped l'} : Trail skipped → Skips l skipped l' → l'.status = .endOfInput →
    Takes l { kind := .endMarker, skipped } l'
  | stopped {skipped l'} : Skips l skipped l' → l'.status.isError = true →
    Takes l { kind := .error, skipped } l'
  | fault {skipped bytes l'} (f : Fault) : Skips l (skipped ++ bytes) l' →
    Takes l { kind := .error, skipped, bytes } (l'.fault f)

theorem exists_fault_eq (l : Lexer) (f : Fault) : ∃ input, l.fault f = { l with input } := by
  rw [fault]
  split_ifs
  · exact ⟨l.input, rfl⟩
  · exact ⟨_, rfl⟩

/-- What a token of a line leaves as it is. -/
structure Keeps (l : Lexer) (kind : Kind) (l' : Lexer) : Prop where
  indentation : l'.indentation = l.indentation
  maxIndent : l'.maxIndent = l.maxIndent
  line : l.line ≤ l'.line
  lineStart : l'.lineStart = true → l.lineStart = true ∨ kind = .newline
  isLevel : kind.isLevel = false

theorem Skips.keeps (h : Skips l bs l') (hkind : kind.isLevel = false) : Keeps l kind l' :=
  ⟨h.indentation, h.maxIndent, h.line, fun hs => .inl (h.lineStart ▸ hs), hkind⟩

theorem Takes.keeps (h : Takes l x l') : Keeps l x.kind l' := by
  cases h with
  | spelled _ hspells h => exact h.keeps hspells.isLevel
  | newline _ h => exact { h.keeps rfl with lineStart := fun _ => .inr rfl }
  | endMarker _ h _ => exact h.keeps rfl
  | stopped h _ => exact h.keeps rfl
  | @fault _ _ l'' f h =>
    obtain ⟨input, heq⟩ := exists_fault_eq l'' f
    rw [heq]
    exact { h.keeps rfl with }

/-- What is passed over in front of a token and its space belongs to that space. -/
theorem Takes.skip (h : Takes l' x l'') (hgap : Gap bs) (hskips : Skips l bs l') :
    Takes l { x with skipped := bs ++ x.skipped } l'' := by
  cases h with
  | spelled hgap' hspells h =>
    exact .spelled (hgap.append hgap') hspells (List.append_assoc .. ▸ hskips.trans h)
  | newline htrail h =>
    exact .newline (hgap.trail htrail) (List.append_assoc .. ▸ hskips.trans h)
  | endMarker htrail h hstatus => exact .endMarker (hgap.trail htrail) (hskips.trans h) hstatus
  | stopped h hstatus => exact .stopped (hskips.trans h) hstatus
  | fault f h => exact .fault f (List.append_assoc .. ▸ hskips.trans h)

/-- Where no byte is at hand after one was asked for, reading has stopped. -/
theorem takes_atEnd (htrail : Trail bs) (hskips : Skips l bs l') (hstatus : l'.status ≠ .ok) :
    Takes l { l'.atEnd.1 with skipped := bs } l'.atEnd.2 := by
  rw [atEnd]
  cases hs : l'.status with
  | ok => exact absurd hs hstatus
  | endOfInput => exact .endMarker htrail hskips hs
  | _ => exact .stopped hskips (by rw [hs]; rfl)

theorem takes_take {σ : Type} (hb : l.input.head? = some b) (p : Pattern σ) (s : σ)
    (verdict : σ → Kind ⊕ Fault)
    (hspells : ∀ bs s' kind, p.run s l.advance.input.rest = (bs, s') → verdict s' = .inl kind →
      Spells kind (b :: bs)) :
    Takes l (l.take b p s verdict).1 (l.take b p s verdict).2 := by
  obtain ⟨bs, s', input, hmunch, hmunched⟩ := Input.exists_munched p s l.input.advance
  have hskips := (skips_advance hb).trans (skips_munch (l := l.advance) hmunched (Nat.le_refl _))
  simp only [take, hmunch]
  cases hv : verdict s' with
  | inl kind => exact .spelled .nil (hspells bs s' kind hmunched.run hv) hskips
  | inr f => exact .fault f hskips

theorem takes_endLine (htrail : Trail bs) (hskips : Skips l bs l')
    (hb : l'.input.head? = some '\n'.toUInt8) :
    Takes l { (l'.endLine '\n'.toUInt8).1 with skipped := bs } (l'.endLine '\n'.toUInt8).2 :=
  .newline htrail (hskips.trans (skips_advance hb))

/-- Where no byte is at hand after one was asked for, reading has stopped. -/
theorem status_ne_ok_of_munched {σ : Type} {p : Pattern σ} {s s' : σ} {i i' : Input}
    (h : Input.Munched p s i bs s' i') (hc : p.isComplete s' = false) (hb : i'.head? = none) :
    i'.status ≠ .ok := by
  have hrest : i'.rest = [] := List.head?_eq_none_iff.1 ((h.head hc).symm.trans hb)
  rw [h.status, if_neg (by simp [hc, hrest])]
  exact i.ending_ne_ok

/-- A comment goes on up to the newline. -/
theorem comment_of_munched {i i' : Input} {s' : Unit}
    (h : Input.Munched commentPattern () i bs s' i') :
    '\n'.toUInt8 ∉ bs ∧ ∀ c, i'.rest.head? = some c → c = '\n'.toUInt8 := by
  refine ⟨fun hmem => ?_, fun c hc => ?_⟩
  · have hrun := h.run
    rw [commentPattern, Pattern.run_while] at hrun
    rw [← (Prod.mk.inj hrun).1] at hmem
    exact absurd (List.all_eq_true.1 List.all_takeWhile _ hmem) (by decide)
  · obtain ⟨after, hafter⟩ := List.head?_eq_some_iff.1 hc
    have hstop := Pattern.stop_run (hafter ▸ h.rest ▸ h.run)
    simpa [commentPattern, Pattern.while] using hstop

theorem takes_takeComment (hb : l.input.head? = some '#'.toUInt8) :
    Takes l (l.takeComment '#'.toUInt8).1 (l.takeComment '#'.toUInt8).2 := by
  obtain ⟨bs, s', input, hmunch, hmunched⟩ :=
    Input.exists_munched commentPattern () l.advance.obeyComment.input
  have hskips := ((skips_advance hb).trans (skips_obeyComment l.advance)).trans
    (skips_munch (l := l.advance.obeyComment) hmunched (Nat.le_refl _))
  simp only [takeComment, hmunch]
  obtain ⟨htext, hline⟩ := comment_of_munched hmunched
  have htrail : Trail ('#'.toUInt8 :: bs) := .comment .nil htext
  cases hhead : input.head? with
  | none => exact takes_atEnd htrail hskips (status_ne_ok_of_munched hmunched rfl hhead)
  | some c =>
    obtain rfl := hline c ((hmunched.head rfl).symm.trans hhead)
    exact takes_endLine htrail hskips hhead

theorem takes_takeToken (hb : l.input.head? = some b) :
    Takes l (l.takeToken b).1 (l.takeToken b).2 := by
  rw [takeToken]
  split_ifs with hhash hname hnewline hzero hdigit hquote
  · subst hhash
    exact takes_takeComment hb
  · refine takes_take hb namePattern () _ fun bs s' kind hrun hv => ?_
    cases hv
    rw [namePattern, Pattern.run_while] at hrun
    refine .name hname fun c hc => ?_
    rw [← (Prod.mk.inj hrun).1] at hc
    exact List.all_eq_true.1 List.all_takeWhile c hc
  · subst hnewline
    exact takes_endLine (.gap .nil) (.refl l) hb
  · refine takes_take hb numberPattern .zero _ fun bs s' kind hrun hv => ?_
    cases hv
    refine .number (hzero ▸ by decide) fun c hc => ?_
    exact Pattern.forall_mem_run (p := numberPattern) (fun _ _ _ => isAscii_of_numberStep) .zero
      l.advance.input.rest c (by rwa [hrun])
  · refine takes_take hb numberPattern .whole _ fun bs s' kind hrun hv => ?_
    cases hv
    refine .number hdigit fun c hc => ?_
    exact Pattern.forall_mem_run (p := numberPattern) (fun _ _ _ => isAscii_of_numberStep) .whole
      l.advance.input.rest c (by rwa [hrun])
  · subst hquote
    refine takes_take hb stringPattern .inside _ fun bs s' kind hrun hv => ?_
    split_ifs at hv with hclosed
    cases hv
    subst hclosed
    have hplace : StringPlace.inside ≠ .closed := nofun
    obtain ⟨text, rfl⟩ := exists_run_string hplace hrun
    exact .string
  · exact .spelled .nil (.symbol b) (skips_advance hb)

/-- What the lexer does to hand out a token of a line. -/
theorem takes_scanToken (l : Lexer) : Takes l l.scanToken.1 l.scanToken.2 := by
  obtain ⟨bs, place, input, hmunch, hmunched⟩ :=
    Input.exists_munched gapPattern .between l.input
  simp only [scanToken, hmunch]
  by_cases hexcess : place.excess = 0
  · obtain rfl := eq_between_of_excess hmunched.run hexcess
    have hgap : Gap bs := gap_of_run hmunched.run
    have hskips := skips_munch (l := l) hmunched
      (Nat.le_add_right l.line (bs.count '\n'.toUInt8))
    simp only [GapPlace.excess, if_true, Nat.sub_zero, List.take_length]
    cases hhead : input.head? with
    | none =>
      have hstatus := status_ne_ok_of_munched hmunched rfl hhead
      exact (List.append_nil bs).symm ▸ takes_atEnd (.gap hgap) hskips hstatus
    | some b => exact (takes_takeToken hhead).skip hgap hskips
  · -- the gap and what breaks it are what was taken
    rw [if_neg hexcess]
    refine .fault .badContinuation ?_
    have htake : (bs.take (bs.length - place.excess)).length = bs.length - place.excess :=
      List.length_take_of_le (Nat.sub_le _ _)
    rw [htake, List.take_append_drop]
    exact skips_munch hmunched (Nat.le_add_right _ _)

/-! ## The beginning of a line -/

/-- What can become of a lexer by `beginLine`: nothing in the middle of a line;
    or reading stops in the blanks in front of it; or their column is entered. -/
inductive Begins (l : Lexer) : Bytes → Option Fault → Lexer → Prop
  | within : l.lineStart = false → Begins l [] none l
  | stopped {blanks l'} : l.lineStart = true →
    Skips { l with lineStart := false, line := l.line + 1 } blanks l' →
    l'.status.isError = true → Begins l blanks none l'
  | entered {blanks l' indentation fault} : l.lineStart = true →
    Skips { l with lineStart := false, line := l.line + 1 } blanks l' →
    (∀ b ∈ blanks, Byte.isBlank b = true) → l'.status.isError = false →
    l.indentation.enter l.maxIndent (columnAfter l.tabSize blanks) = (indentation, fault) →
    Begins l blanks fault { l' with indentation }

theorem begins_of_eq {f : Option Fault} (h : l.beginLine = (bs, f, l')) : Begins l bs f l' := by
  rw [beginLine] at h
  cases hstart : l.lineStart with
  | false =>
    rw [hstart] at h
    cases h
    exact .within hstart
  | true =>
    obtain ⟨blanks, column, input, hmunch, hmunched⟩ :=
      Input.exists_munched (columnPattern l.tabSize) 0 l.input
    have hskips := skips_munch (l := { l with lineStart := false, line := l.line + 1 })
      hmunched (Nat.le_refl _)
    simp only [hstart, hmunch, if_true] at h
    split_ifs at h with herror
    · cases h
      exact .stopped hstart hskips herror
    · cases h
      refine .entered hstart hskips (fun b hb => ?_) (Bool.eq_false_iff.2 herror) ?_
      · exact Pattern.forall_mem_run (fun _ _ _ h => (columnPattern_step h).1) 0
          l.input.rest b (by rwa [hmunched.run])
      · rw [columnAfter, ← run_columnPattern hmunched.run]

section Begins

variable {f : Option Fault}

theorem Begins.lineStart (h : Begins l bs f l') : l'.lineStart = false := by
  cases h with
  | within hstart => exact hstart
  | stopped _ hskips _ => exact hskips.lineStart
  | entered _ hskips _ _ _ => exact hskips.lineStart

theorem Begins.latched (h : Begins l bs f l') : l'.latched = l.latched := by
  cases h with
  | within => rfl
  | stopped _ hskips _ => exact hskips.latched
  | entered _ hskips _ _ _ => exact hskips.latched

theorem Begins.rest (h : Begins l bs f l') : l.input.rest = bs ++ l'.input.rest := by
  cases h with
  | within => rfl
  | stopped _ hskips _ => exact hskips.rest
  | entered _ hskips _ _ _ => exact hskips.rest

theorem Begins.gap (h : Begins l bs f l') (hstatus : l'.status.isError = false) : Gap bs := by
  cases h with
  | within => exact .nil
  | stopped _ _ herror => exact absurd herror (Bool.eq_false_iff.1 hstatus)
  | entered _ _ hblanks _ _ => exact gap_of_blank hblanks

end Begins

/-! ## A token, or a change of level -/

/-- What can become of a lexer by `scan`: the line begins, and then a fault is
    told, or a change of level, or a token of the line is taken. -/
inductive Scans (l : Lexer) : Lexeme → Lexer → Prop
  | fault {blanks f l'} : l.beginLine = (blanks, some f, l') →
    Scans l { kind := .error, skipped := blanks } (l'.fault f)
  | stopped {blanks l'} : l.beginLine = (blanks, none, l') → l'.status.isError = true →
    Scans l { kind := .error, skipped := blanks } l'
  | level {blanks l' kind indentation} : l.beginLine = (blanks, none, l') →
    l'.status.isError = false → l'.indentation.next? = some (kind, indentation) →
    Scans l { kind, skipped := blanks } { l' with indentation }
  | token {blanks l' x l''} : l.beginLine = (blanks, none, l') → l'.status.isError = false →
    l'.indentation.next? = none → Takes l' x l'' →
    Scans l { x with skipped := blanks ++ x.skipped } l''

theorem scans_scan (l : Lexer) : Scans l l.scan.1 l.scan.2 := by
  obtain ⟨blanks, f, l', hbegin⟩ : ∃ blanks f l', l.beginLine = (blanks, f, l') :=
    ⟨_, _, _, rfl⟩
  rw [scan, hbegin]
  cases f with
  | some f => exact .fault hbegin
  | none =>
    simp only
    split_ifs with herror
    · exact .stopped hbegin herror
    · have hstatus := Bool.eq_false_iff.2 herror
      cases hnext : l'.indentation.next? with
      | some r => exact .level hbegin hstatus hnext
      | none => exact .token hbegin hstatus hnext (takes_scanToken l')

/-! ## Runs -/

theorem next?_eq (l : Lexer) : l.next? = if l.finished then none else
    some (l.get.1, { l.get.2 with finished := decide (l.get.1.kind = .endMarker) }) :=
  rfl

theorem runFor_succ (l : Lexer) (n : Nat) : l.runFor (n + 1) = if l.finished then [] else
    (l.get.1, { l.get.2 with finished := decide (l.get.1.kind = .endMarker) }) ::
      ({ l.get.2 with finished := decide (l.get.1.kind = .endMarker) } : Lexer).runFor n := by
  rw [runFor, next?_eq]
  split_ifs <;> rfl

theorem runFor_of_finished (h : l.finished = true) (n : Nat) : l.runFor n = [] := by
  cases n with
  | zero => rfl
  | succ n => rw [runFor_succ, if_pos h]

end ScriptCore.Lexer
