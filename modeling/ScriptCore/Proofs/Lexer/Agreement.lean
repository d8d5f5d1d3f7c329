import ScriptCore.Proofs.Lexer.History

/-!
# Agreement

Lexers that differ only in how their input comes hand out the same tokens, if
their inputs cannot be told apart by taking bytes. What they may disagree on is
the tab size, since the bytes at hand are looked at when a comment sets it.

* `Input.Parallel`: what a relation between inputs must keep for that.
* `Agree`: lexers whose inputs are so related. With one tab size, they hand out the
  same token, and the lexers that are left agree (`Agree.get`).
* `comment?`: the comment that comes next, if any. Only such a comment changes the
  tab size (`tabSize_get`).
* `Match.run`, `Match.calls`: where comments set the same tab sizes, runs and calls
  hand out the same.
-/

namespace ScriptCore.Lexer

/-! ## Relations -/

/-- Whether a relation between inputs is kept by all that a lexer does with an
    input, and shows in none of the bytes that it takes. -/
structure Input.Parallel (R : Input → Input → Prop) : Prop where
  same : ∀ {i i'}, R i i' → i.Same i'
  uninterrupted : ∀ {i i'}, R i i' → i.status ≠ .interrupted
  munch : ∀ {i i'}, R i i' → ∀ {σ : Type} (p : Pattern σ) (s : σ),
    R (munch p s i).2.2 (munch p s i').2.2
  advance : ∀ {i i' b}, R i i' → i.head? = some b → i'.head? = some b → R i.advance i'.advance
  fault : ∀ {i i'}, R i i' → ∀ f, R { i with status := .malformed f } { i' with
    status := .malformed f }

/-- Whether such a relation shows in nothing: a comment sets the same tab size, if
    it sets any. -/
structure Input.Indistinct (R : Input → Input → Prop) : Prop extends Input.Parallel R where
  directive : ∀ {i i'}, R i i' → i.head? = some '#'.toUInt8 → i'.head? = some '#'.toUInt8 →
    TabDirective.parse? i.advance.pending = TabDirective.parse? i'.advance.pending

/-- Whether lexers differ only in inputs that are related, and in the tab size. -/
inductive Agree (R : Input → Input → Prop) (l : Lexer) : Lexer → Prop
  | mk {input tabSize} : R l.input input → Agree R l { l with input, tabSize }

/-- Whether the same was handed out, and the lexers that are left agree. -/
structure Agrees {α : Type} (R : Input → Input → Prop) (r r' : α × Lexer) : Prop where
  fst : r.1 = r'.1
  snd : Agree R r.2 r'.2

/-- What a lexer answers about itself between two tokens. -/
def answers (l : Lexer) : Nat × UInt64 × Status :=
  (l.depth, l.tabSize, l.status)

/-- A token, and what the lexer that handed it out answers. -/
def seen (r : Token × Lexer) : Token × Nat × UInt64 × Status :=
  (r.1, r.2.answers)

/-- The tab size after a comment, by what is looked at for it. -/
def tabSizeAfter (comment : Bytes) (tabSize : UInt64) : UInt64 :=
  ((TabDirective.parse? comment).map Nat.toUInt64).getD tabSize

variable {R : Input → Input → Prop} {l l' m : Lexer} {b : UInt8} {before : Bytes} {i : Input}

theorem Agrees.map {α β : Type} {r r' : α × Lexer} (h : Agrees R r r') (g : α → β) :
    Agrees R (g r.1, r.2) (g r'.1, r'.2) :=
  ⟨congrArg g h.fst, h.snd⟩

/-! ## Tokens -/

theorem Agree.input (h : Agree R l l') : R l.input l'.input := by
  obtain ⟨h⟩ := h
  exact h

theorem Agree.withInput {j j' : Input} (h : Agree R l l') (hj : R j j') :
    Agree R { l with input := j } { l' with input := j' } := by
  obtain ⟨-⟩ := h
  exact Agree.mk (l := { l with input := j }) hj

theorem obeyComment_eq (l : Lexer) :
    l.obeyComment = { l with tabSize := tabSizeAfter l.input.pending l.tabSize } := by
  rw [obeyComment, tabSizeAfter]
  cases TabDirective.parse? l.input.pending <;> rfl

section Parallel

variable (hR : Input.Parallel R)
include hR

theorem Agree.status (h : Agree R l l') : l.status = l'.status :=
  (hR.same h.input).status

theorem Agree.answers (h : Agree R l l') : l.answers = l'.answers ↔ l.tabSize = l'.tabSize := by
  have hstatus := h.status hR
  obtain ⟨h⟩ := h
  exact ⟨fun heq => (Prod.mk.inj (Prod.mk.inj heq).2).1,
    fun heq => Prod.ext rfl (Prod.ext heq hstatus)⟩

theorem Agree.fault (h : Agree R l l') (f : Fault) : Agree R (l.fault f) (l'.fault f) := by
  rw [Lexer.fault, Lexer.fault, ← h.status hR]
  obtain @⟨input, tabSize, h⟩ := h
  split_ifs
  · exact .mk h
  · exact Agree.mk (l := { l with input := { l.input with status := .malformed f } }) (hR.fault h f)

theorem Agree.advance (h : Agree R l l') (hb : l.input.head? = some b)
    (hb' : l'.input.head? = some b) : Agree R l.advance l'.advance := by
  obtain ⟨h⟩ := h
  exact .mk (hR.advance h hb hb')

/-- The bytes of a pattern are taken from both inputs alike. -/
theorem Agree.munch {σ : Type} (h : Agree R l l') (p : Pattern σ) (s : σ) :
    ∃ bs s' j j', l.input.munch p s = (bs, s', j) ∧ l'.input.munch p s = (bs, s', j') ∧ R j j' ∧
      (p.isComplete s' = false → j.head? = j'.head?) := by
  obtain @⟨input, tabSize, h⟩ := h
  obtain ⟨bs, s', j, j', hm, hm', -, hhead⟩ := (hR.same h).munch p s
  have hj := hR.munch h p s
  rw [hm, hm'] at hj
  exact ⟨bs, s', j, j', hm, hm', hj, hhead⟩

/-- A token, or whatever else is taken by a pattern. -/
theorem Agree.take {σ : Type} (h : Agree R l l') (hb : l.input.head? = some b)
    (hb' : l'.input.head? = some b) (p : Pattern σ) (s : σ) (verdict : σ → Token.Kind ⊕ Fault) :
    Agrees R (l.take b p s verdict) (l'.take b p s verdict) := by
  obtain ⟨bs, s', j, j', hm, hm', hj, -⟩ := (h.advance hR hb hb').munch hR p s
  simp only [Lexer.advance] at hm hm'
  simp only [Lexer.take, hm, hm']
  cases verdict s' with
  | inl kind => exact ⟨rfl, h.withInput hj⟩
  | inr f => exact ⟨rfl, (h.withInput hj).fault hR f⟩

theorem Agree.endLine (h : Agree R l l') (hb : l.input.head? = some b)
    (hb' : l'.input.head? = some b) : Agrees R (l.endLine b) (l'.endLine b) := by
  obtain ⟨h⟩ := h
  exact ⟨rfl, .mk (hR.advance h hb hb')⟩

theorem Agree.atEnd (h : Agree R l l') : Agrees R l.atEnd l'.atEnd :=
  ⟨by rw [Lexer.atEnd, Lexer.atEnd, h.status hR], h⟩

/-- What is looked at for a tab size may differ, but nothing else does. -/
theorem Agree.takeComment (h : Agree R l l') (hb : l.input.head? = some '#'.toUInt8)
    (hb' : l'.input.head? = some '#'.toUInt8) :
    Agrees R (l.takeComment '#'.toUInt8) (l'.takeComment '#'.toUInt8) := by
  -- the tab sizes may part here, which `Agree` allows
  have hobey : Agree R l.advance.obeyComment l'.advance.obeyComment := by
    rw [obeyComment_eq, obeyComment_eq]
    obtain ⟨h⟩ := h
    exact .mk (hR.advance h hb hb')
  obtain ⟨bs, s', j, j', hm, hm', hj, hhead⟩ := hobey.munch hR commentPattern ()
  have hagree := hobey.withInput hj
  simp only [Lexer.takeComment, hm, hm', ← hhead rfl]
  cases hc : j.head? with
  | some c =>
    exact (hagree.endLine hR hc ((hhead rfl).symm.trans hc)).map
      fun x => { x with skipped := '#'.toUInt8 :: bs }
  | none => exact (hagree.atEnd hR).map fun x => { x with skipped := '#'.toUInt8 :: bs }

theorem Agree.takeToken (h : Agree R l l') (hb : l.input.head? = some b)
    (hb' : l'.input.head? = some b) : Agrees R (l.takeToken b) (l'.takeToken b) := by
  rw [Lexer.takeToken, Lexer.takeToken]
  split_ifs with hhash
  · subst hhash
    exact h.takeComment hR hb hb'
  · exact h.take hR hb hb' namePattern () _
  · exact h.endLine hR hb hb'
  · exact h.take hR hb hb' numberPattern .zero _
  · exact h.take hR hb hb' numberPattern .whole _
  · exact h.take hR hb hb' stringPattern .inside _
  · exact ⟨rfl, h.advance hR hb hb'⟩

/-- A token, with the space in front of it. -/
theorem Agree.scanToken (h : Agree R l l') : Agrees R l.scanToken l'.scanToken := by
  obtain ⟨bs, place, j, j', hm, hm', hj, hhead⟩ := h.munch hR gapPattern .between
  have hrun := (Input.munched gapPattern .between l.input).run
  rw [hm] at hrun
  obtain @⟨input, tabSize, h⟩ := h
  let skipped := bs.take (bs.length - place.excess)
  have hagree : Agree R { l with input := j, line := l.line + skipped.count '\n'.toUInt8 }
      { l with input := j', tabSize, line := l.line + skipped.count '\n'.toUInt8 } := .mk hj
  simp only [Lexer.scanToken, hm, hm']
  split_ifs with hexcess
  · obtain rfl := eq_between_of_excess hrun hexcess
    rw [← hhead rfl]
    cases hb : j.head? with
    | some b =>
      exact (hagree.takeToken hR hb ((hhead rfl).symm.trans hb)).map
        fun x => { x with skipped := skipped ++ x.skipped }
    | none => exact (hagree.atEnd hR).map fun x => { x with skipped := skipped ++ x.skipped }
  · exact ⟨rfl, hagree.fault hR .badContinuation⟩

/-- With one tab size, a line begins at the same column. -/
theorem Agree.beginLine (h : Agree R l l') (htab : l.tabSize = l'.tabSize) :
    ∃ blanks f m m', l.beginLine = (blanks, f, m) ∧ l'.beginLine = (blanks, f, m') ∧
      Agree R m m' := by
  obtain @⟨input, tabSize, h⟩ := h
  obtain rfl : l.tabSize = tabSize := htab
  cases hstart : l.lineStart with
  | false =>
    refine ⟨[], none, l, { l with input }, ?_, ?_, .mk h⟩
    · rw [Lexer.beginLine, hstart, if_neg Bool.false_ne_true]
    · simp only [Lexer.beginLine, hstart, if_neg Bool.false_ne_true]
  | true =>
    -- the pattern depends on the tab size, so both must have the same
    obtain ⟨bs, column, j, j', hm, hm', hj, -⟩ :=
      (Agree.mk h : Agree R l { l with input }).munch hR (columnPattern l.tabSize) 0
    have hagree : Agree R { l with lineStart := false, line := l.line + 1, input := j }
        { l with lineStart := false, line := l.line + 1, input := j' } := .mk hj
    simp only [Lexer.beginLine, hstart, if_true, hm, hm', ← hagree.status hR]
    split_ifs with herror
    · exact ⟨_, _, _, _, rfl, rfl, hagree⟩
    · exact ⟨_, _, _, _, rfl, rfl, .mk hj⟩

theorem Agree.scan (h : Agree R l l') (htab : l.tabSize = l'.tabSize) :
    Agrees R l.scan l'.scan := by
  obtain ⟨blanks, f, m, m', hbegin, hbegin', hm⟩ := h.beginLine hR htab
  rw [Lexer.scan, Lexer.scan, hbegin, hbegin']
  cases f with
  | some f => exact ⟨rfl, hm.fault hR f⟩
  | none =>
    simp only [← hm.status hR]
    split_ifs with herror
    · exact ⟨rfl, hm⟩
    · obtain @⟨input, tabSize, h⟩ := hm
      cases hnext : m.indentation.next? with
      | some r => exact ⟨rfl, .mk h⟩
      | none =>
        exact ((Agree.mk h).scanToken hR).map fun x => { x with skipped := blanks ++ x.skipped }

theorem Agree.get (h : Agree R l l') (htab : l.tabSize = l'.tabSize) :
    Agrees R l.get l'.get := by
  have hscan := h.scan hR htab
  obtain @⟨input, tabSize, h⟩ := h
  rw [Lexer.get, Lexer.get]
  split_ifs with hlatched
  · exact ⟨rfl, .mk h⟩
  · generalize l.scan = r at hscan ⊢
    generalize ({ l with input, tabSize } : Lexer).scan = r' at hscan ⊢
    obtain ⟨x, m⟩ := r
    obtain ⟨x', m'⟩ := r'
    obtain ⟨rfl, ⟨hm⟩⟩ := hscan
    exact ⟨rfl, .mk hm⟩

end Parallel

/-! ## Comments that come next -/

/-- The input that begins with the comment in front of the next token, if there is
    such a comment. -/
def comment? (l : Lexer) : Option Input :=
  let (_, fault, m) := l.beginLine
  let (_, place, input) := m.input.munch gapPattern .between
  if l.latched = false ∧ fault = none ∧ m.status.isError = false ∧ m.indentation.next? = none ∧
      place = .between ∧ input.head? = some '#'.toUInt8
  then some input else none

theorem tabSize_beginLine (l : Lexer) : l.beginLine.2.2.tabSize = l.tabSize := by
  unfold beginLine
  split_ifs
  · simp only
    split_ifs <;> rfl
  · rfl

theorem tabSize_fault (l : Lexer) (f : Fault) : (l.fault f).tabSize = l.tabSize := by
  obtain ⟨input, heq⟩ := exists_fault_eq l f
  rw [heq]

theorem tabSize_take {σ : Type} (l : Lexer) (b : UInt8) (p : Pattern σ) (s : σ)
    (verdict : σ → Token.Kind ⊕ Fault) : (l.take b p s verdict).2.tabSize = l.tabSize := by
  simp only [take]
  cases verdict (Input.munch p s l.input.advance).2.1 with
  | inl kind => rfl
  | inr f => exact tabSize_fault _ f

theorem tabSize_takeComment (l : Lexer) : (l.takeComment b).2.tabSize =
    tabSizeAfter l.input.advance.pending l.tabSize := by
  simp only [takeComment, obeyComment_eq]
  split <;> rfl

theorem tabSize_takeToken (l : Lexer) (hb : b ≠ '#'.toUInt8) :
    (l.takeToken b).2.tabSize = l.tabSize := by
  rw [takeToken, if_neg hb]
  split_ifs
  · exact tabSize_take l b _ _ _
  · rfl
  · exact tabSize_take l b _ _ _
  · exact tabSize_take l b _ _ _
  · exact tabSize_take l b _ _ _
  · rfl

/-- A comment is met where the space in front of a token ends with a hash mark. -/
theorem tabSize_scanToken (l : Lexer) {bs : Bytes} {place : GapPlace}
    (hm : l.input.munch gapPattern .between = (bs, place, i)) : l.scanToken.2.tabSize =
      if place = .between ∧ i.head? = some '#'.toUInt8
      then tabSizeAfter i.advance.pending l.tabSize else l.tabSize := by
  have hrun := (Input.munched gapPattern .between l.input).run
  rw [hm] at hrun
  simp only [scanToken, hm]
  by_cases hexcess : place.excess = 0
  · obtain rfl := eq_between_of_excess hrun hexcess
    simp only [GapPlace.excess, if_true, true_and]
    cases hhead : i.head? with
    | none =>
      rw [if_neg (Option.some_ne_none _).symm]
      rfl
    | some b =>
      by_cases hb : b = '#'.toUInt8
      · subst hb
        rw [if_pos rfl]
        show (takeToken _ _).2.tabSize = _
        rw [takeToken, if_pos rfl]
        exact tabSize_takeComment _
      · rw [if_neg fun h => hb (Option.some.inj h)]
        exact tabSize_takeToken _ hb
  · have hplace : place ≠ .between := by
      rintro rfl
      exact hexcess rfl
    rw [if_neg hexcess, if_neg fun h => hplace h.1]
    exact tabSize_fault _ _

/-- Only a comment changes the tab size. -/
theorem tabSize_get (l : Lexer) : l.get.2.tabSize =
    (l.comment?.map fun i => tabSizeAfter i.advance.pending l.tabSize).getD l.tabSize := by
  obtain ⟨blanks, f, m, hbegin⟩ : ∃ blanks f m, l.beginLine = (blanks, f, m) := ⟨_, _, _, rfl⟩
  obtain ⟨gap, place, i, hm⟩ : ∃ gap place i,
    m.input.munch gapPattern .between = (gap, place, i) := ⟨_, _, _, rfl⟩
  have htab : m.tabSize = l.tabSize := by
    have htab := tabSize_beginLine l
    rwa [hbegin] at htab
  simp only [comment?, hbegin, hm]
  cases hlatched : l.latched with
  | true =>
    rw [get, if_pos hlatched, if_neg fun h => by cases h.1]
    rfl
  | false =>
    have hget : l.get.2.tabSize = l.scan.2.tabSize := by
      rw [get, hlatched, if_neg Bool.false_ne_true]
    rw [hget, scan, hbegin]
    cases f with
    | some f =>
      rw [if_neg fun h => by cases h.2.1]
      exact (tabSize_fault m f).trans htab
    | none =>
      cases herror : m.status.isError with
      | true =>
        rw [if_neg fun h => by cases h.2.2.1]
        simp only [herror, if_true]
        exact htab
      | false =>
        simp only [herror, Bool.false_eq_true, if_false, true_and]
        cases hnext : m.indentation.next? with
        | some r =>
          rw [if_neg fun h => by cases h.1]
          exact htab
        | none =>
          have htoken := tabSize_scanToken m hm
          rw [htab] at htoken
          simp only [true_and]
          split_ifs at htoken ⊢ with hcomment
          · exact htoken
          · exact htoken

theorem Agree.comment? (hR : Input.Parallel R) (h : Agree R l l') (htab : l.tabSize = l'.tabSize) :
    Option.Rel R l.comment? l'.comment? := by
  obtain ⟨blanks, f, m, m', hbegin, hbegin', hm⟩ := h.beginLine hR htab
  obtain ⟨gap, place, j, j', hmunch, hmunch', hj, hhead⟩ := hm.munch hR gapPattern .between
  have hlatched : l'.latched = l.latched := by
    obtain ⟨-⟩ := h
    rfl
  have hnext : m'.indentation = m.indentation := by
    obtain ⟨-⟩ := hm
    rfl
  simp only [Lexer.comment?, hbegin, hbegin', hmunch, hmunch', hlatched, hnext, ← hm.status hR]
  by_cases hplace : place = .between
  · rw [← hhead (hplace ▸ rfl)]
    split_ifs
    · exact .some hj
    · exact .none
  · rw [if_neg fun h => hplace h.2.2.2.2.1, if_neg fun h => hplace h.2.2.2.2.1]
    exact .none

theorem head?_of_comment? (h : l.comment? = some i) : i.head? = some '#'.toUInt8 := by
  simp only [Lexer.comment?] at h
  split_ifs at h with hcomment
  cases h
  exact hcomment.2.2.2.2.2

/-- With one tab size, lexers that agree go on with one tab size where the comment
    that comes next, if any, sets the same. -/
theorem Agree.tabSize_get_iff (hR : Input.Parallel R) (h : Agree R l l')
    (htab : l.tabSize = l'.tabSize) : l.get.2.tabSize = l'.get.2.tabSize ↔
      ∀ i i', l.comment? = some i → l'.comment? = some i' → R i i' →
        tabSizeAfter i.advance.pending l.tabSize = tabSizeAfter i'.advance.pending l.tabSize := by
  have hcomment := h.comment? hR htab
  rw [tabSize_get, tabSize_get, ← htab]
  generalize l.comment? = o at hcomment ⊢
  generalize l'.comment? = o' at hcomment ⊢
  cases hcomment with
  | none => exact iff_of_true rfl fun _ _ hi => by cases hi
  | @some j j' hj =>
    simp only [Option.map_some, Option.getD_some]
    refine ⟨fun heq i i' hi hi' _ => ?_, fun hall => hall j j' rfl rfl hj⟩
    rwa [← Option.some.inj hi, ← Option.some.inj hi']

/-! ## Runs and calls -/

/-- Whether lexers agree, on the tab size too. -/
structure Match (R : Input → Input → Prop) (l l' : Lexer) : Prop where
  agree : Agree R l l'
  tabSize : l.tabSize = l'.tabSize

theorem Agree.withFinished (h : Agree R l l') (finished : Bool) :
    Agree R { l with finished } { l' with finished } := by
  obtain ⟨h⟩ := h
  exact .mk h

theorem Agree.finished (h : Agree R l l') : l'.finished = l.finished := by
  obtain ⟨-⟩ := h
  rfl

section Indistinct

variable (hR : Input.Indistinct R)
include hR

theorem Match.answers (h : Match R l l') : l.answers = l'.answers :=
  (h.agree.answers hR.toParallel).2 h.tabSize

theorem Match.get (h : Match R l l') : l.get.1 = l'.get.1 ∧ Match R l.get.2 l'.get.2 := by
  obtain ⟨hfst, hsnd⟩ := h.agree.get hR.toParallel h.tabSize
  have htab := h.agree.tabSize_get_iff hR.toParallel h.tabSize
  refine ⟨hfst, hsnd, htab.2 fun i i' hi hi' hrel => ?_⟩
  rw [tabSizeAfter, tabSizeAfter, hR.directive hrel (head?_of_comment? hi) (head?_of_comment? hi')]

/-- The program breaks off for both or for none. -/
theorem Match.breaksOff (h : Match R l l') : l.breaksOff = l'.breaksOff := by
  have htab := h.tabSize
  obtain ⟨bs, column, j, j', hm, hm', -⟩ :=
    h.agree.munch hR.toParallel (columnPattern l.tabSize) 0
  rw [Lexer.breaksOff, Lexer.breaksOff, ← htab, hm, hm']
  obtain ⟨-⟩ := h.agree
  rfl

theorem Match.next? (h : Match R l l') :
    Option.Rel (fun r r' => r.1 = r'.1 ∧ Match R r.2 r'.2) l.next? l'.next? := by
  obtain ⟨hfst, hsnd⟩ := h.get hR
  rw [next?_eq, next?_eq, h.agree.finished, ← hfst]
  split_ifs
  · exact .none
  · exact .some ⟨rfl, hsnd.agree.withFinished _, hsnd.tabSize⟩

theorem Match.runFor (h : Match R l l') (n : Nat) :
    (l.runFor n).map Lexer.seen = (l'.runFor n).map Lexer.seen := by
  induction n generalizing l l' with
  | zero => rfl
  | succ n ih =>
    have hnext := h.next? hR
    rw [Lexer.runFor, Lexer.runFor]
    generalize l.next? = o at hnext ⊢
    generalize l'.next? = o' at hnext ⊢
    cases hnext with
    | none => rfl
    | some hr => exact congrArg₂ List.cons (Prod.ext hr.1 (hr.2.answers hR)) (ih hr.2)

theorem Match.run (h : Match R l l') (hbound : l.bound = l'.bound) :
    l.run.map Lexer.seen = l'.run.map Lexer.seen := by
  rw [Lexer.run, Lexer.run, hbound]
  exact h.runFor hR l'.bound

/-- One call hands out the same. An interrupt must not tell the inputs apart. -/
theorem Match.call {h h' : History} (hmatch : Match R h.lexer h'.lexer)
    (hevents : h.events = h'.events) {c : Call}
    (hc : c = .interrupt → ∀ l l', Match R l l' → Match R l.interrupt l'.interrupt) :
    Match R (h.call c).lexer (h'.call c).lexer ∧ (h.call c).events = (h'.call c).events := by
  have hreceive : ∀ {r r' : Token × Lexer}, r.1 = r'.1 ∧ Match R r.2 r'.2 →
      Match R (h.receive r).lexer (h'.receive r').lexer ∧
        (h.receive r).events = (h'.receive r').events := fun hr =>
    ⟨hr.2, by rw [History.receive, History.receive, hevents, hr.1]⟩
  cases c with
  | get => exact hreceive (hmatch.get hR)
  | next =>
    have hnext := hmatch.next? hR
    rw [History.call, History.call]
    generalize h.lexer.next? = o at hnext ⊢
    generalize h'.lexer.next? = o' at hnext ⊢
    cases hnext with
    | none => exact ⟨hmatch, hevents⟩
    | some hr => exact hreceive hr
  | recover =>
    -- where nothing is interrupted, there is nothing to recover from
    have hstatus := hmatch.agree.status hR.toParallel
    have hne : h.lexer.status ≠ .interrupted := hR.uninterrupted hmatch.agree.input
    rw [History.call, History.call, recover?, recover?, if_neg hne, if_neg (hstatus ▸ hne)]
    exact ⟨hmatch, hevents⟩
  | interrupt => exact ⟨hc rfl _ _ hmatch, hevents⟩

theorem Match.calls {h h' : History} (hmatch : Match R h.lexer h'.lexer)
    (hevents : h.events = h'.events) (calls : List Call)
    (hcalls : .interrupt ∈ calls → ∀ l l', Match R l l' → Match R l.interrupt l'.interrupt) :
    Match R (h.calls calls).lexer (h'.calls calls).lexer ∧
      (h.calls calls).events = (h'.calls calls).events := by
  induction calls generalizing h h' with
  | nil => exact ⟨hmatch, hevents⟩
  | cons c calls ih =>
    obtain ⟨hmatch', hevents'⟩ := hmatch.call hR hevents
      fun hc => hcalls (hc ▸ List.mem_cons_self)
    exact ih hmatch' hevents' fun hmem => hcalls (List.mem_cons_of_mem c hmem)

end Indistinct

end ScriptCore.Lexer
