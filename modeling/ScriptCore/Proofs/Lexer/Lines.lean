import ScriptCore.Proofs.Lexer.Agreement

/-!
# Lines

A text comes at once, or line by line, and the tokens tell of it only where a
comment sets the tab size by what is not on its own line: all the bytes at hand
are looked at for a directive, and of a text that comes at once these are more.

* `Confined`: texts whose comments set the tab size only by their own lines.
* `Input.Divided`: inputs that bring a text at once and line by line.
* `Heeds`: whether a lexer comes upon no comment that sets the tab size by more.
* `lines_agree_iff`: what follows for all texts.
* `lines_differ`: a text that can be told from its lines.
-/

namespace ScriptCore.Lexer

/-! ## Texts and their lines -/

/-- Whether each comment in a text sets the tab size as the rest of its own line
    does alone. -/
def Confined (bs : Bytes) : Prop :=
  ∀ before after, bs = before ++ '#'.toUInt8 :: after →
    TabDirective.parse? after = TabDirective.parse? ((Source.lines after).headD [])

section Confined

variable {b : UInt8} {bs : Bytes}

theorem confined_nil : Confined [] :=
  fun _ _ heq => absurd heq.symm (List.append_ne_nil_of_right_ne_nil _ (List.cons_ne_nil _ _))

theorem Confined.of_append (before : Bytes) (h : Confined (before ++ bs)) : Confined bs := by
  rintro before' after rfl
  exact h (before ++ before') after (List.append_assoc ..).symm

theorem confined_cons : Confined (b :: bs) ↔ (b = '#'.toUInt8 →
    TabDirective.parse? bs = TabDirective.parse? ((Source.lines bs).headD [])) ∧ Confined bs := by
  refine ⟨fun h => ⟨?_, h.of_append [b]⟩, fun ⟨hb, hbs⟩ before after heq => ?_⟩
  · rintro rfl
    exact h [] bs rfl
  · rcases List.cons_eq_append_iff.1 heq with ⟨-, heq⟩ | ⟨before', -, heq⟩
    · obtain ⟨rfl, rfl⟩ := List.cons.inj heq
      exact hb rfl
    · exact hbs before' after heq

instance decidableConfined : DecidablePred Confined
  | [] => isTrue confined_nil
  | _ :: bs =>
    have := decidableConfined bs
    decidable_of_iff' _ confined_cons

example : Confined (Bytes.ofString "# vi:set tabsize=4\n\tx\n") := by
  decide +kernel

example : ¬Confined (Bytes.ofString "#\nvi:set tabsize=4\n") := by
  decide +kernel

end Confined

namespace Source

variable {b : UInt8} {bs l more : Bytes} {ls : List Bytes}

theorem lines_cons_of_ne (hb : b ≠ '\n'.toUInt8) :
    lines (b :: bs) = (b :: (lines bs).headD []) :: (lines bs).tail := by
  rw [lines, if_neg hb]
  cases lines bs <;> rfl

/-- The lines after the first one are the lines of what comes after it. -/
theorem lines_flatten_of_cons (h : lines bs = l :: ls) : lines ls.flatten = ls := by
  induction bs generalizing l ls with
  | nil => cases h
  | cons b bs ih =>
    by_cases hb : b = '\n'.toUInt8
    · rw [lines, if_pos hb] at h
      obtain ⟨-, rfl⟩ := List.cons.inj h
      rw [flatten_lines]
    · rw [lines_cons_of_ne hb] at h
      obtain ⟨-, rfl⟩ := List.cons.inj h
      cases hlines : lines bs with
      | nil => rfl
      | cons m ms => exact ih hlines

/-- The rest of a first line is the first line of the rest, if anything is left of it. -/
theorem lines_of_lines_cons (h : lines (b :: (bs ++ more)) = (b :: bs) :: ls) :
    bs = [] ∨ lines (bs ++ more) = bs :: ls := by
  by_cases hb : b = '\n'.toUInt8
  · rw [lines, if_pos hb] at h
    exact .inl (List.cons.inj (List.cons.inj h).1).2.symm
  · rw [lines_cons_of_ne hb] at h
    obtain ⟨hline, rfl⟩ := List.cons.inj h
    obtain ⟨-, hbs⟩ := List.cons.inj hline
    cases hlines : lines (bs ++ more) with
    | nil =>
      rw [hlines] at hbs
      exact .inl hbs.symm
    | cons l ls =>
      rw [hlines] at hbs
      exact .inr (congrArg (· :: ls) hbs)

end Source

/-! ## Inputs -/

namespace Input

variable {σ : Type} {i i' : Input} {b : UInt8}

/-- Whether all that is still to come of an input comes at once. -/
structure Whole (i : Input) : Prop where
  interrupted : i.source.interrupted = false
  reads : i.source.reads = [] ∨ i.pending = [] ∧ ∃ b bs, i.source.reads = [.bytes (b :: bs)]

/-- Whether an input comes line by line: what is at hand is the first line of what
    is left. -/
structure Lined (i : Input) : Prop where
  interrupted : i.source.interrupted = false
  reads : ∃ bs, i.source.reads = (Source.lines bs).map .bytes ∧
    (i.pending = [] ∨ Source.lines (i.pending ++ bs) = i.pending :: Source.lines bs)

theorem source_advance (i : Input) : i.advance.source = i.source := by
  unfold advance
  split <;> rfl

/-- Reading leaves an input as it is, or puts at hand what one read brings. -/
theorem fill_eq_or (i : Input) : i.fill = i ∨ i.fill.source = i.source.next.2 ∧
    (i.fill.pending = [] ∨ i.source.next.1 = .bytes i.fill.pending) := by
  unfold fill
  split
  · next hp =>
    have hshow : i.showPrompt.pending = [] := (pending_showPrompt i).trans hp
    generalize i.source.next = r
    obtain ⟨read, source⟩ := r
    refine .inr ?_
    match read with
    | .bytes [] => exact ⟨rfl, .inl hshow⟩
    | .bytes (b :: bs) => exact ⟨rfl, .inr rfl⟩
    | .endOfInput => exact ⟨rfl, .inl hshow⟩
    | .interrupted => exact ⟨rfl, .inl hshow⟩
    | .failed _ => exact ⟨rfl, .inl hshow⟩
  · exact .inl rfl

theorem Whole.fill (h : i.Whole) : i.fill.Whole := by
  rcases i.fill_eq_or with heq | ⟨hsource, -⟩
  · rwa [heq]
  · have hnext : i.fill.source.interrupted = false ∧ i.fill.source.reads = [] := by
      rw [hsource, Source.next, if_neg (Bool.eq_false_iff.1 h.interrupted)]
      rcases h.reads with hreads | ⟨-, b, bs, hreads⟩
      · rw [hreads]
        exact ⟨h.interrupted, hreads⟩
      · rw [hreads]
        exact ⟨h.interrupted, rfl⟩
    exact ⟨hnext.1, .inl hnext.2⟩

theorem Whole.reads_of_head? (h : i.Whole) (hb : i.head? = some b) : i.source.reads = [] := by
  obtain ⟨-, bs, hp⟩ := exists_pending_of_head? hb
  exact h.reads.resolve_right fun ⟨hnil, _⟩ => List.cons_ne_nil b bs (hp.symm.trans hnil)

theorem Whole.advance (h : i.Whole) (hb : i.head? = some b) : i.advance.Whole where
  interrupted := i.source_advance ▸ h.interrupted
  reads := .inl (i.source_advance ▸ h.reads_of_head? hb)

/-- What is at hand is all that is left. -/
theorem Whole.pending_advance (h : i.Whole) (hb : i.head? = some b) :
    i.advance.pending = i.advance.rest := by
  have hok := (exists_pending_of_head? hb).1
  have hflow : i.source.flow.1 = [] := by
    rw [Source.flow, if_neg (Bool.eq_false_iff.1 h.interrupted), h.reads_of_head? hb]
    rfl
  rw [rest_of_ok ((status_advance i).trans hok), source_advance, hflow, List.append_nil]

theorem Lined.fill (h : i.Lined) : i.fill.Lined := by
  rcases i.fill_eq_or with heq | ⟨hsource, hpending⟩
  · rwa [heq]
  · obtain ⟨bs, hreads, -⟩ := h.reads
    rw [Source.next, if_neg (Bool.eq_false_iff.1 h.interrupted), hreads] at hsource hpending
    cases hlines : Source.lines bs with
    | nil =>
      rw [hlines] at hsource hpending hreads
      have hnil : i.fill.pending = [] := hpending.resolve_right nofun
      exact ⟨hsource ▸ h.interrupted, bs, by rw [hsource, hlines]; exact hreads, .inl hnil⟩
    | cons l ls =>
      rw [hlines] at hsource hpending
      have hlater : Source.lines ls.flatten = ls := Source.lines_flatten_of_cons hlines
      refine ⟨hsource ▸ h.interrupted, ls.flatten, by rw [hsource, hlater]; rfl, ?_⟩
      refine hpending.imp_right fun hl => ?_
      -- the line that was read is cut off from the text, and the others are its lines still
      have hbs : l ++ ls.flatten = bs := by rw [← List.flatten_cons, ← hlines, Source.flatten_lines]
      obtain rfl : l = i.fill.pending := Read.bytes.inj hl
      rw [hlater, hbs, hlines]

theorem Lined.exists_rest (h : i.Lined) (hb : i.head? = some b) : ∃ bs more,
    i.pending = b :: bs ∧ i.source.reads = (Source.lines more).map .bytes ∧
      i.advance.pending = bs ∧ i.advance.rest = bs ++ more ∧
      Source.lines (b :: bs ++ more) = (b :: bs) :: Source.lines more := by
  obtain ⟨hok, bs, hp⟩ := exists_pending_of_head? hb
  obtain ⟨more, hreads, hpending⟩ := h.reads
  have hadvance : i.advance.pending = bs := by rw [Input.advance, hp]
  have hflow : i.source.flow.1 = more := by
    rw [Source.flow, if_neg (Bool.eq_false_iff.1 h.interrupted), hreads]
    exact (congrArg Prod.fst (Source.delivers_ofLines more))
  refine ⟨bs, more, hp, hreads, hadvance, ?_, ?_⟩
  · rw [rest_of_ok ((status_advance i).trans hok), source_advance, hflow, hadvance]
  · have hlines := hpending.resolve_left fun hnil => List.cons_ne_nil b bs (hp.symm.trans hnil)
    rwa [hp] at hlines

theorem Lined.advance (h : i.Lined) (hb : i.head? = some b) : i.advance.Lined := by
  obtain ⟨bs, more, -, hreads, hadvance, -, hlines⟩ := h.exists_rest hb
  refine ⟨i.source_advance ▸ h.interrupted, more, i.source_advance ▸ hreads, ?_⟩
  rw [hadvance]
  exact Source.lines_of_lines_cons hlines

/-- What is at hand inside of a line is what is left of it. -/
theorem Lined.pending_advance (h : i.Lined) (hb : i.head? = some b) (hline : b ≠ '\n'.toUInt8) :
    i.advance.pending = (Source.lines i.advance.rest).headD [] := by
  obtain ⟨bs, more, -, -, hadvance, hrest, hlines⟩ := h.exists_rest hb
  rw [List.cons_append, Source.lines_cons_of_ne hline] at hlines
  rw [hadvance, hrest]
  exact (List.cons.inj (List.cons.inj hlines).1).2.symm

/-- Whether one input brings at once what another one brings line by line. -/
structure Divided (i i' : Input) : Prop where
  same : i.Same i'
  whole : i.Whole
  lined : i'.Lined
  ending : i.ending ≠ .interrupted

theorem Divided.munch (h : i.Divided i') (p : Pattern σ) (s : σ) :
    (Input.munch p s i).2.2.Divided (Input.munch p s i').2.2 := by
  obtain ⟨bs, s', j, j', hm, hm', hsame, -⟩ := h.same.munch p s
  have hmunched := munched p s i
  refine ⟨by rwa [hm, hm'], ?_, ?_, hmunched.ending ▸ h.ending⟩
  · exact munch_induction (P := Whole) (fun _ => Whole.fill) (fun _ _ hb h => h.advance hb) p s
      h.whole
  · exact munch_induction (P := Lined) (fun _ => Lined.fill) (fun _ _ hb h => h.advance hb) p s
      h.lined

theorem parallel_divided : Parallel Divided where
  same := Divided.same
  uninterrupted := fun {i _} h hs => h.ending (by
    rw [ending_of_ne_ok (by rw [hs]; decide), hs])
  munch := fun h _ p s => h.munch p s
  advance := fun {i _ _} h hb hb' => ⟨h.same.advance hb hb', h.whole.advance hb,
    h.lined.advance hb', i.ending_advance ▸ h.ending⟩
  fault := fun h _ => ⟨⟨rfl, rfl, rfl⟩, { h.whole with }, { h.lined with }, nofun⟩

/-- Where a comment begins, all the rest of the text is at hand, and the rest of the
    line. -/
theorem Divided.pending_advance (h : i.Divided i') (hb : i.head? = some '#'.toUInt8)
    (hb' : i'.head? = some '#'.toUInt8) : i.advance.pending = i.advance.rest ∧
      i'.advance.pending = (Source.lines i.advance.rest).headD [] := by
  refine ⟨h.whole.pending_advance hb, ?_⟩
  rw [(h.same.advance hb hb').rest]
  exact h.lined.pending_advance hb' (by decide)

theorem indistinct_divided : Indistinct fun i i' => Divided i i' ∧ Confined i.rest where
  same := fun h => h.1.same
  uninterrupted := fun h => parallel_divided.uninterrupted h.1
  munch := fun {i _} h _ p s =>
    ⟨h.1.munch p s, ((munched p s i).rest ▸ h.2).of_append _⟩
  advance := fun {_ _ b} h hb hb' =>
    ⟨parallel_divided.advance h.1 hb hb', (rest_advance hb ▸ h.2).of_append [b]⟩
  fault := fun h f => ⟨parallel_divided.fault h.1 f, confined_nil⟩
  directive := fun {i _} h hb hb' => by
    obtain ⟨hpending, hpending'⟩ := h.1.pending_advance hb hb'
    rw [hpending, hpending']
    exact h.2 [] i.advance.rest (rest_advance hb)

end Input

/-! ## A text and its lines -/

theorem divided_start (bs : Bytes) (options : Options) :
    (start (.ofBytes bs) options).input.Divided (start (.ofLines bs) options).input where
  same := Input.same_start (Source.delivers_ofBytes bs) (Source.delivers_ofLines bs) options
  whole := by
    refine ⟨rfl, ?_⟩
    show (Source.ofBytes bs).reads = [] ∨ _
    cases bs with
    | nil => exact .inl rfl
    | cons b bs => exact .inr ⟨rfl, b, bs, rfl⟩
  lined := ⟨rfl, bs, rfl, .inl rfl⟩
  ending := (ending_start (Source.delivers_ofBytes bs) options).symm ▸ nofun

/-- Whether the comment that comes next, if any, sets the tab size as the rest of its
    own line does alone. -/
def Heeds (l : Lexer) : Prop :=
  ∀ i, l.comment? = some i → tabSizeAfter i.advance.rest l.tabSize =
    tabSizeAfter ((Source.lines i.advance.rest).headD []) l.tabSize

/-- The lexers that the tokens of a run from a lexer were asked of. -/
def asked (l : Lexer) : List (Token × Lexer) → List Lexer
  | [] => []
  | (_, l') :: rs => l :: asked l' rs

variable {l l' : Lexer}

/-- A text at once and its lines leave one tab size behind a token where the comment
    in front of it sets it by its own line. -/
theorem tabSize_eq_iff_heeds (h : Agree Input.Divided l l') (htab : l.tabSize = l'.tabSize) :
    l.get.2.tabSize = l'.get.2.tabSize ↔ l.Heeds := by
  have hpending : ∀ {i i'}, l.comment? = some i → l'.comment? = some i' → i.Divided i' →
      i.advance.pending = i.advance.rest ∧
        i'.advance.pending = (Source.lines i.advance.rest).headD [] := fun hi hi' hdivided =>
    hdivided.pending_advance (head?_of_comment? hi) (head?_of_comment? hi')
  rw [h.tabSize_get_iff Input.parallel_divided htab]
  refine ⟨fun hall i hi => ?_, fun hheeds i i' hi hi' hdivided => ?_⟩
  · -- a comment that comes next at once comes next line by line too
    have hcomment := h.comment? Input.parallel_divided htab
    rw [hi] at hcomment
    generalize hi' : l'.comment? = o' at hcomment
    obtain @⟨_, i', hdivided⟩ := hcomment
    obtain ⟨heq, heq'⟩ := hpending hi hi' hdivided
    rw [← heq', ← hall i i' hi hi' hdivided, heq]
  · obtain ⟨heq, heq'⟩ := hpending hi hi' hdivided
    rw [heq, heq']
    exact hheeds i hi

/-- A run on a text at once and one on its lines tell them apart at the first comment
    that does not set the tab size by its own line. -/
theorem runFor_eq_iff (h : Agree Input.Divided l l') (htab : l.tabSize = l'.tabSize) (n : Nat) :
    (l.runFor n).map seen = (l'.runFor n).map seen ↔ ∀ m ∈ l.asked (l.runFor n), m.Heeds := by
  induction n generalizing l l' with
  | zero => exact iff_of_true rfl (List.forall_mem_nil _)
  | succ n ih =>
    obtain ⟨hfst, hsnd⟩ := h.get Input.parallel_divided htab
    rw [runFor_succ, runFor_succ, h.finished, ← hfst]
    split_ifs
    · exact iff_of_true rfl (List.forall_mem_nil _)
    · have hnext := hsnd.withFinished (decide (l.get.1.kind = .endMarker))
      have hanswers := hnext.answers Input.parallel_divided
      rw [List.map_cons, List.map_cons, List.cons_eq_cons, asked, List.forall_mem_cons,
        ← tabSize_eq_iff_heeds h htab]
      -- up to the tab size, what is seen of the first token is the same
      refine (and_congr_left' ?_).trans (and_congr_right fun htab' => ih hnext htab')
      exact ⟨fun heq => hanswers.1 (congrArg Prod.snd heq),
        fun heq => Prod.ext rfl (hanswers.2 heq)⟩

/-- A text that comes line by line is handed out as if it came at once, with the same
    answers after each token, exactly if each comment that is come upon sets the tab
    size by its own line; so it is, by a run and by any calls, where all the comments
    in the text do. -/
theorem lines_agree_iff (bs : Bytes) (options : Options) :
    let l := start (.ofBytes bs) options
    let l' := start (.ofLines bs) options
    (l.run.map seen = l'.run.map seen ↔ ∀ m ∈ l.asked l.run, m.Heeds) ∧
      (Confined bs → l.run.map seen = l'.run.map seen ∧
        ∀ calls : List Call, .interrupt ∉ calls →
          let h := (History.start (.ofBytes bs) options).calls calls
          let h' := (History.start (.ofLines bs) options).calls calls
          h.events = h'.events ∧ h.lexer.answers = h'.lexer.answers) := by
  intro l l'
  have hdivided : l.input.Divided l'.input := divided_start bs options
  have hsize : (Source.ofBytes bs).size = (Source.ofLines bs).size :=
    (Source.size_ofBytes bs).trans (Source.size_ofLines bs).symm
  have hbound : l.bound = l'.bound := bound_start hsize options
  refine ⟨?_, fun hconfined => ?_⟩
  · rw [run, run, ← hbound]
    exact runFor_eq_iff (.mk hdivided) rfl l.bound
  · have hrest : l.input.rest = bs := rest_start (Source.delivers_ofBytes bs) options
    have hmatch : Match (fun i i' => Input.Divided i i' ∧ Confined i.rest) l l' :=
      ⟨.mk ⟨hdivided, hrest.symm ▸ hconfined⟩, rfl⟩
    refine ⟨hmatch.run Input.indistinct_divided hbound, fun calls hcalls => ?_⟩
    have hstart : (History.start (.ofBytes bs) options).events =
        (History.start (.ofLines bs) options).events := rfl
    obtain ⟨hlexers, hevents⟩ := hmatch.calls Input.indistinct_divided hstart calls
      fun hmem => absurd hmem hcalls
    exact ⟨hevents, hlexers.answers Input.indistinct_divided⟩

/-- A comment that is empty, before a line that reads like a comment for the tab
    size, but is none. At once it sets the tab size, and line by line it does not. -/
theorem lines_differ :
    let bs := Bytes.ofString "#\nvi:set tabsize=4\n"
    (start (.ofBytes bs) {}).run.map (fun r => (r.1.kind, r.1.line, r.2.tabSize)) =
        [(.newline, 1, 4), (.name, 2, 4), (.colon, 2, 4), (.name, 2, 4), (.name, 2, 4),
          (.equal, 2, 4), (.number, 2, 4), (.newline, 2, 4), (.endMarker, 3, 4)] ∧
      (start (.ofLines bs) {}).run.map (fun r => (r.1.kind, r.1.line, r.2.tabSize)) =
        [(.newline, 1, 8), (.name, 2, 8), (.colon, 2, 8), (.name, 2, 8), (.name, 2, 8),
          (.equal, 2, 8), (.number, 2, 8), (.newline, 2, 8), (.endMarker, 3, 8)] := by
  decide +kernel

end ScriptCore.Lexer
