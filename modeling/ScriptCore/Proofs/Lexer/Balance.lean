import ScriptCore.Proofs.Lexer.Errors
import ScriptCore.Proofs.Lexer.Indentation
import ScriptCore.Proofs.Lexer.LongestMatch

/-!
# Balance

Levels are closed where a line begins, and nowhere else. So at the end of a text
those are open that the line begun last left open, and all are closed after a line
that begins at the left margin, as the empty one does behind the last newline.

* `EndsLine`: texts that end with the end of a line.
* `Closing`: lexers for which all levels are closed when their text ends.
* `Settled`: what holds on the way through a text, through every call.
* `levels_balance`: what follows for all texts without an error.
-/

namespace ScriptCore.Lexer

open Token (Kind)

/-! ## Texts that end a line -/

/-- Whether a text ends with a newline that no backslash keeps from ending its line. -/
def EndsLine (bs : Bytes) : Prop :=
  ∃ line, bs = line ++ ['\n'.toUInt8] ∧ ¬['\\'.toUInt8] <:+ line ∧
    ¬['\\'.toUInt8, '\r'.toUInt8] <:+ line

/-- Whether the text of a lexer ends with the end of a line, or has ended where the
    levels are closed or will be. -/
def Closing (l : Lexer) : Prop :=
  EndsLine l.input.rest ∨ l.input.rest = [] ∧ (l.lineStart = true ∨ l.indentation.column = 0)

variable {bs bs' blanks : Bytes} {kind : Kind} {w : Bytes} {status : Status} {l l' m : Lexer}
  {x : Lexeme} {limit : Nat} {h : History} {t : Token}

theorem EndsLine.mem (h : EndsLine bs) : '\n'.toUInt8 ∈ bs := by
  obtain ⟨line, rfl, -⟩ := h
  exact List.mem_append_right line List.mem_cons_self

/-- Of two parts of a text that ends a line the second one ends it, unless it is empty. -/
theorem EndsLine.of_append (h : EndsLine (bs ++ bs')) :
    EndsLine bs' ∨ bs' = [] ∧ EndsLine bs := by
  rcases List.eq_nil_or_concat' bs' with rfl | ⟨line', b, rfl⟩
  · exact .inr ⟨rfl, List.append_nil bs ▸ h⟩
  · obtain ⟨line, heq, hbackslash, hreturned⟩ := h
    rw [← List.append_assoc] at heq
    obtain ⟨rfl, hb⟩ := List.append_inj' heq rfl
    refine .inl ⟨line', congrArg (line' ++ ·) hb, fun hs => hbackslash ?_, fun hs => hreturned ?_⟩
    · exact hs.trans (List.suffix_append _ _)
    · exact hs.trans (List.suffix_append _ _)

/-- The newlines of a gap end no line. -/
theorem Gap.not_endsLine (h : Gap bs) : ¬EndsLine bs := by
  induction h with
  | nil => exact fun hends => List.not_mem_nil hends.mem
  | @blank b bs hb _ ih =>
    intro hends
    have hends' : EndsLine ([b] ++ bs) := hends
    rcases hends'.of_append with hends | ⟨-, hends⟩
    · exact ih hends
    · obtain rfl := List.mem_singleton.1 hends.mem
      exact absurd hb (by decide)
  | @line bs _ ih =>
    intro hends
    have hends' : EndsLine (['\\'.toUInt8] ++ ['\n'.toUInt8] ++ bs) := hends
    rcases hends'.of_append with hends | ⟨-, hends⟩
    · exact ih hends
    · obtain ⟨line, heq, hbackslash, -⟩ := hends
      obtain ⟨rfl, -⟩ := List.append_inj' heq rfl
      exact hbackslash List.suffix_rfl
  | @returned bs _ ih =>
    intro hends
    have hends' : EndsLine (['\\'.toUInt8, '\r'.toUInt8] ++ ['\n'.toUInt8] ++ bs) := hends
    rcases hends'.of_append with hends | ⟨-, hends⟩
    · exact ih hends
    · obtain ⟨line, heq, -, hreturned⟩ := hends
      obtain ⟨rfl, -⟩ := List.append_inj' heq rfl
      exact hreturned List.suffix_rfl

theorem Precedes.not_endsLine (h : Precedes bs bs') : ¬EndsLine bs := by
  cases h with
  | gap hgap => exact hgap.not_endsLine
  | comment _ htext _ =>
    intro hends
    have hmem := (hends.of_append.resolve_right fun h => List.cons_ne_nil _ _ h.1).mem
    exact htext (List.mem_of_ne_of_mem (by decide) hmem)

/-- Of the tokens, only a newline is spelled with one. -/
theorem LongestMatch.newline_notMem (h : LongestMatch bs kind w status) (herror : kind ≠ .error)
    (hkind : kind ≠ .newline) : '\n'.toUInt8 ∉ w := by
  cases h with
  | endMarker => exact List.not_mem_nil
  | name _ hlongest => exact newline_notMem_names hlongest.mem
  | number _ hlongest => exact newline_notMem_numbers hlongest.mem
  | string hlongest => exact newline_notMem_strings hlongest.mem
  | unterminated => exact absurd rfl herror
  | backslash => exact absurd rfl herror
  | newline => exact absurd rfl hkind
  | symbol _ _ hb =>
    intro hmem
    exact hb (List.mem_singleton.1 hmem ▸ by simp)

/-! ## Lexers -/

/-- A line that begins at the end of a text begins at the left margin. -/
theorem Closing.beginLine (h : Closing l) (hsound : l.indentation.Sound l.maxIndent)
    (howed : l.lineStart = true → l.indentation.owed = 0) (hbegin : l.beginLine = (blanks, none, m))
    (hstatus : m.status.isError = false) :
    EndsLine m.input.rest ∨ m.input.rest = [] ∧ m.indentation.column = 0 := by
  have hbegins := begins_of_eq hbegin
  have hrest := hbegins.rest
  rcases h with hends | ⟨hnil, hclosed⟩
  · -- the blanks at the beginning of a line cannot be all that is left
    rw [hrest] at hends
    exact .inl (hends.of_append.resolve_right fun h => (hbegins.gap hstatus).not_endsLine h.2)
  · rw [hnil] at hrest
    obtain ⟨rfl, hm⟩ := List.append_eq_nil_iff.1 hrest.symm
    refine .inr ⟨hm, ?_⟩
    cases hbegins with
    | within hstart => exact hclosed.resolve_left (by rw [hstart]; exact Bool.false_ne_true)
    | stopped _ _ herror => exact absurd herror (Bool.eq_false_iff.1 hstatus)
    | entered hstart _ _ _ henter => exact (hsound.enter (howed hstart) henter).2.2 rfl

theorem Takes.lineStart_of_newline (h : Takes l x l') (hkind : x.kind = .newline) :
    l'.lineStart = true := by
  cases h with
  | spelled _ hspells _ =>
    obtain rfl : _ = Kind.newline := hkind
    cases hspells.isSpelled
  | newline => rfl
  | endMarker => cases hkind
  | stopped => cases hkind
  | fault => cases hkind

/-- A token that ends a text that ends a line is a newline. -/
theorem Closing.scanToken
    (hm : EndsLine m.input.rest ∨ m.input.rest = [] ∧ m.indentation.column = 0)
    (hend : m.input.ending = .endOfInput) (herror : m.scanToken.1.kind ≠ .error) :
    Closing m.scanToken.2 := by
  have htakes := takes_scanToken m
  have hrest := (htakes.accounts herror).rest
  rcases hm with hends | ⟨hnil, hcolumn⟩
  · rw [hrest] at hends
    refine hends.of_append.imp_right fun hends => ⟨hends.1, .inl ?_⟩
    refine htakes.lineStart_of_newline ?_
    by_contra hkind
    obtain ⟨rest, -, hprecedes, hmatch⟩ := finds_scanToken hend
    -- neither the space in front of the token nor the token itself ends a line
    rcases hends.2.of_append with hends | ⟨-, hends⟩
    · exact hmatch.newline_notMem herror hkind hends.mem
    · exact hprecedes.not_endsLine hends
  · rw [hnil] at hrest
    refine .inr ⟨(List.append_eq_nil_iff.1 hrest.symm).2, .inr ?_⟩
    rw [htakes.keeps.indentation, hcolumn]

/-- A token that is handed out without an error keeps this. -/
theorem Closing.scan (h : Closing l) (hsound : l.indentation.Sound l.maxIndent)
    (howed : l.lineStart = true → l.indentation.owed = 0) (hend : l.input.ending = .endOfInput)
    (herror : l.scan.1.kind ≠ .error) : Closing l.scan.2 := by
  obtain ⟨blanks, f, m, hbegin⟩ : ∃ blanks f m, l.beginLine = (blanks, f, m) := ⟨_, _, _, rfl⟩
  rw [Lexer.scan, hbegin] at herror ⊢
  cases f with
  | some f => exact absurd rfl herror
  | none =>
    have hend' : m.input.ending = .endOfInput := (begins_of_eq hbegin).ending.trans hend
    have hstatus : m.status.isError = false := isError_of_ending hend'
    have hm := h.beginLine hsound howed hbegin hstatus
    simp only [hstatus, Bool.false_eq_true, if_false] at herror ⊢
    cases hnext : m.indentation.next? with
    | some r =>
      have hlevels : r.2.levels = m.indentation.levels := (Indentation.next?_eq_some hnext).1
      refine hm.imp_right fun hclosed => ⟨hclosed.1, .inr ?_⟩
      rw [← hclosed.2, Indentation.column, Indentation.column, ← hlevels]
    | none =>
      rw [hnext] at herror
      exact Closing.scanToken hm hend' herror

/-- Without an error, the column of a line that begins is measured. -/
theorem isSome_lineColumn? (hend : l.input.ending = .endOfInput)
    (herror : l.scan.1.kind ≠ .error) : l.lineColumn?.isSome = true := by
  obtain ⟨blanks, f, m, hbegin⟩ : ∃ blanks f m, l.beginLine = (blanks, f, m) := ⟨_, _, _, rfl⟩
  rw [scan, hbegin] at herror
  rw [lineColumn?, hbegin]
  cases f with
  | some f => exact absurd rfl herror
  | none =>
    have hend' : m.input.ending = .endOfInput := (begins_of_eq hbegin).ending.trans hend
    have hstatus : m.status.isError = false := isError_of_ending hend'
    simp only [hstatus, Bool.false_eq_true, if_false]
    rfl

/-! ## Every use of a lexer -/

/-- What holds on the way through a text: the levels that were opened are in order,
    no error goes untold, each line that began was measured, all levels are closed
    where the text ends a line, and nothing comes after an end marker. -/
structure Settled (limit : Nat) (bs : Bytes) (h : History) : Prop where
  orderly : Orderly limit h
  through : Through bs h.lexer
  told : h.lexer.latched = true → ∃ t, .token t ∈ h.events ∧ t.kind = .error
  measured : h.lexer.latched = false → h.lexer.lineStart = true ∨ h.column.isSome = true
  closing : h.lexer.latched = false → bs = [] ∨ EndsLine bs → Closing h.lexer
  ended : h.lexer.latched = false → ∀ t, h.events.getLast? = some (.token t) →
    t.kind = .endMarker → AtRest t h.lexer

theorem settled_start {source : Source} (hsource : source.Delivers bs) (options : Options) :
    Settled (max 1 options.maxIndent) bs (.start source options) where
  orderly := orderly_start source options
  through := through_start hsource options
  told := nofun
  measured := fun _ => .inl rfl
  closing := fun _ hbs => by
    have hrest : (start source options).input.rest = bs := rest_start hsource options
    exact hbs.symm.imp (hrest.symm ▸ ·) fun hnil => ⟨hrest.trans hnil, .inl rfl⟩
  ended := fun _ _ => nofun

/-- A token is handed out. -/
theorem Settled.receive (hsettled : Settled limit bs h) (finished : Bool) :
    Settled limit bs (h.receive (h.lexer.get.1, { h.lexer.get.2 with finished })) := by
  obtain ⟨horderly, hthrough, htold, hmeasured, hclosing, -⟩ := hsettled
  have hgets := gets_get h.lexer
  -- without an error behind the token there was none before it, and it tells of none
  have hclean : h.lexer.get.2.latched = false →
      h.lexer.latched = false ∧ h.lexer.scan.1.kind ≠ .error := fun hl => by
    have hneither := not_or.1 (mt hgets.latched_iff.2 (Bool.eq_false_iff.1 hl))
    have hlatched := Bool.eq_false_iff.2 hneither.1
    rw [get_eq hlatched] at hneither
    exact ⟨hlatched, hneither.2⟩
  refine ⟨horderly.token hgets finished, { hthrough.get with }, fun hl => ?_, fun hl => .inr ?_,
    fun hl hbs => ?_, fun hl t ht hkind => ?_⟩
  · rcases hgets.latched_iff.1 hl with hlatched | hkind
    · obtain ⟨t, ht, hkind⟩ := htold hlatched
      exact ⟨t, List.mem_append_left _ ht, hkind⟩
    · exact ⟨_, List.mem_append_right _ List.mem_cons_self, hkind⟩
  · obtain ⟨hlatched, herror⟩ := hclean hl
    show (if h.lexer.lineStart = true ∧ ¬h.lexer.latched = true then h.lexer.lineColumn?
      else h.column).isSome = true
    split_ifs with hstart
    · exact isSome_lineColumn? (hthrough.ending hlatched) herror
    · exact (hmeasured hlatched).resolve_left fun hs =>
        hstart ⟨hs, Bool.eq_false_iff.1 hlatched⟩
  · obtain ⟨hlatched, herror⟩ := hclean hl
    have hcounted := horderly.counted
    have hscan := (hclosing hlatched hbs).scan (hcounted.maxIndent ▸ hcounted.sound)
      hcounted.owed_eq_zero (hthrough.ending hlatched) herror
    rw [get_eq hlatched]
    exact hscan
  · obtain ⟨hlatched, -⟩ := hclean hl
    simp only [History.receive, List.getLast?_concat, Option.some.injEq, Event.token.injEq] at ht
    subst ht
    exact (hgets.atRest_of_endMarker hkind hlatched).withSource finished _

theorem Settled.call (hsettled : Settled limit bs h) {c : Call} (hc : c ≠ .interrupt) :
    Settled limit bs (h.call c) := by
  cases c with
  | get => exact hsettled.receive h.lexer.get.2.finished
  | next =>
    rw [History.call, next?_eq]
    split_ifs
    · exact hsettled
    · exact hsettled.receive _
  | recover =>
    rw [History.call, hsettled.through.recover?_eq_none]
    exact hsettled
  | interrupt => exact absurd rfl hc

theorem settled_calls {source : Source} (hsource : source.Delivers bs) (options : Options)
    {calls : List Call} (hcalls : .interrupt ∉ calls) :
    Settled (max 1 options.maxIndent) bs ((History.start source options).calls calls) :=
  History.uninterrupted_induction (settled_start hsource options)
    (fun _ _ hsettled hc => hsettled.call hc) hcalls

theorem Settled.latched_eq_false (hsettled : Settled limit bs h)
    (herror : ∀ t, .token t ∈ h.events → t.kind ≠ .error) : h.lexer.latched = false := by
  refine Bool.eq_false_iff.2 fun hl => ?_
  obtain ⟨t, ht, hkind⟩ := hsettled.told hl
  exact herror t ht hkind

/-- At the end of a text that ends a line, the line begun last is at the left margin. -/
theorem Settled.column_eq_zero (hsettled : Settled limit bs h) (hlatched : h.lexer.latched = false)
    (hstatus : h.lexer.status = .endOfInput) (hstart : h.lexer.lineStart = false)
    (hbs : bs = [] ∨ EndsLine bs) : h.lexer.indentation.column = 0 := by
  rcases hsettled.closing hlatched hbs with hends | ⟨-, hclosed⟩
  · have hne : h.lexer.input.status ≠ .ok := by
      rw [← status, hstatus]
      decide
    rw [Input.rest_of_ne_ok hne] at hends
    exact absurd hends.mem List.not_mem_nil
  · exact hclosed.resolve_left (by rw [hstart]; exact Bool.false_ne_true)

/-- The number of tokens of a kind is the number of events that tell one. -/
theorem countP_events (ts : List Token) (kind : Kind) :
    (ts.map Event.token).countP (·.kind? = some kind) = ts.countP (·.kind = kind) := by
  rw [List.countP_map]
  exact List.countP_congr fun t _ => by simp [Event.kind?]

theorem sinceRecovery_tokens (ts : List Token) :
    sinceRecovery (ts.map .token) = ts.map .token :=
  List.rtakeWhile_eq_self_iff.2 fun e he => by
    obtain ⟨t, -, rfl⟩ := List.mem_map.1 he
    rfl

/-- Where a text that comes in any way has no error, up to its end marker there are as
    many tokens that open a level as that close one and levels that are open at the
    end; none is open exactly if the line begun last begins at the left margin, as it
    does where the text is empty or ends with a newline that no backslash precedes. -/
theorem levels_balance {source : Source} (hsource : source.Delivers bs) (options : Options)
    (herror : ∀ t ∈ (start source options).tokens, t.kind ≠ .error) :
    let l := start source options
    let h := (History.start source options).calls (List.replicate l.bound .next)
    (h.events = l.tokens.map .token ∧ ∃ ts t, l.tokens = ts ++ [t] ∧ t.kind = .endMarker) ∧
      l.tokens.countP (·.kind = .indent) = l.tokens.countP (·.kind = .dedent) + h.lexer.depth ∧
      (h.lexer.depth = 0 ↔ h.column = some 0) ∧
      (bs = [] ∨ EndsLine bs → h.lexer.depth = 0) := by
  intro l h
  have hevents : h.events = l.tokens.map .token := by
    have hevents := (History.start source options).events_calls_next l.bound
    rw [tokens, run, List.map_map]
    exact hevents
  obtain ⟨ts, t, ht, hkind⟩ := exists_tokens_eq_concat (l := l) rfl rfl herror
  have hsettled : Settled (max 1 options.maxIndent) bs h :=
    settled_calls hsource options (by simp)
  have hlatched : h.lexer.latched = false := by
    refine hsettled.latched_eq_false fun t ht => ?_
    rw [hevents, List.mem_map] at ht
    obtain ⟨t', ht', heq⟩ := ht
    exact Event.token.inj heq ▸ herror t' ht'
  -- at the end marker the input has ended, and no change of level is owed
  obtain ⟨hstatus, hstart, hnext⟩ : h.lexer.status = .endOfInput ∧ h.lexer.lineStart = false ∧
      h.lexer.indentation.next? = none := by
    refine (hsettled.ended hlatched t ?_ hkind).ended_of_not_latched hlatched
    rw [hevents, ht, List.map_append]
    exact List.getLast?_concat
  have howed := Indentation.owed_of_next?_eq_none hnext
  obtain ⟨c, hc⟩ := Option.isSome_iff_exists.1
    ((hsettled.measured hlatched).resolve_left (by rw [hstart]; exact Bool.false_ne_true))
  have hcolumn : h.lexer.indentation.column = c := hsettled.orderly.column c hc
  have hcounted := hsettled.orderly.counted
  have hdepth : h.lexer.depth = 0 ↔ h.lexer.indentation.column = 0 :=
    hcounted.sound.depth_eq_zero_iff
  refine ⟨⟨hevents, ts, t, ht, hkind⟩, ?_, ?_, fun hbs => ?_⟩
  · have hbalance := hcounted.balance
    rw [hevents, sinceRecovery_tokens, opened, countP_events, countP_events, howed] at hbalance
    omega
  · rw [hdepth, hcolumn, hc, Option.some_inj]
  · exact hdepth.2 (hsettled.column_eq_zero hlatched hstatus hstart hbs)

/-- The text `a`, a line that begins further to the right, and one that is empty, line
    by line. -/
theorem levels_balance_of_block :
    let bs := Bytes.ofString "a\n b\n"
    let l := start (.ofLines bs) {}
    (Source.ofLines bs).Delivers bs ∧ (∀ t ∈ l.tokens, t.kind ≠ .error) ∧ EndsLine bs ∧
      l.tokens.countP (·.kind = .indent) = 1 ∧
      ((History.start (.ofLines bs) {}).calls (List.replicate l.bound .next)).lexer.depth = 0 := by
  intro bs l
  have hsource := Source.delivers_ofLines bs
  have herror : ∀ t ∈ l.tokens, t.kind ≠ .error := by decide +kernel
  have hends : EndsLine bs := ⟨Bytes.ofString "a\n b", by decide, by decide, by decide⟩
  exact ⟨hsource, herror, hends, by decide +kernel,
    (levels_balance hsource {} herror).2.2.2 (.inr hends)⟩

/-- The same text without its last newline leaves a level open. -/
theorem level_left_open :
    let l := start (.ofBytes (Bytes.ofString "a\n b")) {}
    l.tokens.map (·.kind) = [.name, .newline, .indent, .name, .endMarker] ∧
      l.run.map (·.2.depth) = [0, 0, 1, 1, 1] := by
  decide +kernel

end ScriptCore.Lexer
