import ScriptCore.Proofs.Lexer.Coming
import ScriptCore.Proofs.Lexer.Errors

/-!
# Line numbers

A token tells the line that it stands on: the newlines in front of it are counted,
whether they ended a line, or stood behind a backslash or a comment.

* `Input.content`: all that was read and not yet taken, and all that may still be
  read. No byte of it is lost by reading (`content_fill`).
* `Counts`: how the line is counted by one lexeme, an error or not (`counts_scan`).
* `Numbered`: what the count comes to on the way through a source.
* `line_eq_newlines`: what follows for all calls on all sources.
-/

namespace ScriptCore.Lexer

open Token (Kind)

variable {l l' l'' : Lexer} {b : UInt8} {bs skipped bytes : Bytes} {x : Lexeme} {h : History}

/-! ## Bytes to come -/

namespace Source

theorem text_next (s : Source) : s.next.1.content ++ s.next.2.text = s.text := by
  rw [next]
  split_ifs
  · rfl
  · cases hreads : s.reads with
    | nil => rfl
    | cons r rs => rw [text, text, hreads, List.flatMap_cons]

theorem text_ofBytes (bs : Bytes) : (ofBytes bs).text = bs := by
  rw [text, ofBytes]
  split_ifs with hbs
  · exact hbs.symm
  · exact List.append_nil bs

theorem text_ofLines (bs : Bytes) : (ofLines bs).text = bs :=
  text_of_lines rfl

end Source

namespace Input

variable {i : Input}

theorem fill_of_nil (hok : i.status = .ok) (hp : i.pending = []) : i.fill =
    ({ i.showPrompt with source := i.source.next.2 }).receive i.source.next.1 := by
  rw [fill, hok, hp]

theorem fill_of_ne_nil (hp : i.pending ≠ []) : i.fill = i := by
  rw [fill]
  split
  · next h => exact absurd h hp
  · rfl

theorem advance_eq (hp : i.pending = b :: bs) :
    i.advance = { i with pending := bs, midLine := b ≠ '\n'.toUInt8 } := by
  rw [advance, hp]

/-- What was read and not yet taken, and what the source brings after it. -/
def content (i : Input) : Bytes :=
  i.pending ++ i.source.text

theorem content_fill (i : Input) : i.fill.content = i.content := by
  by_cases hp : i.pending = []
  · by_cases hok : i.status = .ok
    · obtain ⟨hsource, houtcome⟩ := fill_of_pending_eq_nil hok hp
      have hpending : i.fill.pending = i.source.next.1.content := by
        rw [(Prod.mk.inj houtcome).2]
        match i.source.next.1 with
        | .bytes [] | .bytes (_ :: _) | .endOfInput | .interrupted | .failed _ => rfl
      rw [content, content, hsource, hpending, i.source.text_next, hp, List.nil_append]
    · rw [fill_of_ne_ok hok]
  · rw [fill_of_ne_nil hp]

theorem content_advance (hb : i.head? = some b) : i.content = b :: i.advance.content := by
  obtain ⟨-, bs, hp⟩ := exists_pending_of_head? hb
  rw [content, content, advance_eq hp, hp, List.cons_append]

theorem content_munch {σ : Type} (p : Pattern σ) (s : σ) (i : Input) :
    i.content = (munch p s i).1 ++ (munch p s i).2.2.content := by
  fun_induction munch p s i with
  | case1 => rfl
  | case2 s i => exact i.content_fill.symm
  | case3 s i => exact i.content_fill.symm
  | case4 s i _ b hb _ _ _ ih => rw [← i.content_fill, content_advance hb, ih]; rfl

end Input

theorem content_fault (l : Lexer) (f : Fault) : (l.fault f).input.content = l.input.content := by
  rw [fault]
  split_ifs <;> rfl

/-! ## One lexeme -/

/-- How a lexeme moves a lexer on: by its bytes and those in front of it, of which the
    newlines are counted. That of the lexeme itself, if any, begins another line. -/
structure Counts (l : Lexer) (x : Lexeme) (l' : Lexer) : Prop where
  content : l.input.content = x.skipped ++ x.bytes ++ l'.input.content
  line : l'.line = l.line + l.lineStart.toNat + x.skipped.count '\n'.toUInt8
  lineStart : x.kind ≠ .error → l'.lineStart.toNat = x.bytes.count '\n'.toUInt8

/-- What is passed over in front of a lexeme and its space is counted too. -/
theorem Counts.skip (h : Counts l' x l'') (hcontent : l.input.content = skipped ++ l'.input.content)
    (hline : l'.line + l'.lineStart.toNat =
      l.line + l.lineStart.toNat + skipped.count '\n'.toUInt8) :
    Counts l { x with skipped := skipped ++ x.skipped } l'' where
  content := by rw [hcontent, h.content, List.append_assoc, List.append_assoc, List.append_assoc]
  line := by rw [h.line, hline, List.count_append, Nat.add_assoc]
  lineStart := h.lineStart

theorem line_fault (l : Lexer) (f : Fault) : (l.fault f).line = l.line := by
  obtain ⟨input, heq⟩ := exists_fault_eq l f
  rw [heq]

theorem counts_fault (f : Fault) (hcontent : l.input.content = skipped ++ bytes ++ l'.input.content)
    (hline : l'.line = l.line + l.lineStart.toNat + skipped.count '\n'.toUInt8) :
    Counts l { kind := .error, skipped, bytes } (l'.fault f) where
  content := by rw [hcontent, content_fault]
  line := by rw [line_fault, hline]
  lineStart := fun herror => absurd rfl herror

/-- What is taken by a pattern, if only what is at fault has a newline. -/
theorem counts_take {σ : Type} (hb : l.input.head? = some b) (hstart : l.lineStart = false)
    (p : Pattern σ) (s : σ) (verdict : σ → Kind ⊕ Fault)
    (hverdict : ∀ bs kind, verdict (p.run s bs).2 = .inl kind →
      '\n'.toUInt8 ∉ b :: (p.run s bs).1) :
    Counts l (l.take b p s verdict).1 (l.take b p s verdict).2 := by
  obtain ⟨bs, s', input, hmunch, hmunched⟩ := Input.exists_munched p s l.input.advance
  have hcontent : l.input.content = [] ++ b :: bs ++ input.content := by
    have hrest := Input.content_munch p s l.input.advance
    rw [hmunch] at hrest
    rw [Input.content_advance hb, hrest]
    rfl
  have hline : l.line = l.line + l.lineStart.toNat + ([] : Bytes).count '\n'.toUInt8 := by
    rw [hstart]
    rfl
  simp only [take, hmunch]
  cases hv : verdict s' with
  | inr f =>
    exact counts_fault f hcontent hline
  | inl kind =>
    have hnewline := hverdict l.input.advance.rest kind (by rw [hmunched.run]; exact hv)
    rw [hmunched.run] at hnewline
    refine ⟨hcontent, hline, fun _ => ?_⟩
    rw [List.count_eq_zero.2 hnewline]
    exact congrArg Bool.toNat hstart

theorem counts_endLine (hb : l.input.head? = some '\n'.toUInt8) (hstart : l.lineStart = false) :
    Counts l (l.endLine '\n'.toUInt8).1 (l.endLine '\n'.toUInt8).2 where
  content := Input.content_advance hb
  line := by
    rw [hstart]
    rfl
  lineStart := fun _ => rfl

theorem counts_atEnd (hstart : l.lineStart = false) : Counts l l.atEnd.1 l.atEnd.2 where
  content := rfl
  line := by
    rw [hstart]
    rfl
  lineStart := fun _ => congrArg Bool.toNat hstart

theorem counts_takeComment (hb : l.input.head? = some '#'.toUInt8) (hstart : l.lineStart = false) :
    Counts l (l.takeComment '#'.toUInt8).1 (l.takeComment '#'.toUInt8).2 := by
  obtain ⟨bs, s', input, hmunch, hmunched⟩ :=
    Input.exists_munched commentPattern () l.advance.obeyComment.input
  obtain ⟨htext, hline⟩ := comment_of_munched hmunched
  have hcontent : l.input.content = '#'.toUInt8 :: bs ++ input.content := by
    have hrest := Input.content_munch commentPattern () l.advance.obeyComment.input
    rw [hmunch, obeyComment_eq] at hrest
    rw [Input.content_advance hb]
    exact congrArg _ hrest
  have hcount : ('#'.toUInt8 :: bs).count '\n'.toUInt8 = 0 :=
    List.count_eq_zero.2 (List.not_mem_cons_of_ne_of_not_mem (by decide) htext)
  have hskip {x : Lexeme} {l' : Lexer} (hx : Counts { l.advance.obeyComment with input } x l') :=
    hx.skip (l := l) hcontent (by rw [hcount, obeyComment_eq]; rfl)
  have hstart' : l.advance.obeyComment.lineStart = false := by
    rw [obeyComment_eq]
    exact hstart
  simp only [takeComment, hmunch]
  cases hhead : input.head? with
  | none =>
    rw [← List.append_nil ('#'.toUInt8 :: bs)]
    exact hskip (counts_atEnd hstart')
  | some c =>
    obtain rfl := hline c ((hmunched.head rfl).symm.trans hhead)
    rw [← List.append_nil ('#'.toUInt8 :: bs)]
    exact hskip (counts_endLine hhead hstart')

theorem newline_notMem_run_names (hb : Byte.beginsName b = true) (bs : Bytes) :
    '\n'.toUInt8 ∉ b :: (namePattern.run () bs).1 :=
  newline_notMem_names (isLongest_names hb).mem

theorem newline_notMem_run_numbers {place : NumberPlace} (hb : numberStep .start b = some place)
    (bs : Bytes) : '\n'.toUInt8 ∉ b :: (numberPattern.run place bs).1 :=
  newline_notMem_numbers (isLongest_numbers hb).mem

theorem newline_notMem_run_strings (h : (stringPattern.run .inside bs).2 = .closed) :
    '\n'.toUInt8 ∉ '\''.toUInt8 :: (stringPattern.run .inside bs).1 :=
  newline_notMem_strings (isLongest_strings h).mem

theorem counts_takeToken (hb : l.input.head? = some b) (hstart : l.lineStart = false) :
    Counts l (l.takeToken b).1 (l.takeToken b).2 := by
  rw [takeToken]
  -- only a newline and a string that is at fault have a newline
  split_ifs with hhash hname hnewline hzero hdigit hquote
  · subst hhash
    exact counts_takeComment hb hstart
  · exact counts_take hb hstart _ _ _ fun bs _ _ => newline_notMem_run_names hname bs
  · subst hnewline
    exact counts_endLine hb hstart
  · subst hzero
    exact counts_take hb hstart _ _ _ fun bs _ _ => newline_notMem_run_numbers rfl bs
  · have hwhole : numberStep .start b = some .whole := by
      rw [numberStep, if_neg hzero, if_pos hdigit]
    exact counts_take hb hstart _ _ _ fun bs _ _ => newline_notMem_run_numbers hwhole bs
  · subst hquote
    refine counts_take hb hstart _ _ _ fun bs kind hv => newline_notMem_run_strings ?_
    by_contra hopen
    rw [if_neg hopen] at hv
    cases hv
  · refine ⟨Input.content_advance hb, ?_, fun _ => ?_⟩
    · rw [hstart]
      rfl
    · rw [List.count_eq_zero.2 (mt List.mem_singleton.1 (Ne.symm hnewline))]
      exact congrArg Bool.toNat hstart

theorem counts_scanToken (hstart : l.lineStart = false) :
    Counts l l.scanToken.1 l.scanToken.2 := by
  obtain ⟨bs, place, input, hmunch, hmunched⟩ :=
    Input.exists_munched gapPattern .between l.input
  have hcontent : l.input.content = bs ++ input.content := by
    have hrest := Input.content_munch gapPattern .between l.input
    rwa [hmunch] at hrest
  simp only [scanToken, hmunch]
  let skipped := bs.take (bs.length - place.excess)
  let m : Lexer := { l with input, line := l.line + skipped.count '\n'.toUInt8 }
  have hline : m.line = l.line + l.lineStart.toNat + skipped.count '\n'.toUInt8 := by
    rw [hstart]
    rfl
  by_cases hexcess : place.excess = 0
  · have hskipped : skipped = bs := by
      rw [show skipped = bs.take (bs.length - place.excess) from rfl, hexcess]
      exact List.take_length
    have hskip {x : Lexeme} {l' : Lexer} (hx : Counts m x l') :=
      hx.skip (l := l) (hskipped ▸ hcontent)
        ((congrArg (m.line + Bool.toNat ·) hstart).trans hline)
    rw [if_pos hexcess]
    cases hhead : input.head? with
    | none => exact hskip (counts_atEnd hstart)
    | some b => exact hskip (counts_takeToken hhead hstart)
  · rw [if_neg hexcess]
    refine counts_fault .badContinuation ?_ hline
    have hlength : skipped.length = bs.length - place.excess :=
      List.length_take_of_le (Nat.sub_le _ _)
    rw [hcontent, hlength, List.take_append_drop]

/-- The blanks at the beginning of a line have no newline, and the line is counted. -/
theorem beginLine_counts {blanks : Bytes} {f : Option Fault} (hbegin : l.beginLine = (blanks, f, l')) :
    l.input.content = blanks ++ l'.input.content ∧ l'.line = l.line + l.lineStart.toNat ∧
      blanks.count '\n'.toUInt8 = 0 := by
  rw [beginLine] at hbegin
  split_ifs at hbegin with hstart
  · obtain ⟨bs, column, input, hmunch, hmunched⟩ :=
      Input.exists_munched (columnPattern l.tabSize) 0 l.input
    have hcontent := Input.content_munch (columnPattern l.tabSize) 0 l.input
    have hnewline : '\n'.toUInt8 ∉ bs := fun hmem => by
      have hblank := Pattern.forall_mem_run (fun _ _ _ h => (columnPattern_step h).1) 0
        l.input.rest '\n'.toUInt8 (by rwa [hmunched.run])
      cases hblank
    rw [hmunch] at hcontent
    rw [hstart]
    simp only [hmunch] at hbegin
    split_ifs at hbegin
    · cases hbegin
      exact ⟨hcontent, rfl, List.count_eq_zero.2 hnewline⟩
    · cases hbegin
      exact ⟨hcontent, rfl, List.count_eq_zero.2 hnewline⟩
  · cases hbegin
    rw [Bool.eq_false_iff.2 hstart]
    exact ⟨rfl, rfl, rfl⟩

/-- Every scan counts the newlines that it passes over. -/
theorem counts_scan (l : Lexer) : Counts l l.scan.1 l.scan.2 := by
  obtain ⟨blanks, f, m, hbegin⟩ : ∃ blanks f m, l.beginLine = (blanks, f, m) := ⟨_, _, _, rfl⟩
  obtain ⟨hcontent, hline, hcount⟩ := beginLine_counts hbegin
  have hstart : m.lineStart = false := (begins_of_eq hbegin).lineStart
  have hline' : m.line = l.line + l.lineStart.toNat + blanks.count '\n'.toUInt8 := by
    rw [hline, hcount, Nat.add_zero]
  have hcontent' : l.input.content = blanks ++ [] ++ m.input.content := by
    rwa [List.append_nil]
  rw [scan, hbegin]
  cases f with
  | some f => exact counts_fault f hcontent' hline'
  | none =>
    simp only
    split_ifs
    · exact ⟨hcontent', hline', fun herror => absurd rfl herror⟩
    · cases m.indentation.next? with
      | some r => exact ⟨hcontent', hline', fun _ => congrArg Bool.toNat hstart⟩
      | none =>
        refine (counts_scanToken hstart).skip hcontent ?_
        rw [hstart]
        exact hline'

/-! ## Every use of a lexer -/

/-- What holds on the way through a source, until the lexer recovers: unless there was an
    error, the lines that were begun, and the one that is about to begin, are counted by
    the newlines in what was taken. -/
structure Numbered (bs : Bytes) (h : History) : Prop where
  counted : h.lexer.latched = false → ∃ before, bs = before ++ h.lexer.input.content ∧
    h.lexer.line + h.lexer.lineStart.toNat = 1 + before.count '\n'.toUInt8
  told : h.lexer.latched = true → ∃ t, .token t ∈ h.events ∧ t.kind = .error

theorem numbered_start (source : Source) (options : Options) :
    Numbered source.text (.start source options) :=
  ⟨fun _ => ⟨[], rfl, rfl⟩, nofun⟩

theorem Numbered.latched_eq_false (hnumbered : Numbered bs h)
    (herror : ∀ t, .token t ∈ h.events → t.kind ≠ .error) : h.lexer.latched = false := by
  refine Bool.eq_false_iff.2 fun hlatched => ?_
  obtain ⟨t, ht, hkind⟩ := hnumbered.told hlatched
  exact herror t ht hkind

/-- A token stands behind what was taken before it and what is passed over in front of
    it. -/
theorem Numbered.scan (hnumbered : Numbered bs h) (hlatched : h.lexer.latched = false) :
    ∃ before, bs = before ++ (h.lexer.scan.1.bytes ++ h.lexer.scan.2.input.content) ∧
      h.lexer.scan.2.line = 1 + before.count '\n'.toUInt8 := by
  obtain ⟨before, hbs, hline⟩ := hnumbered.counted hlatched
  have hcounts := counts_scan h.lexer
  refine ⟨before ++ h.lexer.scan.1.skipped, ?_, ?_⟩
  · rw [hbs, hcounts.content, List.append_assoc, List.append_assoc]
  · rw [hcounts.line, hline, List.count_append, Nat.add_assoc]

theorem Numbered.receive (hnumbered : Numbered bs h) (finished : Bool) :
    Numbered bs (h.receive (h.lexer.get.1, { h.lexer.get.2 with finished })) := by
  have hgets := gets_get h.lexer
  refine ⟨fun hl => ?_, fun hl => ?_⟩
  · obtain ⟨hlatched, herror⟩ := not_or.1 (mt hgets.latched_iff.2 (Bool.eq_false_iff.1 hl))
    rw [Bool.not_eq_true] at hlatched
    obtain ⟨before, hbs, hline⟩ := hnumbered.scan hlatched
    rw [get_eq hlatched] at herror ⊢
    have hstart := (counts_scan h.lexer).lineStart herror
    refine ⟨before ++ h.lexer.scan.1.bytes, ?_, ?_⟩
    · rwa [List.append_assoc]
    · show h.lexer.scan.2.line + h.lexer.scan.2.lineStart.toNat = _
      rw [hline, hstart, List.count_append, Nat.add_assoc]
  · rcases hgets.latched_iff.1 hl with hlatched | hkind
    · obtain ⟨t, ht, hkind⟩ := hnumbered.told hlatched
      exact ⟨t, List.mem_append_left _ ht, hkind⟩
    · exact ⟨_, List.mem_append_right _ List.mem_cons_self, hkind⟩

theorem Numbered.call (hnumbered : Numbered bs h) {c : Call} (hc : c ≠ .recover) :
    Numbered bs (h.call c) := by
  cases c with
  | get => exact hnumbered.receive h.lexer.get.2.finished
  | next =>
    rw [History.call, next?_eq]
    split_ifs
    · exact hnumbered
    · exact hnumbered.receive _
  | recover => exact absurd rfl hc
  | interrupt => exact ⟨hnumbered.counted, hnumbered.told⟩

theorem Numbered.calls (hnumbered : Numbered bs h) {calls : List Call} (hcalls : .recover ∉ calls) :
    Numbered bs (h.calls calls) := by
  induction calls generalizing h with
  | nil => exact hnumbered
  | cons c calls ih =>
    obtain ⟨hc, hcalls⟩ := not_or.1 (mt List.mem_cons.2 hcalls)
    exact ih (hnumbered.call (Ne.symm hc)) hcalls

/-- A newline is spelled with one byte, and what tells a level or the end with none. -/
theorem Scans.bytes_eq (h : Scans l x l') : (x.kind = .newline → x.bytes = ['\n'.toUInt8]) ∧
    (x.kind.isLevel = true ∨ x.kind = .endMarker → x.bytes = []) := by
  cases h with
  | fault => exact ⟨nofun, fun _ => rfl⟩
  | stopped => exact ⟨nofun, fun _ => rfl⟩
  | level _ _ hnext =>
    refine ⟨fun hkind => ?_, fun _ => rfl⟩
    rcases (Indentation.next?_eq_some hnext).2 with ⟨rfl, -⟩ | ⟨rfl, -⟩
    · cases hkind
    · cases hkind
  | token _ _ _ htakes =>
    refine ⟨fun hkind => ?_, ?_⟩
    · cases htakes with
      | spelled _ hspells _ =>
        obtain rfl : _ = Kind.newline := hkind
        cases hspells.isSpelled
      | newline => rfl
      | endMarker => cases hkind
      | stopped => cases hkind
      | fault => cases hkind
    · rintro (hlevel | hend)
      · exact absurd (hlevel.symm.trans htakes.keeps.isLevel) (by decide)
      · exact (htakes.ended hend).1

/-- The line of a token is the line that it stands on. On the way through a source, by any
    calls but recoveries, whatever call hands out the next token, up to the first error:
    what the source brings is some bytes, the bytes of the token, and what is left; and
    the line is the number of newlines in the bytes before the token, counted from 1.
    The bytes of a newline are that newline, and a token that tells of a level or of the
    end stands where the lexer does. -/
theorem line_eq_newlines {source : Source} (hsource : source.text = bs) (options : Options)
    {calls : List Call} (hcalls : .recover ∉ calls) :
    let h := (History.start source options).calls calls
    (∀ t, .token t ∈ h.events → t.kind ≠ .error) →
    ∀ c t, (h.call c).events = h.events ++ [.token t] →
      let x := h.lexer.scan.1
      (t.kind = x.kind ∧ t.text = x.text) ∧
        (x.kind = .newline → x.bytes = ['\n'.toUInt8]) ∧
        (x.kind.isLevel = true ∨ x.kind = .endMarker → x.bytes = []) ∧
        ∃ before, bs = before ++ (x.bytes ++ (h.call c).lexer.input.content) ∧
          t.line = 1 + before.count '\n'.toUInt8 := by
  intro h herror c t ht x
  have hnumbered : Numbered bs h := hsource ▸ (numbered_start source options).calls hcalls
  have hlatched := hnumbered.latched_eq_false herror
  obtain ⟨rfl, finished, hcall⟩ := eq_get_of_call ht
  rw [hcall, get_eq hlatched]
  exact ⟨⟨rfl, rfl⟩, (scans_scan h.lexer).bytes_eq.1, (scans_scan h.lexer).bytes_eq.2,
    hnumbered.scan hlatched⟩

/-- The text `a`, a backslash that ends a line, ` b`, and an indented line with a string
    that is not ended: the error stands on the third line. -/
theorem line_eq_newlines_of_error :
    let bs := Bytes.ofString "a\\\n b\n  'c\n"
    let h := (History.start (.ofLines bs) {}).calls [.next, .get, .next, .get]
    let t : Token := { kind := .error, text := "'c\n", line := 3 }
    (Source.ofLines bs).text = bs ∧ Call.recover ∉ [Call.next, .get, .next, .get] ∧
      (∀ t, .token t ∈ h.events → t.kind ≠ .error) ∧
      (h.call .next).events = h.events ++ [.token t] ∧
      ∃ before, bs = before ++ (Bytes.ofString "'c\n" ++ (h.call .next).lexer.input.content) ∧
        t.line = 1 + before.count '\n'.toUInt8 := by
  intro bs h t
  have hcalls : Call.recover ∉ [Call.next, .get, .next, .get] := by decide
  have hevents : h.events = [.token ⟨.name, "a", 1⟩, .token ⟨.name, "b", 2⟩,
      .token ⟨.newline, "", 2⟩, .token ⟨.indent, "", 3⟩] := by decide +kernel
  have herror : ∀ t, .token t ∈ h.events → t.kind ≠ .error := by simp [hevents]
  have hcall : (h.call .next).events = h.events ++ [.token t] := by decide +kernel
  have hbytes : h.lexer.scan.1.bytes = Bytes.ofString "'c\n" := by decide +kernel
  have hline := (line_eq_newlines (Source.text_ofLines bs) {} hcalls herror .next t hcall).2.2.2
  rw [hbytes] at hline
  exact ⟨Source.text_ofLines bs, hcalls, herror, hcall, hline⟩

end ScriptCore.Lexer
