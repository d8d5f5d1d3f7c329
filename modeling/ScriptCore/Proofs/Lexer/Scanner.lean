import Mathlib.Tactic.SplitIfs
import ScriptCore.Lexer.Scanner
import ScriptCore.Proofs.Lexer.LineNumbers
import ScriptCore.Proofs.Lexer.Returns

/-!
# Buffers are unseen

A lexer that reads into a buffer, empties it between lines and looks up its tokens there hands
out the same as a lexer that takes bytes and keeps them.

A buffer is emptied only where it ends with a newline that was taken, and another byte is asked
for. No token goes on behind a newline, so the bytes of a token are in the buffer, in front of
the cursor, when the token is handed out.

* `Buffer.input_munch`: a pattern takes the same from a buffer as from its input.
* `Buffer.taken_munch`: what it takes is in the buffer, if it does not go on behind a newline;
  `Buffer.suffix_taken_munch`: so is the end of what it takes, from the last newline on.
* `Scanner.renders_scan`: a span of the buffer has the text of the lexeme.
* `Scanner.calls_eq`: the same is handed out by any calls.
-/

namespace ScriptCore.Lexer

variable {c : UInt8} {bs w : Bytes}

/-! ## Patterns -/

/-- Whether a pattern does not go on behind a newline. -/
def Pattern.StopsAtNewline {σ : Type} (p : Pattern σ) : Prop :=
  ∀ s s', p.step s '\n'.toUInt8 = some s' → p.isComplete s' = true

theorem stopsAtNewline_namePattern : namePattern.StopsAtNewline := fun _ _ h => by
  cases h

theorem stopsAtNewline_numberPattern : numberPattern.StopsAtNewline := fun place _ h => by
  cases place <;> cases h

/-- A newline breaks a string. -/
theorem stopsAtNewline_stringPattern : stringPattern.StopsAtNewline := fun place _ h => by
  cases place <;> cases h <;> rfl

/-! ## What is in the buffer -/

namespace Buffer

variable {σ : Type} {b b' : Buffer} {p : Pattern σ} {s : σ}

theorem input_status (b : Buffer) : b.input.status = b.status :=
  rfl

theorem length_taken (b : Buffer) : b.taken.length = b.cursor :=
  List.length_take_of_le b.cursor_le

/-- To the lexer, a pattern takes what it takes without a buffer. -/
theorem input_munch (p : Pattern σ) (s : σ) (b : Buffer) :
    ((b.munch p s).1, (b.munch p s).2.input) = (b.input.munch p s).2 := by
  fun_induction munch p s b with
  | case1 s b hc => rw [Input.munch_of_isComplete hc]
  | case2 s b hc b' h =>
    rw [Input.munch_of_head?_eq_none (Bool.eq_false_iff.2 hc) (head?_fill_of_next h),
      next_of_eq_none h, input_fill]
  | case3 s b hc c b' h hstep =>
    rw [Input.munch_of_step_eq_none (Bool.eq_false_iff.2 hc) (head?_fill_of_next h) hstep,
      backup_of_eq_some h, input_fill]
  | case4 s b hc c b' h s' hstep ih =>
    rw [Input.munch_of_step_eq_some (Bool.eq_false_iff.2 hc) (head?_fill_of_next h) hstep, ih,
      (next_of_eq_some h).1]

theorem taken_showPrompt (b : Buffer) : b.showPrompt.taken = b.taken := by
  unfold showPrompt
  split
  · split <;> rfl
  · rfl

theorem taken_receive (b : Buffer) (r : Read) : (b.receive r).taken = b.taken := by
  fun_cases receive b r with
  | case3 c cs => exact List.take_append_of_le_length b.cursor_le
  | _ => rfl

/-- Reading keeps what was taken, unless it ends a line. -/
theorem taken_fill (h : b.taken.getLast? ≠ some '\n'.toUInt8) : b.fill.taken = b.taken := by
  unfold fill
  split_ifs with hend
  · have hclear : b.clear = b := if_neg (taken_of_cursor_eq hend.2 ▸ h)
    simp only [hclear]
    exact (taken_receive _ _).trans b.taken_showPrompt
  · rfl

theorem munch_of_isComplete (hc : p.isComplete s = true) : b.munch p s = (s, b) := by
  rw [munch, if_pos hc]

/-- What a pattern takes is kept, if it does not go on behind a newline. -/
theorem taken_munch (hp : p.StopsAtNewline) (s : σ)
    (h : b.taken.getLast? ≠ some '\n'.toUInt8) :
    (b.munch p s).2.taken = b.taken ++ (b.input.munch p s).1 := by
  fun_induction munch p s b with
  | case1 s b hc =>
    rw [Input.munch_of_isComplete hc, List.append_nil]
  | case2 s b hc b' hnext =>
    rw [Input.munch_of_head?_eq_none (Bool.eq_false_iff.2 hc) (head?_fill_of_next hnext),
      List.append_nil, next_of_eq_none hnext, taken_fill h]
  | case3 s b hc c b' hnext hstep =>
    rw [Input.munch_of_step_eq_none (Bool.eq_false_iff.2 hc) (head?_fill_of_next hnext) hstep,
      List.append_nil, backup_of_eq_some hnext, taken_fill h]
  | case4 s b hc c b' hnext s' hstep ih =>
    obtain ⟨hinput, htaken⟩ := next_of_eq_some hnext
    rw [taken_fill h] at htaken
    rw [Input.munch_of_step_eq_some (Bool.eq_false_iff.2 hc) (head?_fill_of_next hnext) hstep,
      ← hinput]
    by_cases hnewline : c = '\n'.toUInt8
    · -- the newline is the last byte, so the buffer is not emptied behind it
      have hc' := hp s s' (hnewline ▸ hstep)
      rw [munch_of_isComplete hc', Input.munch_of_isComplete hc', htaken]
    · have hlast : b'.taken.getLast? ≠ some '\n'.toUInt8 := by
        rw [htaken, List.getLast?_concat]
        exact fun heq => hnewline (Option.some.inj heq)
      rw [ih hlast, htaken, List.append_assoc]
      rfl

theorem suffix_taken_fill (h : w <:+ b.taken) (hw : '\n'.toUInt8 ∉ w) : w <:+ b.fill.taken := by
  by_cases hnil : w = []
  · exact hnil ▸ List.nil_suffix
  · have hlast : b.taken.getLast? ≠ some '\n'.toUInt8 := by
      obtain ⟨v, hv⟩ := h
      rw [← hv, List.getLast?_append_of_ne_nil _ hnil]
      exact fun hlast => hw (List.mem_of_getLast? hlast)
    rwa [taken_fill hlast]

/-- The end of what was taken is kept, from the last newline on. -/
theorem suffix_taken_munch_from {u : Bytes} (p : Pattern σ) (s : σ) (hu : u <:+ b.taken)
    (hline : '\n'.toUInt8 ∉ u) (hw : '\n'.toUInt8 ∉ w) (h : w <:+ u ++ (b.input.munch p s).1) :
    w <:+ (b.munch p s).2.taken := by
  fun_induction munch p s b generalizing u with
  | case1 s b hc =>
    rw [Input.munch_of_isComplete hc, List.append_nil] at h
    exact h.trans hu
  | case2 s b hc b' hnext =>
    rw [Input.munch_of_head?_eq_none (Bool.eq_false_iff.2 hc) (head?_fill_of_next hnext),
      List.append_nil] at h
    exact next_of_eq_none hnext ▸ h.trans (suffix_taken_fill hu hline)
  | case3 s b hc c b' hnext hstep =>
    rw [Input.munch_of_step_eq_none (Bool.eq_false_iff.2 hc) (head?_fill_of_next hnext) hstep,
      List.append_nil] at h
    exact backup_of_eq_some hnext ▸ h.trans (suffix_taken_fill hu hline)
  | case4 s b hc c b' hnext s' hstep ih =>
    obtain ⟨hinput, htaken⟩ := next_of_eq_some hnext
    rw [Input.munch_of_step_eq_some (Bool.eq_false_iff.2 hc) (head?_fill_of_next hnext) hstep,
      ← hinput] at h
    by_cases hnewline : c = '\n'.toUInt8
    · -- what was in front of the newline may be gone, and all that counts is behind it
      refine ih List.nil_suffix List.not_mem_nil ?_
      rcases List.suffix_or_suffix_of_suffix h (List.suffix_append u _) with hsuffix | hsuffix
      · rcases List.suffix_cons_iff.1 hsuffix with rfl | hsuffix
        · exact absurd (hnewline ▸ List.mem_cons_self) hw
        · exact hsuffix
      · exact absurd (hsuffix.subset (hnewline ▸ List.mem_cons_self)) hw
    · refine ih (u := u ++ [c]) ?_ ?_ (by rwa [List.append_assoc])
      · rw [htaken]
        exact List.suffix_append_self_iff.2 (suffix_taken_fill hu hline)
      · simpa using ⟨hline, Ne.symm hnewline⟩

/-- The end of what a pattern takes is kept, from the last newline on. -/
theorem suffix_taken_munch (p : Pattern σ) (s : σ) (hw : '\n'.toUInt8 ∉ w)
    (h : w <:+ (b.input.munch p s).1) : w <:+ (b.munch p s).2.taken :=
  suffix_taken_munch_from p s List.nil_suffix List.not_mem_nil hw h

end Buffer

/-! ## What is left of an input -/

namespace Input

variable {σ : Type} {p : Pattern σ} {s s' : σ} {i i' : Input}

/-- Behind a pattern that is not complete, it does not matter that one more byte is asked
    for. -/
theorem fill_munch (h : munch p s i = (bs, s', i')) (hc : p.isComplete s' = false) :
    i'.fill = i' := by
  have hmunched := munched p s i
  rw [h] at hmunched
  cases hhead : i'.head? with
  | some b => exact fill_of_head? hhead
  | none => exact fill_of_ne_ok (status_ne_ok_of_munched hmunched hc hhead)

/-- Counting the newlines changes nothing in what a pattern takes. -/
theorem munch_counting (p : Pattern σ) (s : σ) (n : Nat) (i : Input) :
    munch p.counting (s, n) i = ((munch p s i).1,
      ((munch p s i).2.1, n + (munch p s i).1.count '\n'.toUInt8), (munch p s i).2.2) := by
  fun_induction munch p s i generalizing n
  case case1 s i hc => exact munch_of_isComplete (p := p.counting) hc
  case case2 s i hc hb =>
    exact munch_of_head?_eq_none (p := p.counting) (s := (s, n)) (Bool.eq_false_iff.2 hc) hb
  case case3 s i hc b hb hstep =>
    exact munch_of_step_eq_none (p := p.counting) (s := (s, n)) (Bool.eq_false_iff.2 hc) hb
      (congrArg (Option.map _) hstep)
  case case4 s i hc b hb s' hstep r ih =>
    have hcount : p.counting.step (s, n) b =
        some (s', n + if b = '\n'.toUInt8 then 1 else 0) := congrArg (Option.map _) hstep
    rw [munch_of_step_eq_some (p := p.counting) (s := (s, n)) (Bool.eq_false_iff.2 hc) hb hcount,
      ih, List.count_cons, Nat.add_assoc, Nat.add_comm (ite _ _ _)]
    simp only [beq_iff_eq]
    rfl

end Input

/-! ## Tokens -/

variable {s : Scanner} {l : Lexer} {x : Lexeme} {r : Span × Scanner}

namespace Scanner

theorem lexer_fault (s : Scanner) (f : Fault) : (s.fault f).lexer = s.lexer.fault f := by
  rw [fault, Lexer.fault, show s.lexer.status = s.status from rfl]
  split_ifs <;> rfl

theorem slice_fault (s : Scanner) (f : Fault) (x : Span) :
    (s.fault f).buffer.slice x = s.buffer.slice x := by
  rw [fault]
  split_ifs <;> rfl

theorem lexer_obeyComment (s : Scanner) : s.obeyComment.lexer = s.lexer.obeyComment := by
  rw [obeyComment, Lexer.obeyComment,
    show s.lexer.input.pending = s.buffer.bytes.drop s.buffer.cursor from rfl]
  cases TabDirective.parse? (s.buffer.bytes.drop s.buffer.cursor) <;> rfl

end Scanner

/-- Whether a scanner did what a lexer does: the span has the kind and the text of the lexeme,
    and the lexer that is left is the same. -/
structure Renders (r : Span × Scanner) (r' : Lexeme × Lexer) : Prop where
  kind : r.1.kind = r'.1.kind
  text : Utf8.decode (r.2.buffer.slice r.1) = r'.1.text
  lexer : r.2.lexer = r'.2

/-- What was passed over in front of a token does not show in it. -/
theorem Renders.skip (h : Renders r (x, l)) (skipped : Bytes) :
    Renders r ({ x with skipped }, l) :=
  ⟨h.kind, h.text, h.lexer⟩

theorem Renders.fault {y : Span} (h : Renders (y, s) (x, l)) (f : Fault) :
    Renders (y, s.fault f) (x, l.fault f) where
  kind := h.kind
  text := (congrArg Utf8.decode (s.slice_fault f y)).trans h.text
  lexer := (s.lexer_fault f).trans (congrArg (·.fault f) h.lexer)

namespace Scanner

/-- A span without bytes is a newline, or a token without a text. -/
theorem renders_empty (hx : x.kind = .newline ∨ x.bytes = []) (hs : s.lexer = l) (n : Nat) :
    Renders (.empty x.kind n, s) (x, l) where
  kind := rfl
  text := by
    have hslice : s.buffer.slice (.empty x.kind n) = [] :=
      List.drop_eq_nil_of_le (List.length_take_le n _)
    rw [hslice, Lexeme.text]
    rcases hx with hkind | hbytes
    · rw [if_pos hkind]
      rfl
    · rw [hbytes]
      exact (ite_self _).symm
  lexer := hs

/-- A span up to the cursor, of a token that is in the buffer. -/
theorem renders_slice {before : Bytes} (hkind : x.kind ≠ .newline)
    (htaken : s.buffer.taken = before ++ x.bytes) (hs : s.lexer = l) :
    Renders ({ kind := x.kind, start := before.length, stop := s.buffer.cursor }, s) (x, l) where
  kind := rfl
  text := by
    rw [Lexeme.text, if_neg hkind]
    exact congrArg Utf8.decode ((congrArg (List.drop before.length) htaken).trans List.drop_left)
  lexer := hs

/-- A token that goes on as a pattern does, if it does not go on behind a newline. -/
theorem renders_take {σ : Type} {p : Pattern σ} {before : Bytes}
    {verdict : σ → Token.Kind ⊕ Fault} (hp : p.StopsAtNewline)
    (hverdict : ∀ place, verdict place ≠ .inl .newline) (hs : s.lexer = l.advance)
    (htaken : s.buffer.taken = before ++ [c]) (hc : c ≠ '\n'.toUInt8) (place : σ) :
    Renders (s.take before.length p place verdict) (l.take c p place verdict) := by
  have hinput : s.buffer.input = l.input.advance := congrArg Lexer.input hs
  -- the token has begun with a byte that is no newline, so all of it stays in the buffer
  have hlast : s.buffer.taken.getLast? ≠ some '\n'.toUInt8 := by
    rw [htaken, List.getLast?_concat]
    exact fun heq => hc (Option.some.inj heq)
  obtain ⟨bs, place', i, hm⟩ : ∃ bs place' i,
    l.input.advance.munch p place = (bs, place', i) := ⟨_, _, _, rfl⟩
  have hbuffer := s.buffer.input_munch p place
  have hkept := s.buffer.taken_munch hp place hlast
  rw [hinput, hm] at hbuffer hkept
  rw [htaken, List.append_assoc] at hkept
  simp only [take, Lexer.take, hm]
  generalize s.buffer.munch p place = r at hbuffer hkept ⊢
  obtain ⟨place', buffer⟩ := r
  obtain ⟨rfl, rfl⟩ := Prod.mk.inj hbuffer
  dsimp only at hkept ⊢
  have hlexer : { s with buffer }.lexer = { l with input := buffer.input } :=
    congrArg (fun m : Lexer => { m with input := buffer.input }) hs
  have hslice : ∀ kind : Token.Kind, kind ≠ .newline →
      Renders ({ kind, start := before.length, stop := buffer.cursor }, { s with buffer })
        ({ kind, bytes := c :: bs }, { l with input := buffer.input }) := fun kind hkind =>
    renders_slice (x := { kind, bytes := c :: bs }) hkind hkept hlexer
  cases hv : verdict place' with
  | inl kind => exact hslice kind fun heq => hverdict place' (heq ▸ hv)
  | inr f => exact (hslice .error fun heq => by cases heq).fault f

theorem renders_atEnd (hs : s.lexer = l) (start : Nat) : Renders (s.atEnd start) l.atEnd :=
  hs ▸ renders_empty (x := s.lexer.atEnd.1) (.inr rfl) rfl start

theorem renders_endLine (hs : s.lexer = l.advance) (b : UInt8) :
    Renders s.endLine (l.endLine b) :=
  renders_empty (x := (l.endLine b).1) (.inl rfl)
    (congrArg (fun m : Lexer => { m with lineStart := true }) hs) _

/-- What comes behind a pattern that is not complete: a byte is taken, or there is none. -/
theorem next_of_munched {σ : Type} {p : Pattern σ} {place place' : σ} {i : Input} {b : Buffer}
    (hm : i.munch p place = (bs, place', b.input)) (hc : p.isComplete place' = false)
    {o : Option UInt8} {b' : Buffer} (hnext : b.next = (o, b')) :
    b.input.head? = o ∧ b'.input = (if o.isSome then b.input.advance else b.input) ∧
      ∀ c, o = some c → ∃ before, b'.taken = before ++ [c] := by
  have hfill := Input.fill_munch hm hc
  have hhead := Buffer.head?_fill_of_next hnext
  rw [hfill] at hhead
  cases o with
  | none =>
    refine ⟨hhead, ?_, nofun⟩
    rw [Buffer.next_of_eq_none hnext, Buffer.input_fill, hfill]
    rfl
  | some c =>
    obtain ⟨hinput, htaken⟩ := Buffer.next_of_eq_some hnext
    refine ⟨hhead, ?_, fun c' hc' => ⟨_, Option.some.inj hc' ▸ htaken⟩⟩
    rw [hinput, hfill]
    rfl

theorem renders_takeComment (hs : s.lexer = l.advance) (start : Nat) (b : UInt8) :
    Renders (s.takeComment start) (l.takeComment b) := by
  have hobey : s.obeyComment.lexer = l.advance.obeyComment :=
    s.lexer_obeyComment.trans (congrArg Lexer.obeyComment hs)
  have hinput : s.obeyComment.buffer.input = l.advance.obeyComment.input :=
    congrArg Lexer.input hobey
  obtain ⟨bs, place, i, hm⟩ : ∃ bs place i,
    l.advance.obeyComment.input.munch commentPattern () = (bs, place, i) := ⟨_, _, _, rfl⟩
  have hbuffer := s.obeyComment.buffer.input_munch commentPattern ()
  rw [hinput, hm] at hbuffer
  simp only [takeComment, Lexer.takeComment, hm]
  generalize s.obeyComment.buffer.munch commentPattern () = r at hbuffer ⊢
  obtain ⟨_, buffer⟩ := r
  obtain ⟨-, rfl⟩ := Prod.mk.inj hbuffer
  dsimp only at hm ⊢
  rcases hnext : buffer.next with ⟨o, buffer'⟩
  obtain ⟨hhead, hinput', -⟩ := next_of_munched hm rfl hnext
  have hlexer : { s.obeyComment with buffer := buffer' }.lexer =
      { l.advance.obeyComment with input := buffer'.input } :=
    congrArg (fun m : Lexer => { m with input := buffer'.input }) hobey
  rw [hinput'] at hlexer
  rw [hhead]
  cases o with
  | none => exact (renders_atEnd hlexer start).skip _
  | some c => exact (renders_endLine (l := { l.advance.obeyComment with input := buffer.input })
      hlexer c).skip _

/-- The token that begins with the byte in front of the cursor. -/
theorem renders_takeToken {before : Bytes} (hs : s.lexer = l.advance)
    (htaken : s.buffer.taken = before ++ [c]) : Renders (s.takeToken c) (l.takeToken c) := by
  have hcursor : s.buffer.cursor = before.length + 1 := by
    rw [← s.buffer.length_taken, htaken, List.length_append, List.length_singleton]
  rw [takeToken, Lexer.takeToken, hcursor, Nat.add_sub_cancel]
  split_ifs with hhash hname hnewline hzero hdigit hquote
  · exact renders_takeComment hs _ c
  · have hline : c ≠ '\n'.toUInt8 := fun heq => by
      rw [heq] at hname
      cases hname
    exact renders_take stopsAtNewline_namePattern (fun _ heq => by cases heq) hs htaken hline ()
  · exact renders_endLine hs c
  · exact renders_take stopsAtNewline_numberPattern (fun _ heq => by cases heq) hs htaken
      hnewline .zero
  · exact renders_take stopsAtNewline_numberPattern (fun _ heq => by cases heq) hs htaken
      hnewline .whole
  · refine renders_take stopsAtNewline_stringPattern (fun place heq => ?_) hs htaken hnewline
      .inside
    split_ifs at heq
    cases heq
  · have hkind : Token.Kind.ofByte c ≠ .newline :=
      Token.Kind.forall_ofByte (P := (· ≠ .newline)) (by decide) (by decide) c
    have hslice := renders_slice (x := { kind := .ofByte c, bytes := [c] }) hkind htaken hs
    rwa [hcursor] at hslice

/-- What is taken between two tokens: a gap, whose newlines are counted, and what breaks it off,
    which is in front of the cursor. -/
theorem exists_munch_gap (b : Buffer) : ∃ gap left place b',
    b.input.munch gapPattern .between = (gap ++ left, place, b'.input) ∧
      b.munch gapPattern.counting (.between, 0) = ((place, gap.count '\n'.toUInt8), b') ∧
      (place.excess = 0 → place = .between) ∧ place.Leaves left ∧ left <:+ b'.taken := by
  obtain ⟨bs, place, i, hm⟩ : ∃ bs place i,
    b.input.munch gapPattern .between = (bs, place, i) := ⟨_, _, _, rfl⟩
  have hrun := (Input.munched gapPattern .between b.input).run
  rw [hm] at hrun
  obtain ⟨gap, left, rfl, -, hleft⟩ := exists_gap_of_run hrun
  have hcounting := Input.munch_counting gapPattern .between 0 b.input
  rw [hm] at hcounting
  -- the gap may be gone from the buffer, but what breaks it off has no newline
  have hline := hleft.newline_notMem
  have hcount : 0 + (gap ++ left).count '\n'.toUInt8 = gap.count '\n'.toUInt8 := by
    rw [Nat.zero_add, List.count_append, List.count_eq_zero.2 hline, Nat.add_zero]
  have hbuffer := b.input_munch gapPattern.counting (.between, 0)
  rw [hcounting, hcount] at hbuffer
  obtain ⟨hplace, hinput⟩ := Prod.mk.inj hbuffer
  refine ⟨gap, left, place, _, ?_, Prod.ext hplace rfl, eq_between_of_excess hrun, hleft,
    b.suffix_taken_munch _ _ hline ?_⟩
  · rw [hm, hinput]
  · rw [hcounting]
    exact List.suffix_append gap left

/-- A token, with the space in front of it. -/
theorem renders_scanToken (s : Scanner) : Renders s.scanToken s.lexer.scanToken := by
  obtain ⟨gap, left, place, buffer, hm, hbuffer, hbetween, hleft, before, hbefore⟩ :=
    exists_munch_gap s.buffer
  simp only [scanToken, Lexer.scanToken, show s.lexer.input = s.buffer.input from rfl, hm, hbuffer,
    hleft.take_append]
  have hlexer : ∀ b : Buffer,
    { s with buffer := b, line := s.line + gap.count '\n'.toUInt8 }.lexer =
    { s.lexer with input := b.input, line := s.line + gap.count '\n'.toUInt8 } := fun _ => rfl
  split_ifs with hexcess
  · obtain rfl := hbetween hexcess
    rcases hnext : buffer.next with ⟨o, buffer'⟩
    obtain ⟨hhead, hinput, htaken⟩ := next_of_munched hm rfl hnext
    rw [hhead]
    cases o with
    | none =>
      refine (renders_atEnd ?_ buffer'.cursor).skip _
      rw [hlexer, hinput]
      rfl
    | some c =>
      obtain ⟨before, hbefore⟩ := htaken c rfl
      refine (renders_takeToken ?_ hbefore).skip _
      rw [hlexer, hinput]
      rfl
  · have hstart : buffer.cursor - place.excess = before.length := by
      rw [← buffer.length_taken, ← hbefore, List.length_append, hleft.length,
        Nat.add_sub_cancel]
    rw [hstart, List.drop_left]
    exact (renders_slice (x := { kind := .error, skipped := gap, bytes := left })
      (fun heq => by cases heq) hbefore.symm (hlexer buffer)).fault .badContinuation

/-- The beginning of a line. -/
theorem beginLine_eq (s : Scanner) :
    (s.beginLine.1, s.beginLine.2.lexer) = s.lexer.beginLine.2 := by
  have hbuffer := s.buffer.input_munch (columnPattern s.tabSize) 0
  obtain ⟨bs, column, i, hm⟩ : ∃ bs column i,
    s.buffer.input.munch (columnPattern s.tabSize) 0 = (bs, column, i) := ⟨_, _, _, rfl⟩
  rw [hm] at hbuffer
  rw [beginLine, Lexer.beginLine]
  simp only [show s.lexer.input = s.buffer.input from rfl, hm,
    show s.lexer.tabSize = s.tabSize from rfl, show s.lexer.lineStart = s.lineStart from rfl]
  generalize s.buffer.munch (columnPattern s.tabSize) 0 = r at hbuffer ⊢
  obtain ⟨_, buffer⟩ := r
  obtain ⟨rfl, rfl⟩ := Prod.mk.inj hbuffer
  dsimp only
  cases hstart : s.lineStart with
  | false => rfl
  | true =>
    cases herror : buffer.status.isError with
    | true => simp only [status, Lexer.status, Buffer.input_status, herror, if_true]; rfl
    | false =>
      simp only [status, Lexer.status, Buffer.input_status, herror, if_true, Bool.false_eq_true,
        if_false]
      rfl

/-- A span of the buffer, and the lexeme. -/
theorem renders_scan (s : Scanner) : Renders s.scan s.lexer.scan := by
  obtain ⟨blanks, f, l, hbegin⟩ : ∃ blanks f l, s.lexer.beginLine = (blanks, f, l) :=
    ⟨_, _, _, rfl⟩
  have heq := s.beginLine_eq
  rw [hbegin] at heq
  rw [scan, Lexer.scan, hbegin]
  generalize s.beginLine = r at heq ⊢
  obtain ⟨g, s⟩ := r
  obtain ⟨rfl, rfl⟩ := Prod.mk.inj heq
  dsimp only
  cases g with
  | some f =>
    exact (renders_empty (x := { kind := .error, skipped := blanks }) (.inr rfl) rfl _).fault f
  | none =>
    have hempty : ∀ kind n, Renders (.empty kind n, s) ({ kind, skipped := blanks }, s.lexer) :=
      fun kind => renders_empty (x := { kind, skipped := blanks }) (.inr rfl) rfl
    simp only [show s.lexer.status = s.status from rfl,
      show s.lexer.indentation = s.indentation from rfl]
    split_ifs with herror
    · exact hempty .error _
    · cases hnext : s.indentation.next? with
      | some next =>
        obtain ⟨kind, indentation⟩ := next
        exact renders_empty (s := { s with indentation }) (x := { kind, skipped := blanks })
          (.inr rfl) rfl _
      | none => exact s.renders_scanToken.skip _

/-- **The next token** is the same, and so is the lexer that is left. -/
theorem get_eq (s : Scanner) : (s.get.1, s.get.2.lexer) = s.lexer.get := by
  rw [get, Lexer.get, show s.lexer.latched = s.latched from rfl]
  split_ifs with hlatched
  · rfl
  · obtain ⟨hkind, htext, hlexer⟩ := s.renders_scan
    dsimp only
    rw [← hkind, ← htext, ← hlexer]
    rfl

theorem next?_eq (s : Scanner) :
    s.next?.map (fun r => (r.1, r.2.lexer)) = s.lexer.next? := by
  rw [next?, Lexer.next?, ← s.get_eq, show s.lexer.finished = s.finished from rfl]
  split_ifs <;> rfl

theorem recover?_eq (s : Scanner) : s.recover?.map lexer = s.lexer.recover? := by
  rw [recover?, Lexer.recover?, show s.lexer.status = s.status from rfl]
  split_ifs <;> rfl

/-! ## Calls -/

/-- What a call does. -/
def call (r : List Event × Scanner) : Call → List Event × Scanner
  | .get => (r.1 ++ [.token r.2.get.1], r.2.get.2)
  | .next => match r.2.next? with
    | some (t, s) => (r.1 ++ [.token t], s)
    | none => r
  | .recover => match r.2.recover? with
    | some s => (r.1 ++ [.recovered], s)
    | none => r
  | .interrupt => (r.1, r.2.interrupt)

/-- What calls do, one after the other. -/
def calls (r : List Event × Scanner) (cs : List Call) : List Event × Scanner :=
  cs.foldl call r

theorem call_eq {r : List Event × Scanner} {h : History} (hevents : r.1 = h.events)
    (hlexer : r.2.lexer = h.lexer) (c : Call) :
    (call r c).1 = (h.call c).events ∧ (call r c).2.lexer = (h.call c).lexer := by
  obtain ⟨events, s⟩ := r
  cases c with
  | get =>
    have hget := s.get_eq
    rw [hlexer] at hget
    rw [call, History.call, ← hget]
    exact ⟨congrArg (· ++ _) hevents, rfl⟩
  | next =>
    have hnext := s.next?_eq
    rw [hlexer] at hnext
    rw [call, History.call, ← hnext]
    cases s.next? with
    | none => exact ⟨hevents, hlexer⟩
    | some r => exact ⟨congrArg (· ++ _) hevents, rfl⟩
  | recover =>
    have hrecover := s.recover?_eq
    rw [hlexer] at hrecover
    rw [call, History.call, ← hrecover]
    cases s.recover? with
    | none => exact ⟨hevents, hlexer⟩
    | some s => exact ⟨congrArg (· ++ _) hevents, rfl⟩
  | interrupt => exact ⟨hevents, congrArg Lexer.interrupt hlexer⟩

/-- **Buffers are unseen.** By any calls, the same is handed out as without a buffer. -/
theorem calls_eq (source : Source) (options : Options) (cs : List Call) :
    let r := calls ([], start source options) cs
    let h := (History.start source options).calls cs
    r.1 = h.events ∧ r.2.lexer = h.lexer := by
  have hcalls : ∀ (r : List Event × Scanner) (h : History), r.1 = h.events →
      r.2.lexer = h.lexer →
      (calls r cs).1 = (h.calls cs).events ∧ (calls r cs).2.lexer = (h.calls cs).lexer := by
    induction cs with
    | nil => exact fun r h hevents hlexer => ⟨hevents, hlexer⟩
    | cons c cs ih =>
      intro r h hevents hlexer
      obtain ⟨hevents, hlexer⟩ := call_eq hevents hlexer c
      exact ih (call r c) (h.call c) hevents hlexer
  exact hcalls _ _ rfl rfl

end Scanner

end ScriptCore.Lexer
