import ScriptCore.Lexer.Input

/-!
# The buffer

The program reads into a buffer that grows with each read, and a cursor stands in
front of the byte that comes next. More is read when the cursor has come to the
end. Before that, a buffer that ends with a newline is emptied, so that of a
source that is read line by line it holds one line. A byte too many is put back by
moving the cursor back.

The lexer minds nothing of a buffer but its `input`: what is behind the cursor, and
whether what is in front of it ends in the middle of a line. It does not mind what
was taken, and a token that it hands out keeps its bytes by itself.
-/

namespace ScriptCore.Lexer

/-- Input with the buffer that it is read into. -/
structure Buffer where
  source : Source
  prompts : Prompts := {}
  due : Option String := prompts.first
  shown : List String := []
  /-- What was read since the buffer was emptied. -/
  bytes : Bytes := []
  /-- The place of the next byte. -/
  cursor : Nat := 0
  status : Status := .ok
  cursor_le : cursor ≤ bytes.length := by exact Nat.zero_le _
  deriving DecidableEq, Repr

namespace Buffer

/-- An empty buffer, at the beginning of a source. -/
def start (source : Source) (prompts : Prompts) : Buffer where
  source
  prompts

/-- What was taken since the buffer was emptied. -/
def taken (b : Buffer) : Bytes :=
  b.bytes.take b.cursor

/-- What the lexer minds of a buffer. -/
def input (b : Buffer) : Input where
  source := b.source
  prompts := b.prompts
  due := b.due
  shown := b.shown
  pending := b.bytes.drop b.cursor
  midLine := b.taken.getLast?.any (· ≠ '\n'.toUInt8)
  status := b.status

/-! ## Reading -/

/-- Empties the buffer, if it ends with a newline. -/
def clear (b : Buffer) : Buffer :=
  if b.bytes.getLast? = some '\n'.toUInt8 then
    { b with bytes := [], cursor := 0, cursor_le := Nat.zero_le _ }
  else b

/-- Shows the prompt that is due, if the buffer is empty. -/
def showPrompt (b : Buffer) : Buffer :=
  if b.bytes = [] then
    match b.due with
    | some p => { b with shown := b.shown ++ [p], due := b.prompts.later }
    | none => b
  else b

/-- Stops reading; in a dialogue, the line of the prompt is ended. -/
def stop (b : Buffer) (s : Status) : Buffer :=
  { b with
    status := s
    shown := if b.due.isSome then b.shown ++ ["\n"] else b.shown }

/-- What one answer of the source makes of the buffer. -/
def receive (b : Buffer) : Read → Buffer
  | .bytes [] | .endOfInput => b.stop .endOfInput
  | .bytes (c :: cs) =>
    { b with
      bytes := b.bytes ++ c :: cs
      cursor_le := Nat.le_trans b.cursor_le (List.length_append ▸ Nat.le_add_right _ _) }
  | .interrupted => b.stop .interrupted
  | .failed reason => b.stop (.failed reason)

/-- Reads, if the cursor is at the end and reading has not stopped. -/
def fill (b : Buffer) : Buffer :=
  if b.status = .ok ∧ b.cursor = b.bytes.length then
    let b := b.clear.showPrompt
    let r := b.source.next
    { b with source := r.2 }.receive r.1
  else b

/-- The next byte, if there is one, and the buffer with the cursor behind it. -/
def next (b : Buffer) : Option UInt8 × Buffer :=
  let b := b.fill
  if h : b.status = .ok ∧ b.cursor < b.bytes.length then
    (some b.bytes[b.cursor], { b with cursor := b.cursor + 1, cursor_le := h.2 })
  else (none, b)

/-- Puts a byte back. -/
def backup (b : Buffer) : Buffer :=
  { b with
    cursor := b.cursor - 1
    cursor_le := Nat.le_trans (Nat.sub_le _ _) b.cursor_le }

/-- Forgets what was read and goes on after an interrupted read, at the
    beginning of a dialogue. -/
def restart (b : Buffer) : Buffer :=
  { b with
    status := .ok
    bytes := []
    cursor := 0
    due := b.prompts.first
    cursor_le := Nat.zero_le _ }

/-! ## What the lexer minds of it -/

variable {b b' : Buffer} {c : UInt8}

theorem taken_of_cursor_eq (h : b.cursor = b.bytes.length) : b.taken = b.bytes := by
  rw [taken, h, List.take_length]

theorem cursor_clear (h : b.cursor = b.bytes.length) :
    b.clear.cursor = b.clear.bytes.length := by
  unfold clear
  split
  · rfl
  · exact h

theorem cursor_showPrompt (h : b.cursor = b.bytes.length) :
    b.showPrompt.cursor = b.showPrompt.bytes.length := by
  unfold showPrompt
  split
  · split <;> exact h
  · exact h

/-- Where all was taken, the lexer does not mind that the buffer is emptied. -/
theorem input_clear (h : b.cursor = b.bytes.length) : b.clear.input = b.input := by
  unfold clear
  split
  · next hlast =>
    simp only [input, taken_of_cursor_eq h, hlast, h, List.drop_length]
    rfl
  · rfl

theorem getLast?_clear (b : Buffer) : b.clear.bytes.getLast? ≠ some '\n'.toUInt8 := by
  unfold clear
  split
  · exact nofun
  · assumption

/-- An empty buffer is one in which no line is begun. -/
theorem input_showPrompt (h : b.cursor = b.bytes.length)
    (hlast : b.bytes.getLast? ≠ some '\n'.toUInt8) :
    b.showPrompt.input = b.input.showPrompt := by
  have hmid : b.input.midLine = b.bytes.getLast?.any (· ≠ '\n'.toUInt8) := by
    rw [input, taken_of_cursor_eq h]
  cases hbytes : b.bytes.getLast? with
  | none =>
    have hout : b.input.midLine ≠ true := by
      rw [hmid, hbytes]
      exact Bool.false_ne_true
    rw [showPrompt, Input.showPrompt, if_pos (List.getLast?_eq_none_iff.1 hbytes), if_neg hout]
    cases hdue : b.due with
    | none => simp only [input, hdue]
    | some p =>
      simp only [input, hdue]
      rfl
  | some c =>
    have hc : c ≠ '\n'.toUInt8 := fun heq => hlast (heq ▸ hbytes)
    have hin : b.input.midLine = true := by
      rw [hmid, hbytes]
      exact decide_eq_true hc
    have hne : b.bytes ≠ [] := fun heq => by
      rw [heq] at hbytes
      cases hbytes
    rw [showPrompt, Input.showPrompt, if_neg hne, if_pos hin]

theorem input_receive (h : b.cursor = b.bytes.length) (r : Read) :
    (b.receive r).input = b.input.receive r := by
  cases r with
  | bytes bs =>
    cases bs with
    | nil => rfl
    | cons c cs =>
      simp only [receive, input, taken, Input.receive, h, List.drop_left, List.take_left,
        List.take_length]
  | endOfInput | interrupted | failed => rfl

/-- To the lexer, reading is what it is without a buffer. -/
theorem input_fill (b : Buffer) : b.fill.input = b.input.fill := by
  unfold fill
  split
  · next h =>
    obtain ⟨hok, hend⟩ := h
    -- nothing is pending, so what is emptied is minded only for its end
    have hshow : b.clear.showPrompt.input = b.input.showPrompt := by
      rw [input_showPrompt (cursor_clear hend) b.getLast?_clear, input_clear hend]
    have hsource : b.clear.showPrompt.source = b.source :=
      (congrArg Input.source hshow).trans b.input.source_showPrompt
    have hpending : b.input.pending = [] := by
      rw [input, hend, List.drop_length]
    have hfill : b.input.fill = { b.input.showPrompt with
        source := b.source.next.2 }.receive b.source.next.1 := by
      rw [Input.fill, show b.input.status = .ok from hok, hpending]
      rfl
    rw [hfill, ← hshow, ← hsource]
    exact input_receive (b := { b.clear.showPrompt with
      source := b.clear.showPrompt.source.next.2 }) (cursor_showPrompt (cursor_clear hend)) _
  · next h =>
    unfold Input.fill
    split
    · next hok hpending =>
      exact absurd ⟨hok, Nat.le_antisymm b.cursor_le (List.drop_eq_nil_iff.1 hpending)⟩ h
    · rfl

theorem head?_input (b : Buffer) :
    b.input.head? = if b.status = .ok then b.bytes[b.cursor]? else none := by
  rw [Input.head?, input, List.head?_drop]

/-- The next byte is the one that is at hand after reading. -/
theorem fst_next (b : Buffer) : b.next.1 = b.input.fill.head? := by
  rw [← input_fill, head?_input, next]
  split
  · next h => rw [if_pos h.1, List.getElem?_eq_getElem h.2]
  · next h =>
    split
    · next hok =>
      exact (List.getElem?_eq_none (Nat.not_lt.1 fun hlt => h ⟨hok, hlt⟩)).symm
    · rfl

theorem head?_fill_of_next {o : Option UInt8} (h : b.next = (o, b')) :
    b.input.fill.head? = o := by
  rw [← fst_next, h]

theorem next_of_eq_none (h : b.next = (none, b')) : b' = b.fill := by
  rw [next] at h
  split at h
  · cases h
  · exact (Prod.mk.inj h).2.symm

/-- Taking a byte is what it is without a buffer, and what is in front of the cursor
    grows by it. -/
theorem next_of_eq_some (h : b.next = (some c, b')) :
    b'.input = b.input.fill.advance ∧ b'.taken = b.fill.taken ++ [c] := by
  rw [next] at h
  split at h
  · next hlt =>
    obtain ⟨hc, rfl⟩ := Prod.mk.inj h
    have htaken : b.fill.bytes.take (b.fill.cursor + 1) = b.fill.taken ++ [c] := by
      rw [List.take_succ_eq_append_getElem hlt.2, Option.some.inj hc, taken]
    have hpending : b.fill.input.pending = c :: b.fill.bytes.drop (b.fill.cursor + 1) :=
      (List.drop_eq_getElem_cons hlt.2).trans (congrArg (· :: _) (Option.some.inj hc))
    refine ⟨?_, htaken⟩
    rw [← input_fill, Input.advance, hpending]
    simp only [input, taken, htaken, List.getLast?_concat, Option.any_some]
  · cases h

/-- A byte that was put back is at hand. -/
theorem backup_of_eq_some (h : b.next = (some c, b')) : b'.backup = b.fill := by
  rw [next] at h
  split at h
  · obtain ⟨-, rfl⟩ := Prod.mk.inj h
    rfl
  · cases h

/-! ## Patterns -/

theorem remaining_next_lt (h : b.next = (some c, b')) :
    b'.input.remaining < b.input.remaining := by
  rw [(next_of_eq_some h).1, ← Input.remaining_fill b.input,
    ← Input.remaining_advance (head?_fill_of_next h)]
  exact Nat.lt_succ_self _

/-- Takes the longest run of bytes that a pattern accepts from the place `s`: the
    place it ends at, and the buffer after it. -/
def munch {σ : Type} (p : Pattern σ) (s : σ) (b : Buffer) : σ × Buffer :=
  if p.isComplete s then (s, b)
  else
    match _h : b.next with
    | (none, b') => (s, b')
    | (some c, b') =>
      match p.step s c with
      | none => (s, b'.backup)
      | some s' => munch p s' b'
  termination_by b.input.remaining
  decreasing_by exact remaining_next_lt _h

end Buffer

end ScriptCore.Lexer
