import ScriptCore.Lexer
import ScriptCore.Proofs.Lexer.Input

/-!
# Spelling

What may stand in front of a token (`Gap`), what may stand in front of the end
of a line (`Trail`), and what spells a token of a kind (`Spells`); and what the
runs of the patterns are in these terms.
-/

namespace ScriptCore

namespace Token.Kind

/-- Whether a token of a kind tells a change of level. -/
def isLevel : Kind → Bool
  | indent | dedent => true
  | _ => false

/-- Whether a token of a kind is spelled by bytes that are its text. -/
def isSpelled : Kind → Bool
  | endMarker | newline | indent | dedent | error => false
  | _ => true

/-- Whether a token of a kind is a name, a number or a string. -/
def isWord : Kind → Bool
  | name | number | string => true
  | _ => false

theorem isLevel_of_isSpelled {kind : Kind} (h : kind.isSpelled = true) : kind.isLevel = false := by
  cases kind <;> first | rfl | cases h

theorem isSpelled_of_isWord {kind : Kind} (h : kind.isWord = true) : kind.isSpelled = true := by
  cases kind <;> first | rfl | cases h

/-- What holds of operators and of all punctuation holds of each byte that is a
    token by itself. -/
theorem forall_ofByte {P : Kind → Prop} (hoperator : P operator) (h : ∀ p ∈ punctuation, P p.2)
    (b : UInt8) : P (ofByte b) := by
  rw [ofByte]
  split
  · next hfind => exact h _ (List.mem_of_find?_eq_some hfind)
  · exact hoperator

theorem isSpelled_ofByte : ∀ b, (ofByte b).isSpelled = true :=
  forall_ofByte (P := fun k => k.isSpelled = true) rfl (by decide)

theorem isWord_ofByte : ∀ b, (ofByte b).isWord = false :=
  forall_ofByte (P := fun k => k.isWord = false) rfl (by decide)

end Token.Kind

namespace Lexer

open Token (Kind)

/-- What may stand between two tokens of a line: blanks, and the ends of lines
    that a backslash keeps from ending. -/
inductive Gap : Bytes → Prop
  | nil : Gap []
  | blank {b bs} : Byte.isBlank b = true → Gap bs → Gap (b :: bs)
  | line {bs} : Gap bs → Gap ('\\'.toUInt8 :: '\n'.toUInt8 :: bs)
  | returned {bs} : Gap bs → Gap ('\\'.toUInt8 :: '\r'.toUInt8 :: '\n'.toUInt8 :: bs)

/-- What may stand in front of the end of a line: a gap, and perhaps a comment. -/
inductive Trail : Bytes → Prop
  | gap {bs} : Gap bs → Trail bs
  | comment {bs text} : Gap bs → '\n'.toUInt8 ∉ text → Trail (bs ++ '#'.toUInt8 :: text)

/-- What spells a token of a kind. -/
inductive Spells : Kind → Bytes → Prop
  | name {b bs} : Byte.beginsName b = true → (∀ c ∈ bs, Byte.continuesName c = true) →
    Spells .name (b :: bs)
  | number {b bs} : Byte.isDigit b = true → (∀ c ∈ bs, c < 128) → Spells .number (b :: bs)
  | string {bs} : Spells .string ('\''.toUInt8 :: (bs ++ ['\''.toUInt8]))
  | symbol (b) : Spells (.ofByte b) [b]

variable {b : UInt8} {bs bs' : Bytes} {kind : Kind}

theorem Gap.append (h : Gap bs) (h' : Gap bs') : Gap (bs ++ bs') := by
  induction h with
  | nil => exact h'
  | blank hb _ ih => exact .blank hb ih
  | line _ ih => exact .line ih
  | returned _ ih => exact .returned ih

theorem gap_of_blank (h : ∀ b ∈ bs, Byte.isBlank b = true) : Gap bs := by
  induction bs with
  | nil => exact .nil
  | cons b bs ih =>
    obtain ⟨hb, hbs⟩ := List.forall_mem_cons.1 h
    exact .blank hb (ih hbs)

theorem Gap.trail (h : Gap bs) (h' : Trail bs') : Trail (bs ++ bs') := by
  cases h' with
  | gap h' => exact .gap (h.append h')
  | comment h' htext => exact List.append_assoc .. ▸ .comment (h.append h') htext

theorem Spells.ne_nil (h : Spells kind bs) : bs ≠ [] := by
  cases h <;> exact List.cons_ne_nil _ _

theorem Spells.isSpelled (h : Spells kind bs) : kind.isSpelled = true := by
  cases h with
  | symbol b => exact Kind.isSpelled_ofByte b
  | _ => rfl

theorem Spells.isLevel (h : Spells kind bs) : kind.isLevel = false :=
  Kind.isLevel_of_isSpelled h.isSpelled

/-! ## Names, numbers and strings -/

theorem isAscii_of_isHexDigit (h : Byte.isHexDigit b = true) : b < 128 := by
  have hle : b ≤ 'f'.toUInt8 := by
    simp only [Byte.isHexDigit, Byte.isDigit, Bool.or_eq_true, Bool.and_eq_true,
      decide_eq_true_eq] at h
    rcases h with (⟨-, h⟩ | ⟨-, h⟩) | ⟨-, h⟩
    · exact UInt8.le_trans h (by decide)
    · exact UInt8.le_trans h (by decide)
    · exact h
  exact UInt8.lt_of_le_of_lt hle (by decide)

theorem isAscii_of_isDigit (h : Byte.isDigit b = true) : b < 128 :=
  isAscii_of_isHexDigit (by rw [Byte.isHexDigit, h]; rfl)

theorem isAscii_of_isOctalDigit (h : Byte.isOctalDigit b = true) : b < 128 := by
  simp only [Byte.isOctalDigit, Bool.and_eq_true, decide_eq_true_eq] at h
  exact UInt8.lt_of_le_of_lt h.2 (by decide)

theorem isAscii_of_continuesName (h : Byte.continuesName b = true) : b < 128 := by
  simp only [Byte.continuesName, Byte.beginsName, Byte.isLetter, Bool.or_eq_true,
    Bool.and_eq_true, decide_eq_true_eq, beq_iff_eq] at h
  rcases h with ((⟨-, h⟩ | ⟨-, h⟩) | rfl) | h
  · exact UInt8.lt_of_le_of_lt h (by decide)
  · exact UInt8.lt_of_le_of_lt h (by decide)
  · decide
  · exact isAscii_of_isDigit h

theorem isAscii_of_numberStep {place place' : NumberPlace}
    (h : numberStep place b = some place') : b < 128 := by
  refine Decidable.byContradiction fun hb => ?_
  -- a byte above the others is none of the characters and digits in a number
  have hne : ∀ c : UInt8, c < 128 → b ≠ c := fun c hc heq => hb (heq ▸ hc)
  have hdigit : Byte.isDigit b = false := Bool.eq_false_iff.2 (mt isAscii_of_isDigit hb)
  have hoctal : Byte.isOctalDigit b = false := Bool.eq_false_iff.2 (mt isAscii_of_isOctalDigit hb)
  have hhex : Byte.isHexDigit b = false := Bool.eq_false_iff.2 (mt isAscii_of_isHexDigit hb)
  have hnone : numberStep place b = none := by
    cases place <;>
      simp [numberStep, hdigit, hoctal, hhex, hne '0'.toUInt8 (by decide),
        hne '.'.toUInt8 (by decide), hne 'x'.toUInt8 (by decide), hne 'X'.toUInt8 (by decide),
        hne 'e'.toUInt8 (by decide), hne 'E'.toUInt8 (by decide), hne '+'.toUInt8 (by decide),
        hne '-'.toUInt8 (by decide)]
  cases hnone.symm.trans h

theorem eq_quote_of_closed {place : StringPlace} (h : stringStep place b = some .closed) :
    b = '\''.toUInt8 := by
  cases place with
  | inside =>
    simp only [stringStep] at h
    split_ifs at h with hb
    · exact hb
    all_goals cases h
  | escaped =>
    simp only [stringStep] at h
    split_ifs at h <;> cases h
  | closed => cases h
  | broken => cases h

/-- A string ends with a quote. -/
theorem exists_run_string {place : StringPlace} (hplace : place ≠ .closed)
    (h : stringPattern.run place bs = (bs', .closed)) : ∃ text, bs' = text ++ ['\''.toUInt8] := by
  induction bs generalizing place bs' with
  | nil =>
    cases h
    exact absurd rfl hplace
  | cons b bs ih =>
    rw [Pattern.run] at h
    split_ifs at h with hc
    · cases h
      exact absurd rfl hplace
    · cases hstep : stringPattern.step place b with
      | none =>
        rw [hstep] at h
        cases h
        exact absurd rfl hplace
      | some place' =>
        rw [hstep] at h
        obtain ⟨rfl, hend⟩ := Prod.mk.inj h
        by_cases hclosed : place' = .closed
        · subst hclosed
          rw [Pattern.run_of_isComplete rfl, eq_quote_of_closed hstep]
          exact ⟨[], rfl⟩
        · obtain ⟨text, htext⟩ := ih hclosed (Prod.ext rfl hend)
          exact ⟨b :: text, congrArg (b :: ·) htext⟩

/-! ## Gaps -/

/-- The bytes that lead to a place in a gap from the place between two tokens. -/
def GapPlace.opening : GapPlace → Bytes
  | between | broken _ => []
  | backslash => ['\\'.toUInt8]
  | returned => ['\\'.toUInt8, '\r'.toUInt8]

/-- What is left over where a gap breaks off at a place: a backslash that ends no
    line, with what was taken after it. -/
inductive GapPlace.Leaves : GapPlace → Bytes → Prop
  | between : Leaves .between []
  | backslash : Leaves .backslash ['\\'.toUInt8]
  | returned : Leaves .returned ['\\'.toUInt8, '\r'.toUInt8]
  | other {c} : c ≠ '\r'.toUInt8 → c ≠ '\n'.toUInt8 → Leaves (.broken 2) ['\\'.toUInt8, c]
  | otherReturned {c} : c ≠ '\n'.toUInt8 →
    Leaves (.broken 3) ['\\'.toUInt8, '\r'.toUInt8, c]

theorem GapPlace.Leaves.length {place : GapPlace} (h : place.Leaves bs) :
    bs.length = place.excess := by
  cases h <;> rfl

theorem GapPlace.leaves_opening {place : GapPlace} (h : ∀ n, place ≠ .broken n) :
    place.Leaves place.opening := by
  cases place with
  | between => exact .between
  | backslash => exact .backslash
  | returned => exact .returned
  | broken n => exact absurd rfl (h n)

/-- A run from a place that is not broken takes the rest of a gap, and what breaks
    it off. -/
theorem exists_gap_of_run_from {place place' : GapPlace} (hplace : ∀ n, place ≠ .broken n)
    (h : gapPattern.run place bs = (bs', place')) :
    ∃ gap left, place.opening ++ bs' = gap ++ left ∧ Gap gap ∧ place'.Leaves left := by
  induction bs generalizing place bs' with
  | nil =>
    cases h
    exact ⟨[], _, List.append_nil _, .nil, GapPlace.leaves_opening hplace⟩
  | cons b bs ih =>
    have hc : gapPattern.isComplete place = false := by
      cases place with
      | broken n => exact absurd rfl (hplace n)
      | _ => rfl
    cases hstep : gapPattern.step place b with
    | none =>
      rw [Pattern.run_cons_none hstep] at h
      cases h
      exact ⟨[], _, List.append_nil _, .nil, GapPlace.leaves_opening hplace⟩
    | some place₁ =>
      rw [Pattern.run_cons_some hc hstep] at h
      obtain ⟨rfl, hend⟩ := Prod.mk.inj h
      have hrest : (∀ n, place₁ ≠ .broken n) → ∃ gap left,
          place₁.opening ++ (gapPattern.run place₁ bs).1 = gap ++ left ∧ Gap gap ∧
            place'.Leaves left :=
        fun hplace₁ => ih hplace₁ (Prod.ext rfl hend)
      change gapStep place b = some place₁ at hstep
      cases place with
      | between =>
        simp only [gapStep] at hstep
        split_ifs at hstep with hblank hb
        · cases hstep
          obtain ⟨gap, left, heq, hgap, hleft⟩ := hrest nofun
          exact ⟨b :: gap, left, congrArg (b :: ·) heq, .blank hblank hgap, hleft⟩
        · cases hstep
          subst hb
          exact hrest nofun
      | backslash =>
        simp only [gapStep] at hstep
        split_ifs at hstep with hb hb'
        · cases hstep
          subst hb
          exact hrest nofun
        · cases hstep
          subst hb'
          obtain ⟨gap, left, heq, hgap, hleft⟩ := hrest nofun
          exact ⟨'\\'.toUInt8 :: '\n'.toUInt8 :: gap, left,
            congrArg ('\\'.toUInt8 :: '\n'.toUInt8 :: ·) heq, .line hgap, hleft⟩
        · cases hstep
          rw [Pattern.run_of_isComplete rfl] at hend ⊢
          cases hend
          exact ⟨[], _, rfl, .nil, .other hb hb'⟩
      | returned =>
        simp only [gapStep] at hstep
        split_ifs at hstep with hb
        · cases hstep
          subst hb
          obtain ⟨gap, left, heq, hgap, hleft⟩ := hrest nofun
          exact ⟨'\\'.toUInt8 :: '\r'.toUInt8 :: '\n'.toUInt8 :: gap, left,
            congrArg ('\\'.toUInt8 :: '\r'.toUInt8 :: '\n'.toUInt8 :: ·) heq, .returned hgap, hleft⟩
        · cases hstep
          rw [Pattern.run_of_isComplete rfl] at hend ⊢
          cases hend
          exact ⟨[], _, rfl, .nil, .otherReturned hb⟩
      | broken n => exact absurd rfl (hplace n)

/-- A run from between two tokens takes a gap, and what breaks it off. -/
theorem exists_gap_of_run {place : GapPlace} (h : gapPattern.run .between bs = (bs', place)) :
    ∃ gap left, bs' = gap ++ left ∧ Gap gap ∧ place.Leaves left := by
  have hplace : ∀ n, GapPlace.between ≠ .broken n := nofun
  exact exists_gap_of_run_from hplace h

theorem gap_of_run (h : gapPattern.run .between bs = (bs', .between)) : Gap bs' := by
  obtain ⟨gap, left, rfl, hgap, hleft⟩ := exists_gap_of_run h
  cases hleft
  rwa [List.append_nil]

/-- A gap that breaks off keeps the length of what breaks it. -/
theorem eq_between_of_excess {place : GapPlace} (h : gapPattern.run .between bs = (bs', place))
    (hexcess : place.excess = 0) : place = .between := by
  obtain ⟨-, left, -, -, hleft⟩ := exists_gap_of_run h
  cases hleft with
  | between => rfl
  | _ => cases hexcess

/-! ## Columns -/

/-- The column that follows the blanks at the beginning of a line. -/
def columnAfter (tabSize : UInt64) (blanks : Bytes) : UInt64 :=
  blanks.foldl (fun column b =>
    if b = '\t'.toUInt8 then (column / tabSize + 1) * tabSize else column + 1) 0

theorem columnPattern_step {tabSize column column' : UInt64}
    (h : (columnPattern tabSize).step column b = some column') :
    Byte.isBlank b = true ∧ column' =
      if b = '\t'.toUInt8 then (column / tabSize + 1) * tabSize else column + 1 := by
  simp only [columnPattern] at h
  split_ifs at h with hspace htab
  · subst hspace
    exact ⟨rfl, (Option.some.inj h).symm⟩
  · subst htab
    exact ⟨rfl, (Option.some.inj h).symm⟩

theorem run_columnPattern {tabSize column column' : UInt64}
    (h : (columnPattern tabSize).run column bs = (bs', column')) :
    column' = bs'.foldl (fun column b =>
      if b = '\t'.toUInt8 then (column / tabSize + 1) * tabSize else column + 1) column := by
  induction bs generalizing column bs' with
  | nil =>
    cases h
    rfl
  | cons b bs ih =>
    cases hstep : (columnPattern tabSize).step column b with
    | none =>
      rw [Pattern.run_cons_none hstep] at h
      cases h
      rfl
    | some column₁ =>
      rw [Pattern.run_cons_some rfl hstep] at h
      obtain ⟨rfl, hend⟩ := Prod.mk.inj h
      rw [List.foldl_cons, ← (columnPattern_step hstep).2]
      exact ih (Prod.ext rfl hend)

end Lexer

end ScriptCore
