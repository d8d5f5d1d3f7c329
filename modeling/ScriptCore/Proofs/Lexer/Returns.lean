import ScriptCore.Proofs.Lexer.Length
import ScriptCore.Proofs.Lexer.LineNumbers

/-!
# Carriage returns

The lines of a text may end with a carriage return and a newline, and its tokens are
the same: wherever a newline is met, the carriage return in front of it is passed over
or makes no difference.

* `Bytes.withReturns`: a text whose lines end so. It is written in each of its directives
  as before (`TabDirective.parse?_withReturns`).
* `Pattern.Passes`: patterns that pass over carriage returns, and what they take then
  (`Input.munch_withReturns`).
* `Lexer.withReturns`: a lexer on such a text. It does the same (`unseen_get`), in a run
  (`run_withReturns`) and by calls (`History.Unseen.calls`).
* `returns_unseen`: what follows for all texts.
-/

namespace ScriptCore

/-! ## Texts -/

namespace Bytes

variable {b : UInt8} {bs : Bytes}

/-- A text with a carriage return in front of each newline. -/
def withReturns (bs : Bytes) : Bytes :=
  bs.flatMap fun b => if b = '\n'.toUInt8 then ['\r'.toUInt8, b] else [b]

theorem withReturns_append (bs bs' : Bytes) :
    withReturns (bs ++ bs') = withReturns bs ++ withReturns bs' :=
  List.flatMap_append

theorem withReturns_cons_newline (bs : Bytes) :
    withReturns ('\n'.toUInt8 :: bs) = '\r'.toUInt8 :: '\n'.toUInt8 :: withReturns bs :=
  rfl

theorem withReturns_cons (hb : b ≠ '\n'.toUInt8) : withReturns (b :: bs) = b :: withReturns bs := by
  rw [withReturns, List.flatMap_cons, if_neg hb]
  rfl

theorem withReturns_of_notMem (h : '\n'.toUInt8 ∉ bs) : withReturns bs = bs := by
  induction bs with
  | nil => rfl
  | cons b bs ih =>
    obtain ⟨hb, hbs⟩ := not_or.1 (mt List.mem_cons.2 h)
    rw [withReturns_cons (Ne.symm hb), ih hbs]

theorem count_withReturns (bs : Bytes) :
    (withReturns bs).count '\n'.toUInt8 = bs.count '\n'.toUInt8 := by
  induction bs with
  | nil => rfl
  | cons b bs ih =>
    by_cases hb : b = '\n'.toUInt8
    · subst hb
      rw [withReturns_cons_newline, List.count_cons_of_ne (by decide), List.count_cons_self,
        List.count_cons_self, ih]
    · rw [withReturns_cons hb, List.count_cons_of_ne hb, List.count_cons_of_ne hb, ih]

theorem length_le_withReturns (bs : Bytes) : bs.length ≤ (withReturns bs).length := by
  induction bs with
  | nil => exact Nat.le_refl _
  | cons b bs ih =>
    by_cases hb : b = '\n'.toUInt8
    · subst hb
      simp only [withReturns_cons_newline, List.length_cons]
      omega
    · simp only [withReturns_cons hb, List.length_cons]
      omega

theorem withReturns_ne_nil (h : bs ≠ []) : withReturns bs ≠ [] :=
  List.ne_nil_of_length_pos ((List.length_pos_iff.2 h).trans_le (length_le_withReturns bs))

end Bytes

/-- A token, where the text of an error is left out. -/
def Token.plain (t : Token) : Token :=
  if t.kind = .error then { t with text := "" } else t

theorem Token.kind_plain (t : Token) : t.plain.kind = t.kind := by
  rw [plain]
  split_ifs <;> rfl

namespace Lexer

open Bytes
open Token (Kind)

/-! ## Directives -/

namespace TabDirective

/-- Carriage returns are spaces, as newlines are. -/
theorem skipSpaces_withReturns (bs : Bytes) :
    skipSpaces (withReturns bs) = withReturns (skipSpaces bs) := by
  induction bs with
  | nil => rfl
  | cons b bs ih =>
    by_cases hb : b = '\n'.toUInt8
    · subst hb
      exact ih
    · rw [withReturns_cons hb, skipSpaces, skipSpaces, List.dropWhile_cons, List.dropWhile_cons]
      split_ifs
      · exact ih
      · exact (withReturns_cons hb).symm

theorem after?_cons_cons {b c : UInt8} (word bs : Bytes) :
    after? (c :: word) (b :: bs) = if c = b then after? word bs else none := by
  simp only [after?, List.cons_prefix_cons, List.length_cons, List.drop_succ_cons]
  split_ifs <;> simp_all

/-- A word has neither carriage returns nor newlines. -/
theorem after?_withReturns {word : Bytes} (hreturn : '\r'.toUInt8 ∉ word)
    (hline : '\n'.toUInt8 ∉ word) (bs : Bytes) :
    after? word (withReturns bs) = (after? word bs).map withReturns := by
  induction word generalizing bs with
  | nil => rfl
  | cons c word ih =>
    obtain ⟨hc, hreturn⟩ := not_or.1 (mt List.mem_cons.2 hreturn)
    obtain ⟨hc', hline⟩ := not_or.1 (mt List.mem_cons.2 hline)
    cases bs with
    | nil => rfl
    | cons b bs =>
      by_cases hb : b = '\n'.toUInt8
      · subst hb
        rw [withReturns_cons_newline, after?_cons_cons, after?_cons_cons, if_neg (Ne.symm hc),
          if_neg (Ne.symm hc')]
        rfl
      · rw [withReturns_cons hb, after?_cons_cons, after?_cons_cons]
        split_ifs
        · exact ih hreturn hline bs
        · rfl

theorem sign_withReturns (bs : Bytes) :
    sign (withReturns bs) = ((sign bs).1, withReturns (sign bs).2) := by
  cases bs with
  | nil => rfl
  | cons b bs =>
    by_cases hb : b = '\n'.toUInt8
    · subst hb
      rfl
    · rw [withReturns_cons hb, sign, sign]
      split_ifs
      · rfl
      · rfl
      · rw [withReturns_cons hb]

theorem takeWhile_isDigit_withReturns (bs : Bytes) :
    (withReturns bs).takeWhile Byte.isDigit = bs.takeWhile Byte.isDigit := by
  induction bs with
  | nil => rfl
  | cons b bs ih =>
    by_cases hb : b = '\n'.toUInt8
    · subst hb
      rfl
    · rw [withReturns_cons hb, List.takeWhile_cons, List.takeWhile_cons, ih]

/-- Carriage returns in front of newlines change no directive, not even one that runs over
    the end of a line. -/
theorem parse?_withReturns (comment : Bytes) : parse? (withReturns comment) = parse? comment := by
  have hword : ∀ bs, after? editorWord (withReturns bs) = _ :=
    after?_withReturns (by decide) (by decide)
  have hword' : ∀ bs, after? sizeWord (withReturns bs) = _ :=
    after?_withReturns (by decide) (by decide)
  simp only [parse?, skipSpaces_withReturns, hword, hword', sign_withReturns,
    takeWhile_isDigit_withReturns, Option.bind_eq_bind, Option.bind_map, Function.comp_def]

end TabDirective

/-! ## Patterns -/

/-- Whether a pattern passes over a carriage return in front of a newline, at the places
    that it comes to without carriage returns: where it takes the newline it takes both,
    and where it does not, the carriage return leaves it at its place or is not taken
    either. -/
structure Pattern.Passes {σ : Type} (p : Pattern σ) (P : σ → Prop) : Prop where
  step : ∀ s b s', P s → b ≠ '\r'.toUInt8 → p.step s b = some s' → P s'
  taken : ∀ s s', P s → p.isComplete s = false → p.step s '\n'.toUInt8 = some s' →
    ∃ t, p.step s '\r'.toUInt8 = some t ∧ p.isComplete t = false ∧
      p.step t '\n'.toUInt8 = some s'
  refused : ∀ s, P s → p.isComplete s = false → p.step s '\n'.toUInt8 = none →
    p.step s '\r'.toUInt8 = none ∨ p.step s '\r'.toUInt8 = some s

section Patterns

theorem Pattern.passes_of_refused {σ : Type} {p : Pattern σ}
    (hline : ∀ s, p.step s '\n'.toUInt8 = none) (hreturn : ∀ s, p.step s '\r'.toUInt8 = none) :
    p.Passes fun _ => True where
  step := fun _ _ _ _ _ _ => trivial
  taken := fun s s' _ _ h => absurd ((hline s).symm.trans h) (Option.some_ne_none s').symm
  refused := fun s _ _ _ => .inl (hreturn s)

theorem passes_column (tabSize : UInt64) : (columnPattern tabSize).Passes fun _ => True :=
  Pattern.passes_of_refused (fun _ => rfl) fun _ => rfl

theorem passes_name : namePattern.Passes fun _ => True :=
  Pattern.passes_of_refused (fun _ => rfl) fun _ => rfl

theorem passes_number : numberPattern.Passes fun _ => True :=
  Pattern.passes_of_refused (fun s => by cases s <;> rfl) fun s => by cases s <;> rfl

theorem passes_comment : commentPattern.Passes fun _ => True where
  step := fun _ _ _ _ _ _ => trivial
  taken := fun _ _ _ _ h => by cases h
  refused := fun _ _ _ _ => .inr rfl

theorem passes_string : stringPattern.Passes fun _ => True where
  step := fun _ _ _ _ _ _ => trivial
  taken := fun s s' _ hc h => by
    cases s with
    | inside | escaped => exact ⟨.inside, rfl, rfl, h⟩
    | closed | broken => cases hc
  refused := fun s _ hc h => by
    cases s with
    | inside | escaped => cases h
    | closed | broken => cases hc

/-- Without carriage returns none stands behind a backslash. -/
theorem passes_gap : gapPattern.Passes (· ≠ .returned) where
  step := fun s b s' hs hb h => by
    rintro rfl
    cases s with
    | between =>
      simp only [gapPattern, gapStep] at h
      split_ifs at h
      · cases h
      · cases h
    | backslash =>
      simp only [gapPattern, gapStep, if_neg hb] at h
      split_ifs at h
      · cases h
      · cases h
    | returned => exact hs rfl
    | broken => cases h
  taken := fun s s' hs hc h => by
    cases s with
    | between => cases h
    | backslash => exact ⟨.returned, rfl, rfl, h⟩
    | returned => exact absurd rfl hs
    | broken => cases hc
  refused := fun s hs hc h => by
    cases s with
    | between => exact .inr rfl
    | backslash => cases h
    | returned => exact absurd rfl hs
    | broken => cases hc

end Patterns

/-! ## Inputs -/

/-- What a read brings of a text with carriage returns. -/
def Read.withReturns : Read → Read
  | bytes bs => bytes (Bytes.withReturns bs)
  | r => r

/-- A source that brings carriage returns too. -/
def Source.withReturns (s : Source) : Source :=
  { s with reads := s.reads.map Read.withReturns }

theorem Source.size_le_withReturns (s : Source) : s.size ≤ s.withReturns.size := by
  have hread (r : Read) : r.size ≤ r.withReturns.size := by
    cases r with
    | bytes bs => exact length_le_withReturns bs
    | endOfInput | interrupted | failed => exact Nat.le_refl _
  rw [size, size, withReturns]
  induction s.reads with
  | nil => exact Nat.le_refl _
  | cons r rs ih => exact Nat.add_le_add (hread r) ih

theorem Source.next_withReturns (s : Source) :
    s.withReturns.next = (s.next.1.withReturns, s.next.2.withReturns) := by
  obtain ⟨reads, _, interrupted⟩ := s
  cases interrupted <;> cases reads <;> rfl

namespace Input

/-- An input that brings carriage returns too. -/
def withReturns (i : Input) : Input :=
  { i with pending := Bytes.withReturns i.pending, source := i.source.withReturns }

variable {i : Input} {b : UInt8}

theorem showPrompt_withReturns (i : Input) :
    i.withReturns.showPrompt = i.showPrompt.withReturns := by
  obtain ⟨_, _, due, _, _, midLine, _⟩ := i
  cases midLine <;> cases due <;> rfl

theorem receive_withReturns (i : Input) (r : Read) :
    i.withReturns.receive r.withReturns = (i.receive r).withReturns := by
  cases r with
  | bytes bs =>
    cases bs with
    | nil => rfl
    | cons b bs =>
      by_cases hb : b = '\n'.toUInt8
      · subst hb
        rfl
      · simp only [Read.withReturns, withReturns_cons hb, receive, withReturns]
  | endOfInput | interrupted | failed => rfl

theorem fill_withReturns (i : Input) : i.withReturns.fill = i.fill.withReturns := by
  by_cases hs : i.status = .ok
  · cases hp : i.pending with
    | nil =>
      have hp' : i.withReturns.pending = [] := by rw [withReturns, hp]; rfl
      rw [fill_of_nil hs hp, fill_of_nil (i := i.withReturns) hs hp', showPrompt_withReturns,
        ← receive_withReturns]
      simp only [withReturns, Source.next_withReturns]
    | cons b bs =>
      have hne : i.pending ≠ [] := hp ▸ List.cons_ne_nil b bs
      have hne' : i.withReturns.pending ≠ [] := withReturns_ne_nil hne
      rw [fill_of_ne_nil hne', fill_of_ne_nil hne]
  · rw [fill_of_ne_ok hs, fill_of_ne_ok (i := i.withReturns) hs]

theorem fill_of_head? (hb : i.head? = some b) : i.fill = i := by
  obtain ⟨-, bs, hp⟩ := exists_pending_of_head? hb
  exact fill_of_ne_nil (by simp [hp])

theorem head?_withReturns (i : Input) : i.withReturns.head? =
    i.head?.map fun b => if b = '\n'.toUInt8 then '\r'.toUInt8 else b := by
  rw [head?, head?, show i.withReturns.status = i.status from rfl]
  split_ifs
  · rw [show i.withReturns.pending = Bytes.withReturns i.pending from rfl]
    cases i.pending with
    | nil => rfl
    | cons b bs =>
      by_cases hb : b = '\n'.toUInt8
      · subst hb
        rfl
      · simp [withReturns_cons hb, hb]
  · rfl

theorem advance_withReturns (hb : i.head? = some b) (hline : b ≠ '\n'.toUInt8) :
    i.withReturns.advance = i.advance.withReturns := by
  obtain ⟨-, bs, hp⟩ := exists_pending_of_head? hb
  have hp' : i.withReturns.pending = b :: Bytes.withReturns bs := by
    rw [← withReturns_cons hline, ← hp]
    rfl
  rw [advance_eq hp, advance_eq hp']
  rfl

/-- A newline is taken after the carriage return in front of it. -/
theorem advance_advance_withReturns (hb : i.head? = some '\n'.toUInt8) :
    i.withReturns.advance.head? = some '\n'.toUInt8 ∧
      i.withReturns.advance.advance = i.advance.withReturns := by
  obtain ⟨hok, bs, hp⟩ := exists_pending_of_head? hb
  have hp' : i.withReturns.pending =
      '\r'.toUInt8 :: '\n'.toUInt8 :: Bytes.withReturns bs := by
    rw [← withReturns_cons_newline, ← hp]
    rfl
  have hadvance := advance_eq hp'
  refine ⟨?_, ?_⟩
  · rw [head?, if_pos ((status_advance i.withReturns).trans hok), hadvance]
    rfl
  · have hp'' : i.withReturns.advance.pending = '\n'.toUInt8 :: Bytes.withReturns bs := by
      rw [hadvance]
    rw [advance_eq hp'', advance_eq hp, hadvance]
    rfl

/-- What a pattern takes with carriage returns: the same, and what is left is the same; or
    one more, where it stops in front of a newline. -/
inductive Beside {σ : Type} (p : Pattern σ) : Bytes × σ × Input → Bytes × σ × Input → Prop
  | same {bs s i} : (p.isComplete s = false → i.head? = some '\n'.toUInt8 →
      p.step s '\r'.toUInt8 = none) →
    Beside p (bs, s, i) (Bytes.withReturns bs, s, i.withReturns)
  | between {bs s i} : i.head? = some '\n'.toUInt8 → p.step s '\r'.toUInt8 = some s →
    p.step s '\n'.toUInt8 = none →
    Beside p (bs, s, i) (Bytes.withReturns bs ++ ['\r'.toUInt8], s, i.withReturns.advance)

theorem Beside.append {σ : Type} {p : Pattern σ} {r r' : Bytes × σ × Input} (h : Beside p r r')
    (bs : Bytes) : Beside p (bs ++ r.1, r.2) (Bytes.withReturns bs ++ r'.1, r'.2) := by
  cases h with
  | same hstop =>
    simp only [← withReturns_append]
    exact .same hstop
  | between hhead hreturn hline =>
    simp only [← List.append_assoc, ← withReturns_append]
    exact .between hhead hreturn hline

/-- A pattern that passes over carriage returns takes the same bytes with them as without. -/
theorem munch_withReturns {σ : Type} {p : Pattern σ} {P : σ → Prop} (hp : p.Passes P) {s : σ}
    (hs : P s) (hi : '\r'.toUInt8 ∉ i.content) :
    Beside p (munch p s i) (munch p s i.withReturns) := by
  have hhead {i : Input} {b : UInt8} (hb : i.fill.head? = some b) :
      i.withReturns.fill.head? = some (if b = '\n'.toUInt8 then '\r'.toUInt8 else b) := by
    rw [fill_withReturns, head?_withReturns, hb]
    rfl
  -- the cases are: the pattern is complete, no byte is left, the next byte does not
  -- belong to the pattern, and it does
  fun_induction munch p s i with
  | case1 s i hc =>
    rw [munch_of_isComplete hc]
    exact .same fun h => absurd (h.symm.trans hc) Bool.false_ne_true
  | case2 s i hc hb =>
    have hb' : i.withReturns.fill.head? = none := by
      rw [fill_withReturns, head?_withReturns, hb]
      rfl
    rw [munch_of_head?_eq_none (Bool.eq_false_iff.2 hc) hb', fill_withReturns]
    exact .same fun _ h => absurd (hb.symm.trans h) (Option.some_ne_none _).symm
  | case3 s i hc b hb hstep =>
    rw [Bool.not_eq_true] at hc
    by_cases hline : b = '\n'.toUInt8
    · subst hline
      rcases hp.refused s hs hc hstep with hnone | hstays
      · rw [munch_of_step_eq_none hc (hhead hb) hnone, fill_withReturns]
        exact .same fun _ _ => hnone
      · have hnext := (advance_advance_withReturns hb).1
        have hnext' : i.fill.withReturns.advance.fill.head? = some '\n'.toUInt8 := by
          rwa [fill_of_head? hnext]
        rw [munch_of_step_eq_some hc (hhead hb) hstays, fill_withReturns,
          munch_of_step_eq_none hc hnext' hstep, fill_of_head? hnext]
        exact .between hb hstays hstep
    · have hb' := hhead hb
      rw [if_neg hline] at hb'
      rw [munch_of_step_eq_none hc hb' hstep, fill_withReturns]
      exact .same fun _ h => absurd (Option.some.inj (hb.symm.trans h)) hline
  | case4 s i hc b hb s' hstep r ih =>
    rw [Bool.not_eq_true] at hc
    rw [← content_fill, content_advance hb] at hi
    obtain ⟨hreturn, hi⟩ := not_or.1 (mt List.mem_cons.2 hi)
    have hlater := ih (hp.step s b s' hs (Ne.symm hreturn) hstep) hi
    by_cases hline : b = '\n'.toUInt8
    · subst hline
      obtain ⟨t, ht, hct, hstep'⟩ := hp.taken s s' hs hc hstep
      obtain ⟨hnext, hadvance⟩ := advance_advance_withReturns hb
      have hnext' : i.fill.withReturns.advance.fill.head? = some '\n'.toUInt8 := by
        rwa [fill_of_head? hnext]
      rw [munch_of_step_eq_some hc (hhead hb) ht, fill_withReturns,
        munch_of_step_eq_some hct hnext' hstep', fill_of_head? hnext, hadvance]
      exact hlater.append ['\n'.toUInt8]
    · have hb' := hhead hb
      rw [if_neg hline] at hb'
      rw [munch_of_step_eq_some hc hb' hstep, fill_withReturns, advance_withReturns hb hline]
      have happend := hlater.append [b]
      rw [withReturns_of_notMem (by simpa using Ne.symm hline)] at happend
      exact happend

/-- Where a pattern does not stop between the two, it takes the same. -/
theorem Beside.eq_same {σ : Type} {p : Pattern σ} {bs : Bytes} {s : σ} {r : Bytes × σ × Input}
    (h : Beside p (bs, s, i) r)
    (hstop : p.step s '\n'.toUInt8 = none → p.step s '\r'.toUInt8 = none) :
    r = (Bytes.withReturns bs, s, i.withReturns) := by
  cases h with
  | same => rfl
  | between _ hreturn hline => exact absurd ((hstop hline).symm.trans hreturn) (by simp)

end Input

/-! ## Lexers -/

/-- A lexer whose input brings carriage returns too. -/
def withReturns (l : Lexer) : Lexer :=
  { l with input := l.input.withReturns }

/-- Whether the same is handed out, up to the bytes of an error and to what stands in
    front of a token, and the lexers that are left are so related. -/
structure Returned (r r' : Lexeme × Lexer) : Prop where
  kind : r'.1.kind = r.1.kind
  bytes : r.1.kind ≠ .error → r'.1.bytes = r.1.bytes
  lexer : r'.2 = r.2.withReturns

variable {l : Lexer} {b : UInt8}

theorem Returned.skip {r r' : Lexeme × Lexer} (h : Returned r r') (skipped skipped' : Bytes) :
    Returned ({ r.1 with skipped }, r.2) ({ r'.1 with skipped := skipped' }, r'.2) :=
  ⟨h.kind, h.bytes, h.lexer⟩

theorem fault_withReturns (l : Lexer) (f : Fault) :
    l.withReturns.fault f = (l.fault f).withReturns := by
  rw [fault, fault, show l.withReturns.status = l.status from rfl]
  split_ifs <;> rfl

theorem advance_withReturns (hb : l.input.head? = some b) (hline : b ≠ '\n'.toUInt8) :
    l.withReturns.advance = l.advance.withReturns :=
  congrArg (fun input => { l with input }) (Input.advance_withReturns hb hline)

theorem notMem_content_advance (hi : '\r'.toUInt8 ∉ l.input.content)
    (hb : l.input.head? = some b) : '\r'.toUInt8 ∉ l.input.advance.content := by
  rw [Input.content_advance hb] at hi
  exact mt (List.mem_cons_of_mem b) hi

/-- A token, or whatever else is taken by a pattern that does not stop between a carriage
    return and a newline. -/
theorem returned_take {σ : Type} {p : Pattern σ} {P : σ → Prop} {s : σ} (hp : p.Passes P)
    (hs : P s) (hstop : ∀ s, p.step s '\n'.toUInt8 = none → p.step s '\r'.toUInt8 = none)
    (hi : '\r'.toUInt8 ∉ l.input.content) (hb : l.input.head? = some b)
    (hline : b ≠ '\n'.toUInt8) (verdict : σ → Kind ⊕ Fault)
    (hverdict : ∀ bs kind, verdict (p.run s bs).2 = .inl kind →
      '\n'.toUInt8 ∉ b :: (p.run s bs).1) :
    Returned (l.take b p s verdict) (l.withReturns.take b p s verdict) := by
  obtain ⟨bs, s', input, hmunch, hmunched⟩ := Input.exists_munched p s l.input.advance
  have hbeside := Input.munch_withReturns hp hs (notMem_content_advance hi hb)
  rw [hmunch, ← Input.advance_withReturns hb hline] at hbeside
  have hmunch' : l.withReturns.input.advance.munch p s = _ := hbeside.eq_same (hstop s')
  simp only [take, hmunch, hmunch']
  cases hv : verdict s' with
  | inl kind =>
    have hnewline := hverdict l.input.advance.rest kind (by rw [hmunched.run]; exact hv)
    rw [hmunched.run] at hnewline
    refine ⟨rfl, fun _ => ?_, rfl⟩
    rw [Bytes.withReturns_of_notMem (mt (List.mem_cons_of_mem b) hnewline)]
  | inr f => exact ⟨rfl, fun herror => absurd rfl herror, fault_withReturns { l with input } f⟩

/-- The end of a line is taken behind the carriage return in front of it. -/
theorem returned_endLine (hb : l.input.head? = some '\n'.toUInt8) :
    Returned (l.endLine '\n'.toUInt8)
      (({ l with input := l.input.withReturns.advance } : Lexer).endLine '\n'.toUInt8) where
  kind := rfl
  bytes := fun _ => rfl
  lexer := congrArg (fun input => { l with input, lineStart := true })
    (Input.advance_advance_withReturns hb).2

theorem obeyComment_withReturns (l : Lexer) :
    l.withReturns.obeyComment = l.obeyComment.withReturns := by
  have hparse : TabDirective.parse? l.withReturns.input.pending = _ :=
    TabDirective.parse?_withReturns l.input.pending
  rw [obeyComment_eq, obeyComment_eq, tabSizeAfter, hparse]
  rfl

theorem atEnd_withReturns (l : Lexer) : Returned l.atEnd l.withReturns.atEnd :=
  ⟨rfl, fun _ => rfl, rfl⟩

theorem returned_takeComment (hi : '\r'.toUInt8 ∉ l.input.content)
    (hb : l.input.head? = some '#'.toUInt8) :
    Returned (l.takeComment '#'.toUInt8) (l.withReturns.takeComment '#'.toUInt8) := by
  obtain ⟨bs, s', input, hmunch, hmunched⟩ :=
    Input.exists_munched commentPattern () l.advance.obeyComment.input
  obtain ⟨-, hline⟩ := comment_of_munched hmunched
  have hobey : l.withReturns.advance.obeyComment = l.advance.obeyComment.withReturns := by
    rw [advance_withReturns hb (by decide), obeyComment_withReturns]
  have hcontent : '\r'.toUInt8 ∉ l.advance.obeyComment.input.content := by
    rw [obeyComment_eq]
    exact notMem_content_advance hi hb
  have hbeside := Input.munch_withReturns passes_comment (s := ()) trivial hcontent
  rw [hmunch] at hbeside
  simp only [takeComment, hobey, hmunch]
  generalize hmunch' : Input.munch commentPattern () l.advance.obeyComment.input.withReturns = r'
    at hbeside
  have hmunch' : l.advance.obeyComment.withReturns.input.munch commentPattern () = r' := hmunch'
  rw [hmunch']
  cases hbeside with
  | same hstop =>
    cases hhead : input.head? with
    | none =>
      have hhead' : input.withReturns.head? = none := by
        rw [Input.head?_withReturns, hhead]
        rfl
      simp only [hhead']
      exact (atEnd_withReturns { l.advance.obeyComment with input }).skip _ _
    | some c =>
      -- a comment does not stop in front of a carriage return
      obtain rfl := hline c ((hmunched.head rfl).symm.trans hhead)
      cases hstop rfl hhead
  | between hhead =>
    simp only [hhead, (Input.advance_advance_withReturns hhead).1]
    exact (returned_endLine (l := { l.advance.obeyComment with input }) hhead).skip _ _

theorem returned_takeToken (hi : '\r'.toUInt8 ∉ l.input.content) (hb : l.input.head? = some b)
    (hline : b ≠ '\n'.toUInt8) : Returned (l.takeToken b) (l.withReturns.takeToken b) := by
  have hstring : ∀ s, stringPattern.step s '\n'.toUInt8 = none →
      stringPattern.step s '\r'.toUInt8 = none := fun s h => by
    cases s with
    | inside | escaped => cases h
    | closed | broken => rfl
  have hnumber : ∀ s, numberPattern.step s '\r'.toUInt8 = none := fun s => by cases s <;> rfl
  rw [takeToken, takeToken]
  split_ifs with hhash hname hzero hdigit hquote
  · subst hhash
    exact returned_takeComment hi hb
  · exact returned_take passes_name trivial (fun _ _ => rfl) hi hb hline _
      fun bs _ _ => newline_notMem_run_names hname bs
  · subst hzero
    exact returned_take passes_number trivial (fun s _ => hnumber s) hi hb hline _
      fun bs _ _ => newline_notMem_run_numbers rfl bs
  · have hwhole : numberStep .start b = some .whole := by
      rw [numberStep, if_neg hzero, if_pos hdigit]
    exact returned_take passes_number trivial (fun s _ => hnumber s) hi hb hline _
      fun bs _ _ => newline_notMem_run_numbers hwhole bs
  · subst hquote
    refine returned_take passes_string trivial hstring hi hb hline _
      fun bs kind hv => newline_notMem_run_strings ?_
    by_contra hopen
    rw [if_neg hopen] at hv
    cases hv
  · exact ⟨rfl, fun _ => rfl, advance_withReturns hb hline⟩

/-- What stands behind a gap, if it is not the end of a line. -/
theorem returned_atHead (hi : '\r'.toUInt8 ∉ l.input.content)
    (hline : l.input.head? ≠ some '\n'.toUInt8) :
    Returned (match l.input.head? with | some b => l.takeToken b | none => l.atEnd)
      (match l.withReturns.input.head? with
        | some b => l.withReturns.takeToken b
        | none => l.withReturns.atEnd) := by
  rw [show l.withReturns.input.head? = _ from Input.head?_withReturns l.input]
  cases hb : l.input.head? with
  | none => exact atEnd_withReturns l
  | some b =>
    have hne : b ≠ '\n'.toUInt8 := fun heq => hline (heq ▸ hb)
    rw [Option.map_some, if_neg hne]
    exact returned_takeToken hi hb hne

theorem GapPlace.Leaves.take_append {place : GapPlace} {left : Bytes} (h : place.Leaves left)
    (gap : Bytes) : (gap ++ left).take ((gap ++ left).length - place.excess) = gap := by
  rw [← h.length, List.length_append, Nat.add_sub_cancel, List.take_left]

/-- A token, with the space in front of it. -/
theorem returned_scanToken (hi : '\r'.toUInt8 ∉ l.input.content) :
    Returned l.scanToken l.withReturns.scanToken := by
  obtain ⟨bs, place, input, hmunch, hmunched⟩ :=
    Input.exists_munched gapPattern .between l.input
  obtain ⟨gap, left, rfl, -, hleaves⟩ := exists_gap_of_run hmunched.run
  have hcontent : '\r'.toUInt8 ∉ input.content := by
    have hsplit := Input.content_munch gapPattern .between l.input
    rw [hmunch] at hsplit
    rw [hsplit] at hi
    exact mt (List.mem_append_right _) hi
  have hbeside := Input.munch_withReturns passes_gap (s := GapPlace.between) (by decide) hi
  rw [hmunch] at hbeside
  let m : Lexer := { l with input, line := l.line + gap.count '\n'.toUInt8 }
  simp only [scanToken, hmunch, hleaves.take_append]
  generalize hmunch' : Input.munch gapPattern .between l.input.withReturns = r' at hbeside
  have hmunch' : l.withReturns.input.munch gapPattern .between = r' := hmunch'
  rw [hmunch']
  cases hbeside with
  | same hstop =>
    -- what breaks the gap off has no newline
    have hsplit : Bytes.withReturns (gap ++ left) = Bytes.withReturns gap ++ left := by
      rw [Bytes.withReturns_append, Bytes.withReturns_of_notMem hleaves.newline_notMem]
    simp only [hsplit, hleaves.take_append, Bytes.count_withReturns]
    split_ifs with hexcess
    · obtain rfl := eq_between_of_excess hmunched.run hexcess
      exact (returned_atHead (l := m) hcontent fun hhead => by cases hstop rfl hhead).skip _ _
    · exact ⟨rfl, fun herror => absurd rfl herror, fault_withReturns m .badContinuation⟩
  | between hhead hreturn =>
    obtain rfl : place = .between := by
      cases place with
      | between => rfl
      | backslash | returned | broken => cases hreturn
    cases hleaves
    have hcount : (Bytes.withReturns (gap ++ []) ++ ['\r'.toUInt8]).count '\n'.toUInt8 =
        gap.count '\n'.toUInt8 := by
      rw [List.append_nil, List.count_append, Bytes.count_withReturns]
      rfl
    simp only [GapPlace.excess, if_true, Nat.sub_zero, List.take_length, hcount, hhead,
      (Input.advance_advance_withReturns hhead).1]
    -- the newline is the next token
    exact (returned_endLine (l := m) hhead).skip _ _

theorem beginLine_withReturns (hi : '\r'.toUInt8 ∉ l.input.content) :
    ∃ blanks blanks' f m, l.beginLine = (blanks, f, m) ∧
      l.withReturns.beginLine = (blanks', f, m.withReturns) ∧ '\r'.toUInt8 ∉ m.input.content := by
  obtain ⟨blanks, f, m, hbegin⟩ : ∃ blanks f m, l.beginLine = (blanks, f, m) := ⟨_, _, _, rfl⟩
  have hm : '\r'.toUInt8 ∉ m.input.content := by
    rw [(beginLine_counts hbegin).1] at hi
    exact mt (List.mem_append_right _) hi
  suffices h : ∃ blanks', l.withReturns.beginLine = (blanks', f, m.withReturns) by
    obtain ⟨blanks', hbegin'⟩ := h
    exact ⟨blanks, blanks', f, m, hbegin, hbegin', hm⟩
  obtain ⟨bs, column, input, hmunch⟩ : ∃ bs column input,
    l.input.munch (columnPattern l.tabSize) 0 = (bs, column, input) := ⟨_, _, _, rfl⟩
  have hbeside := Input.munch_withReturns (passes_column l.tabSize) (s := 0) trivial hi
  rw [hmunch] at hbeside
  have hmunch' : l.withReturns.input.munch (columnPattern l.withReturns.tabSize) 0 = _ :=
    hbeside.eq_same fun _ => rfl
  have hstart : l.withReturns.lineStart = l.lineStart := rfl
  have hstatus : input.withReturns.status = input.status := rfl
  rw [beginLine] at hbegin
  simp only [beginLine, hstart, hmunch', status, hstatus]
  simp only [hmunch, status] at hbegin
  split_ifs at hbegin ⊢
  · cases hbegin
    exact ⟨_, rfl⟩
  · cases hbegin
    exact ⟨_, rfl⟩
  · cases hbegin
    exact ⟨_, rfl⟩

/-- With carriage returns, the same is handed out. -/
theorem returned_scan (hi : '\r'.toUInt8 ∉ l.input.content) :
    Returned l.scan l.withReturns.scan := by
  obtain ⟨blanks, blanks', f, m, hbegin, hbegin', hm⟩ := beginLine_withReturns hi
  rw [scan, scan, hbegin, hbegin']
  cases f with
  | some f => exact ⟨rfl, fun herror => absurd rfl herror, fault_withReturns m f⟩
  | none =>
    have hstatus : m.withReturns.status = m.status := rfl
    have hnext : m.withReturns.indentation.next? = m.indentation.next? := rfl
    simp only [hstatus, hnext]
    split_ifs
    · exact ⟨rfl, fun _ => rfl, rfl⟩
    · cases m.indentation.next? with
      | some r => exact ⟨rfl, fun _ => rfl, rfl⟩
      | none => exact (returned_scanToken hm).skip _ _

/-! ## Runs -/

/-- Whether the same token is handed out, up to the text of an error, and the lexer that
    is left is that with carriage returns. -/
structure Unseen (r r' : Token × Lexer) : Prop where
  token : r'.1.plain = r.1.plain
  lexer : r'.2 = r.2.withReturns
  free : '\r'.toUInt8 ∉ r.2.input.content

theorem Unseen.kind {r r' : Token × Lexer} (h : Unseen r r') : r'.1.kind = r.1.kind := by
  rw [← r'.1.kind_plain, h.token, r.1.kind_plain]

theorem unseen_get (hi : '\r'.toUInt8 ∉ l.input.content) : Unseen l.get l.withReturns.get := by
  cases hlatched : l.latched with
  | true =>
    have hlatched' : l.withReturns.latched = true := hlatched
    rw [get, get, if_pos hlatched, if_pos hlatched']
    exact ⟨rfl, rfl, hi⟩
  | false =>
    obtain ⟨hkind, hbytes, hlexer⟩ := returned_scan hi
    rw [(counts_scan l).content] at hi
    rw [get_eq hlatched, get_eq (l := l.withReturns) hlatched, hkind, hlexer]
    refine ⟨?_, rfl, mt (List.mem_append_right _) hi⟩
    by_cases herror : l.scan.1.kind = .error
    · simp only [Token.plain, if_pos herror]
      rfl
    · simp only [Token.plain, if_neg herror, Lexeme.text, hkind, hbytes herror]
      rfl

theorem unseen_next? (hi : '\r'.toUInt8 ∉ l.input.content) :
    Option.Rel Unseen l.next? l.withReturns.next? := by
  have hfinished : l.withReturns.finished = l.finished := rfl
  have hget := unseen_get hi
  rw [next?_eq, next?_eq, hfinished, hget.kind]
  split_ifs
  · exact .none
  · refine .some ⟨hget.token, ?_, hget.free⟩
    rw [hget.lexer]
    rfl

/-- What is seen of a token and the lexer behind it, but for the text of an error. -/
def seenPlain (r : Token × Lexer) : Token × Nat × UInt64 × Status :=
  (r.1.plain, r.2.answers)

theorem runFor_withReturns (hi : '\r'.toUInt8 ∉ l.input.content) (n : Nat) :
    (l.withReturns.runFor n).map seenPlain = (l.runFor n).map seenPlain := by
  induction n generalizing l with
  | zero => rfl
  | succ n ih =>
    have hnext := unseen_next? hi
    rw [runFor, runFor]
    generalize l.next? = o at hnext ⊢
    generalize l.withReturns.next? = o' at hnext ⊢
    cases hnext with
    | none => rfl
    | @some r r' hr =>
      obtain ⟨htoken, hlexer, hfree⟩ := hr
      obtain ⟨t', _⟩ := r'
      subst hlexer
      exact congrArg₂ List.cons (Prod.ext htoken rfl) (ih hfree)

/-- A run with carriage returns ends with the same token: it has a larger bound, but it
    does not go on. -/
theorem run_withReturns {source : Source} (hsource : '\r'.toUInt8 ∉ source.text)
    (options : Options) : (start source.withReturns options).run.map seenPlain =
      (start source options).run.map seenPlain := by
  have hbound : (start source options).bound ≤ (start source.withReturns options).bound := by
    have hsize := source.size_le_withReturns
    simp only [bound, start, Input.remaining, List.length_nil, depth]
    omega
  obtain ⟨rs, -, hlength, hrun⟩ := exists_runFor (l := start source options)
    (n := (start source options).bound) rfl rfl (Nat.le_succ _)
  have hstart : start source.withReturns options = (start source options).withReturns := rfl
  rw [run, run, hrun _ (Nat.le_refl _), ← hrun _ hbound, hstart]
  exact runFor_withReturns (l := start source options) hsource _

/-! ## Calls -/

/-- What is told, but for the text of an error. -/
def Event.plain : Event → Event
  | token t => token t.plain
  | recovered => recovered

/-- Whether the same was told so far, up to the texts of errors, and the lexer is that
    with carriage returns. -/
structure History.Unseen (h h' : History) : Prop where
  events : h'.events.map (·.plain) = h.events.map (·.plain)
  lexer : h'.lexer = h.lexer.withReturns
  free : '\r'.toUInt8 ∉ h.lexer.input.content

theorem History.Unseen.call {h h' : History} (hunseen : h.Unseen h') (c : Call) :
    (h.call c).Unseen (h'.call c) := by
  obtain ⟨hevents, hlexer, hfree⟩ := hunseen
  have hreceive {r r' : Token × Lexer} (hr : Lexer.Unseen r r') :
      (h.receive r).Unseen (h'.receive r') := by
    refine ⟨?_, hr.lexer, hr.free⟩
    rw [receive, receive, List.map_append, List.map_append, hevents]
    exact congrArg (fun t => _ ++ [Event.token t]) hr.token
  have hrestart : '\r'.toUInt8 ∉ h.lexer.input.source.text := mt (List.mem_append_right _) hfree
  cases c with
  | get =>
    rw [History.call, History.call, hlexer]
    exact hreceive (unseen_get hfree)
  | next =>
    have hnext := unseen_next? hfree
    rw [History.call, History.call, hlexer]
    generalize h.lexer.next? = o at hnext ⊢
    generalize h.lexer.withReturns.next? = o' at hnext ⊢
    cases hnext with
    | none => exact ⟨hevents, hlexer, hfree⟩
    | some hr => exact hreceive hr
  | recover =>
    have hstatus : h.lexer.withReturns.status = h.lexer.status := rfl
    rw [History.call, History.call, hlexer, recover?, recover?, hstatus]
    split_ifs
    · refine ⟨?_, rfl, hrestart⟩
      simp only [List.map_append, hevents]
    · exact ⟨hevents, hlexer, hfree⟩
  | interrupt =>
    refine ⟨hevents, ?_, hfree⟩
    rw [History.call, History.call, hlexer]
    rfl

theorem History.Unseen.calls {h h' : History} (hunseen : h.Unseen h') (cs : List Call) :
    (h.calls cs).Unseen (h'.calls cs) := by
  induction cs generalizing h h' with
  | nil => exact hunseen
  | cons c cs ih => exact ih (hunseen.call c)

/-! ## Every text -/

theorem ofBytes_withReturns (bs : Bytes) :
    Source.ofBytes (Bytes.withReturns bs) = (Source.ofBytes bs).withReturns := by
  cases bs with
  | nil => rfl
  | cons b bs =>
    rw [Source.ofBytes, Source.ofBytes, if_neg (withReturns_ne_nil (List.cons_ne_nil b bs)),
      if_neg (List.cons_ne_nil b bs)]
    rfl

/-- A carriage return stands on the line that it ends. -/
theorem lines_withReturns (bs : Bytes) :
    Source.lines (Bytes.withReturns bs) = (Source.lines bs).map Bytes.withReturns := by
  induction bs with
  | nil => rfl
  | cons b bs ih =>
    by_cases hb : b = '\n'.toUInt8
    · subst hb
      rw [withReturns_cons_newline, Source.lines, Source.lines, Source.lines, ih]
      rfl
    · rw [withReturns_cons hb, Source.lines, Source.lines, if_neg hb, if_neg hb, ih]
      cases Source.lines bs with
      | nil =>
        rw [List.map_singleton, withReturns_cons hb]
        rfl
      | cons line ls =>
        rw [List.map_cons, List.map_cons, withReturns_cons hb]

theorem ofLines_withReturns (bs : Bytes) :
    Source.ofLines (Bytes.withReturns bs) = (Source.ofLines bs).withReturns := by
  rw [Source.ofLines, lines_withReturns, Source.ofLines, Source.withReturns, List.map_map,
    List.map_map]
  rfl

/-- Carriage returns in front of the newlines make no difference to a lexer. On a text that
    has none, which comes at once or line by line, a run hands out tokens of the same kinds,
    lines and texts, up to the texts of errors, and answers the same after each of them, as
    on the text with a carriage return in front of each newline. So it is for all calls,
    also with interrupts and recoveries. -/
theorem returns_unseen {bs : Bytes} (hbs : '\r'.toUInt8 ∉ bs) (options : Options) :
    ∀ make ∈ [Source.ofBytes, Source.ofLines],
      let source := make bs
      let source' := make (Bytes.withReturns bs)
      (start source' options).run.map seenPlain = (start source options).run.map seenPlain ∧
        ∀ calls : List Call,
          let h := (History.start source options).calls calls
          let h' := (History.start source' options).calls calls
          h'.events.map (·.plain) = h.events.map (·.plain) ∧
            h'.lexer.answers = h.lexer.answers := by
  have hmake : ∀ make ∈ [Source.ofBytes, Source.ofLines], (make bs).text = bs ∧
      make (Bytes.withReturns bs) = (make bs).withReturns := by
    simp only [List.forall_mem_cons, List.not_mem_nil, false_imp_iff, implies_true, and_true]
    exact ⟨⟨Source.text_ofBytes bs, ofBytes_withReturns bs⟩,
      Source.text_ofLines bs, ofLines_withReturns bs⟩
  intro make hmem source source'
  obtain ⟨htext, hsource'⟩ := hmake make hmem
  have hfree : '\r'.toUInt8 ∉ source.text := htext ▸ hbs
  rw [show source' = source.withReturns from hsource']
  refine ⟨run_withReturns hfree options, fun calls => ?_⟩
  have hstart : (History.start source options).Unseen (.start source.withReturns options) :=
    ⟨rfl, rfl, hfree⟩
  obtain ⟨hevents, hlexer, -⟩ := hstart.calls calls
  exact ⟨hevents, (congrArg answers hlexer).trans rfl⟩

/-- A directive that runs over the end of its line, a level that it gives the column of, a
    line that is continued, and a string that is not ended, which shows its bytes. -/
theorem returns_unseen_of_directive :
    let bs := Bytes.ofString "#vi:set\n tabsize=4\n\ta\\\n'b\n"
    let run := fun bs => (start (.ofBytes bs) {}).run
    '\r'.toUInt8 ∉ bs ∧
      (run (Bytes.withReturns bs)).map seenPlain = (run bs).map seenPlain ∧
      (run bs).map (·.1.text) =
        ["", "", "tabsize", "=", "4", "", "", "a", "'b\n", ""] ∧
      (run (Bytes.withReturns bs)).map (·.1.text) =
        ["", "", "tabsize", "=", "4", "", "", "a", "'b\r\n", ""] ∧
      (run bs).map (·.2.tabSize) = List.replicate 10 4 := by
  intro bs run
  have hbs : '\r'.toUInt8 ∉ bs := by decide +kernel
  have hunseen := (returns_unseen hbs {} Source.ofBytes List.mem_cons_self).1
  exact ⟨hbs, hunseen, by decide +kernel, by decide +kernel, by decide +kernel⟩

end Lexer

end ScriptCore
