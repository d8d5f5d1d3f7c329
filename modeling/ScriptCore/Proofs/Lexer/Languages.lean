import Mathlib.Computability.Language
import ScriptCore.Proofs.Lexer.Input

/-!
# The languages of the patterns

The words of the language as regular languages: names, numbers and strings.
A pattern takes the longest word that a text begins with.

* `names`, `numbers`, `strings`: the words of each kind.
* `IsLongest`: the longest word of a language that a text begins with.
* `Pattern.Describes`: a language for each place of a pattern. Where it fits,
  the words are what the pattern takes in whole (`Describes.mem_iff`), and its
  run is the longest of them (`Describes.isLongest`).
-/

namespace ScriptCore.Lexer

open Computability

/-! ## Words of bytes -/

/-- The words of one byte that has a property. -/
def oneOf (test : UInt8 → Bool) : Language UInt8 :=
  {w | ∃ b, test b = true ∧ w = [b]}

/-- `[A-Za-z_][A-Za-z0-9_]*` -/
def names : Language UInt8 :=
  oneOf Byte.beginsName * (oneOf Byte.continuesName)∗

/-- `[0-9]*` -/
def digits : Language UInt8 :=
  (oneOf Byte.isDigit)∗

/-- `[+-]?` -/
def signs : Language UInt8 :=
  1 + oneOf fun b => b = '+'.toUInt8 ∨ b = '-'.toUInt8

/-- `([eE][+-]?[0-9]*)?` -/
def exponents : Language UInt8 :=
  1 + oneOf (fun b => b = 'e'.toUInt8 ∨ b = 'E'.toUInt8) * (signs * digits)

/-- `[xX][0-9a-fA-F]*` -/
def hexadecimals : Language UInt8 :=
  oneOf (fun b => b = 'x'.toUInt8 ∨ b = 'X'.toUInt8) * (oneOf Byte.isHexDigit)∗

/-- `.[0-9]*`, with a point. -/
def fractions : Language UInt8 :=
  oneOf (· = '.'.toUInt8) * digits

/-- `0[xX][0-9a-fA-F]*`, `0[0-7]*`, `0.[0-9]*([eE][+-]?[0-9]*)?` and
    `[1-9][0-9]*(.[0-9]*)?([eE][+-]?[0-9]*)?`, with points. -/
def numbers : Language UInt8 :=
  oneOf (· = '0'.toUInt8) * hexadecimals +
  oneOf (· = '0'.toUInt8) * (oneOf Byte.isOctalDigit)∗ +
  oneOf (· = '0'.toUInt8) * (fractions * exponents) +
  oneOf (fun b => Byte.isDigit b ∧ b ≠ '0'.toUInt8) * (digits * ((1 + fractions) * exponents))

/-- What may stand between the quotes of a string: a byte other than a quote, a
    backslash and a newline, or a backslash and a byte other than a newline. -/
def stringItems : Language UInt8 :=
  oneOf (fun b => b ≠ '\''.toUInt8 ∧ b ≠ '\\'.toUInt8 ∧ b ≠ '\n'.toUInt8) +
  oneOf (· = '\\'.toUInt8) * oneOf (· ≠ '\n'.toUInt8)

/-- Strings, with their quotes. -/
def strings : Language UInt8 :=
  oneOf (· = '\''.toUInt8) * (stringItems∗ * oneOf (· = '\''.toUInt8))

section Words

variable {test : UInt8 → Bool} {l m : Language UInt8} {b : UInt8} {w : Bytes}

theorem nil_notMem_oneOf : [] ∉ oneOf test := by
  rintro ⟨b, -, hb⟩
  exact absurd hb (List.cons_ne_nil b []).symm

theorem nil_mem_mul : [] ∈ l * m ↔ [] ∈ l ∧ [] ∈ m := by
  rw [Language.mem_mul]
  constructor
  · rintro ⟨v, hv, w, hw, heq⟩
    obtain ⟨rfl, rfl⟩ := List.append_eq_nil_iff.1 heq
    exact ⟨hv, hw⟩
  · rintro ⟨hl, hm⟩
    exact ⟨[], hl, [], hm, rfl⟩

theorem cons_mem_oneOf : b :: w ∈ oneOf test ↔ test b = true ∧ w = [] := by
  constructor
  · rintro ⟨c, hc, heq⟩
    obtain ⟨rfl, rfl⟩ := List.cons.inj heq
    exact ⟨hc, rfl⟩
  · rintro ⟨hb, rfl⟩
    exact ⟨b, hb, rfl⟩

theorem cons_mem_oneOf_mul : b :: w ∈ oneOf test * l ↔ test b = true ∧ w ∈ l := by
  rw [Language.mem_mul]
  constructor
  · rintro ⟨v, ⟨c, hc, rfl⟩, w', hw', heq⟩
    obtain ⟨rfl, rfl⟩ := List.cons.inj heq
    exact ⟨hc, hw'⟩
  · rintro ⟨hb, hw⟩
    exact ⟨[b], ⟨b, hb, rfl⟩, w, hw, rfl⟩

theorem cons_mem_one : b :: w ∉ (1 : Language UInt8) :=
  List.cons_ne_nil b w

theorem one_add_mul : (1 + l) * m = m + l * m := by
  rw [add_mul, one_mul]

/-- A repetition in front of another word ends, or goes on once more. -/
theorem kstar_mul : l∗ * m = m + l * (l∗ * m) := by
  rw [← mul_assoc, ← one_add_mul, Language.one_add_self_mul_kstar_eq_kstar]

theorem cons_mem_kstar_oneOf :
    b :: w ∈ (oneOf test)∗ ↔ test b = true ∧ w ∈ (oneOf test)∗ := by
  have h : (oneOf test)∗ = 1 + oneOf test * (oneOf test)∗ :=
    (Language.one_add_self_mul_kstar_eq_kstar _).symm
  rw [h, Language.mem_add, cons_mem_oneOf_mul, ← h, or_iff_right cons_mem_one]

end Words

/-! ## The longest word -/

/-- Whether a word is the longest of a language that a text begins with. -/
structure IsLongest (l : Language UInt8) (bs w : Bytes) : Prop where
  mem : w ∈ l
  isPrefix : w <+: bs
  length_le : ∀ w' ∈ l, w' <+: bs → w'.length ≤ w.length

/-- What follows a byte that words of a language begin with. -/
theorem IsLongest.cons {l m : Language UInt8} {b : UInt8} {bs w : Bytes} (h : IsLongest l bs w)
    (hm : ∀ w, b :: w ∈ m ↔ w ∈ l) : IsLongest m (b :: bs) (b :: w) where
  mem := (hm w).2 h.mem
  isPrefix := List.cons_prefix_cons.2 ⟨rfl, h.isPrefix⟩
  length_le := fun w' hw' hprefix => by
    cases w' with
    | nil => exact Nat.zero_le _
    | cons c w' =>
      obtain ⟨rfl, hprefix'⟩ := List.cons_prefix_cons.1 hprefix
      exact Nat.succ_le_succ (h.length_le w' ((hm w').1 hw') hprefix')

namespace Pattern

variable {σ : Type} {p : Pattern σ} {s s' : σ} {b : UInt8} {w bs : Bytes}
  {final : σ → Prop} {words : σ → Language UInt8}

theorem run_append (h : p.run s w = (w, s')) (bs : Bytes) :
    p.run s (w ++ bs) = (w ++ (p.run s' bs).1, (p.run s' bs).2) := by
  induction w generalizing s with
  | nil =>
    cases h
    rfl
  | cons b w ih =>
    rw [List.cons_append, run] at *
    split_ifs at h ⊢ with hc
    · cases h
    · cases hstep : p.step s b with
      | none =>
        rw [hstep] at h
        cases h
      | some t =>
        rw [hstep] at h
        obtain ⟨hw, hs⟩ := Prod.mk.inj h
        simp only [ih (Prod.ext (List.cons.inj hw).2 hs), List.cons_append]

/-- What a pattern takes, it takes in whole. -/
theorem run_run (p : Pattern σ) (s : σ) (bs : Bytes) : p.run s (p.run s bs).1 = p.run s bs := by
  induction bs generalizing s with
  | nil => rfl
  | cons b bs ih =>
    by_cases hc : p.isComplete s = true
    · rw [run_of_isComplete hc, run_of_isComplete hc]
    · cases hstep : p.step s b with
      | none => rw [run_cons_none hstep]; rfl
      | some t =>
        have hc' : p.isComplete s = false := Bool.eq_false_iff.2 hc
        rw [run_cons_some hc' hstep, run_cons_some hc' hstep, ih]

theorem run_prefix (p : Pattern σ) (s : σ) (bs : Bytes) : (p.run s bs).1 <+: bs := by
  induction bs generalizing s with
  | nil => exact List.prefix_rfl
  | cons b bs ih =>
    rw [run]
    split_ifs with hc
    · exact List.nil_prefix
    · cases p.step s b with
      | none => exact List.nil_prefix
      | some t => exact List.cons_prefix_cons.2 ⟨rfl, ih t⟩

/-- Whether `words s` are, for each place `s`, the words that lead from there to
    a final place. -/
structure Describes (p : Pattern σ) (final : σ → Prop) (words : σ → Language UInt8) : Prop where
  nil : ∀ s, [] ∈ words s ↔ final s
  cons : ∀ s b w, b :: w ∈ words s ↔
    p.isComplete s = false ∧ ∃ s', p.step s b = some s' ∧ w ∈ words s'

theorem Describes.mem_iff (h : p.Describes final words) :
    w ∈ words s ↔ ∃ s', p.run s w = (w, s') ∧ final s' := by
  induction w generalizing s with
  | nil =>
    rw [h.nil]
    exact ⟨fun hs => ⟨s, rfl, hs⟩, fun ⟨s', heq, hs'⟩ => (Prod.mk.inj heq).2 ▸ hs'⟩
  | cons b w ih =>
    rw [h.cons]
    constructor
    · rintro ⟨hc, t, hstep, hw⟩
      obtain ⟨s', hrun, hs'⟩ := ih.1 hw
      exact ⟨s', by rw [run_cons_some hc hstep, hrun], hs'⟩
    · rintro ⟨s', hrun, hs'⟩
      rw [run] at hrun
      split_ifs at hrun with hc
      · cases hrun
      · cases hstep : p.step s b with
        | none =>
          rw [hstep] at hrun
          cases hrun
        | some t =>
          rw [hstep] at hrun
          obtain ⟨hw, hs⟩ := Prod.mk.inj hrun
          refine ⟨Bool.eq_false_iff.2 hc, t, rfl, ih.2 ⟨s', ?_, hs'⟩⟩
          exact Prod.ext (List.cons.inj hw).2 hs

/-- A run that ends at a final place is the longest word. -/
theorem Describes.isLongest (h : p.Describes final words) (hfinal : final (p.run s bs).2) :
    IsLongest (words s) bs (p.run s bs).1 where
  mem := h.mem_iff.2 ⟨_, p.run_run s bs, hfinal⟩
  isPrefix := p.run_prefix s bs
  length_le := fun w hw hprefix => by
    -- a word is taken in whole, and what follows it can only add to the run
    obtain ⟨s', hrun, -⟩ := h.mem_iff.1 hw
    obtain ⟨more, rfl⟩ := hprefix
    rw [run_append hrun, List.length_append]
    exact Nat.le_add_right _ _

/-- A byte that leads nowhere is in no word. -/
theorem Describes.notMem (h : p.Describes final words)
    (hb : ∀ s s' w, p.step s b = some s' → w ∉ words s') : ∀ w ∈ words s, b ∉ w := by
  intro w hw hmem
  induction w generalizing s with
  | nil => cases hmem
  | cons c w ih =>
    obtain ⟨-, t, hstep, hw'⟩ := (h.cons s c w).1 hw
    rcases List.mem_cons.1 hmem with rfl | hmem
    · exact hb s t w hstep hw'
    · exact ih hw' hmem

end Pattern

/-! ## Names -/

theorem describes_name :
    namePattern.Describes (fun _ => True) fun _ => (oneOf Byte.continuesName)∗ where
  nil := fun _ => iff_true_intro (Language.nil_mem_kstar _)
  cons := fun s b w => by
    rw [cons_mem_kstar_oneOf]
    simp [namePattern, Pattern.while]

/-! ## Numbers -/

/-- What may follow in a number from a place on. -/
def NumberPlace.words : NumberPlace → Language UInt8
  | start => numbers
  | zero => hexadecimals + (oneOf Byte.isOctalDigit)∗ + fractions * exponents
  | octal => (oneOf Byte.isOctalDigit)∗
  | hex => (oneOf Byte.isHexDigit)∗
  | whole => digits * ((1 + fractions) * exponents)
  | fraction => digits * exponents
  | mark => signs * digits
  | exponent => digits

section Number

variable {b : UInt8} {w : Bytes} {l : Language UInt8}

theorem cons_mem_signs_mul : b :: w ∈ signs * l ↔
    b :: w ∈ l ∨ (b = '+'.toUInt8 ∨ b = '-'.toUInt8) ∧ w ∈ l := by
  rw [signs, one_add_mul, Language.mem_add, cons_mem_oneOf_mul, decide_eq_true_eq]

theorem cons_mem_exponents :
    b :: w ∈ exponents ↔ (b = 'e'.toUInt8 ∨ b = 'E'.toUInt8) ∧ w ∈ signs * digits := by
  rw [exponents, Language.mem_add, or_iff_right cons_mem_one, cons_mem_oneOf_mul, decide_eq_true_eq]

theorem cons_mem_fractions_mul :
    b :: w ∈ fractions * l ↔ b = '.'.toUInt8 ∧ w ∈ digits * l := by
  rw [fractions, mul_assoc, cons_mem_oneOf_mul, decide_eq_true_eq]

theorem cons_mem_hexadecimals : b :: w ∈ hexadecimals ↔
    (b = 'x'.toUInt8 ∨ b = 'X'.toUInt8) ∧ w ∈ (oneOf Byte.isHexDigit)∗ := by
  rw [hexadecimals, cons_mem_oneOf_mul, decide_eq_true_eq]

theorem cons_mem_decimals : b :: w ∈ (1 + fractions) * exponents ↔
    (b = 'e'.toUInt8 ∨ b = 'E'.toUInt8) ∧ w ∈ signs * digits ∨
      b = '.'.toUInt8 ∧ w ∈ digits * exponents := by
  rw [one_add_mul, Language.mem_add, cons_mem_exponents, cons_mem_fractions_mul]

theorem cons_mem_digits_mul :
    b :: w ∈ digits * l ↔ b :: w ∈ l ∨ Byte.isDigit b = true ∧ w ∈ digits * l := by
  rw [digits, kstar_mul, Language.mem_add, cons_mem_oneOf_mul, ← kstar_mul]

theorem cons_mem_numbers : b :: w ∈ numbers ↔
    b = '0'.toUInt8 ∧ w ∈ NumberPlace.zero.words ∨
      (Byte.isDigit b = true ∧ b ≠ '0'.toUInt8) ∧ w ∈ NumberPlace.whole.words := by
  simp only [numbers, NumberPlace.words, Language.mem_add, cons_mem_oneOf_mul, decide_eq_true_eq]
  rw [and_or_left, and_or_left]

end Number

theorem nil_mem_words {s : NumberPlace} : [] ∈ s.words ↔ s ≠ .start := by
  cases s <;> simp only [NumberPlace.words, numbers, hexadecimals, fractions, exponents, signs,
    digits, nil_mem_mul, Language.mem_add, Language.mem_one, nil_notMem_oneOf,
    Language.nil_mem_kstar] <;> decide

theorem ne_of_isDigit {b : UInt8} (h : Byte.isDigit b = true) :
    b ≠ '.'.toUInt8 ∧ b ≠ 'e'.toUInt8 ∧ b ≠ 'E'.toUInt8 := by
  refine ⟨?_, ?_, ?_⟩ <;> rintro rfl <;> exact absurd h (by decide)

theorem ne_of_isOctalDigit {b : UInt8} (h : Byte.isOctalDigit b = true) :
    b ≠ '.'.toUInt8 ∧ b ≠ 'x'.toUInt8 ∧ b ≠ 'X'.toUInt8 := by
  refine ⟨?_, ?_, ?_⟩ <;> rintro rfl <;> exact absurd h (by decide)

theorem ne_of_eq_point {b : UInt8} (h : b = '.'.toUInt8) :
    b ≠ 'x'.toUInt8 ∧ b ≠ 'X'.toUInt8 ∧ b ≠ 'e'.toUInt8 ∧ b ≠ 'E'.toUInt8 := by
  subst h
  decide

/-- The places in a number lead on as their words do: with each byte in one way. -/
theorem cons_mem_words {s : NumberPlace} {b : UInt8} {w : Bytes} :
    b :: w ∈ s.words ↔ ∃ s', numberStep s b = some s' ∧ w ∈ s'.words := by
  -- no byte begins two of the parts that may follow, so the step loses no word
  have hdigit := ne_of_isDigit (b := b)
  have hoctal := ne_of_isOctalDigit (b := b)
  have hpoint := ne_of_eq_point (b := b)
  cases s with
  | start =>
    rw [NumberPlace.words, cons_mem_numbers, numberStep]
    grind
  | zero =>
    rw [NumberPlace.words, Language.mem_add, Language.mem_add, cons_mem_hexadecimals,
      cons_mem_kstar_oneOf, cons_mem_fractions_mul, numberStep]
    grind [NumberPlace.words]
  | octal =>
    rw [NumberPlace.words, cons_mem_kstar_oneOf, numberStep]
    grind [NumberPlace.words]
  | hex =>
    rw [NumberPlace.words, cons_mem_kstar_oneOf, numberStep]
    grind [NumberPlace.words]
  | whole =>
    rw [NumberPlace.words, cons_mem_digits_mul, cons_mem_decimals, numberStep]
    grind [NumberPlace.words]
  | fraction =>
    rw [NumberPlace.words, cons_mem_digits_mul, cons_mem_exponents, numberStep]
    grind [NumberPlace.words]
  | mark =>
    rw [NumberPlace.words, cons_mem_signs_mul, digits, cons_mem_kstar_oneOf, numberStep]
    grind [NumberPlace.words, digits]
  | exponent =>
    rw [NumberPlace.words, digits, cons_mem_kstar_oneOf, numberStep]
    grind [NumberPlace.words, digits]

theorem describes_number : numberPattern.Describes (· ≠ .start) NumberPlace.words where
  nil := fun _ => nil_mem_words
  cons := fun _ _ _ => cons_mem_words.trans ⟨fun h => ⟨rfl, h⟩, And.right⟩

/-! ## Strings -/

/-- What may follow in a string from a place on. -/
def StringPlace.words : StringPlace → Language UInt8
  | inside => stringItems∗ * oneOf (· = '\''.toUInt8)
  | escaped => oneOf (· ≠ '\n'.toUInt8) * (stringItems∗ * oneOf (· = '\''.toUInt8))
  | closed => 1
  | broken => 0

theorem inside_words : StringPlace.inside.words =
    oneOf (· = '\''.toUInt8) +
      (oneOf (fun b => b ≠ '\''.toUInt8 ∧ b ≠ '\\'.toUInt8 ∧ b ≠ '\n'.toUInt8) *
        StringPlace.inside.words + oneOf (· = '\\'.toUInt8) * StringPlace.escaped.words) := by
  refine kstar_mul.trans (congrArg (oneOf (· = '\''.toUInt8) + ·) ?_)
  rw [stringItems, add_mul, mul_assoc]
  rfl

theorem describes_string : stringPattern.Describes (· = .closed) StringPlace.words where
  nil := fun s => by
    cases s <;> simp [StringPlace.words, nil_mem_mul, nil_notMem_oneOf, Language.notMem_zero]
  cons := fun s b w => by
    have hquote : b = '\''.toUInt8 → b ≠ '\\'.toUInt8 := by
      rintro rfl
      decide
    rw [show stringPattern.step = stringStep from rfl]
    cases s with
    | inside =>
      rw [inside_words, Language.mem_add, Language.mem_add, cons_mem_oneOf, cons_mem_oneOf_mul,
        cons_mem_oneOf_mul, decide_eq_true_eq, decide_eq_true_eq, decide_eq_true_eq, stringStep]
      grind [StringPlace.words, stringPattern, Language.mem_one, Language.notMem_zero]
    | escaped =>
      rw [StringPlace.words, cons_mem_oneOf_mul, decide_eq_true_eq, stringStep]
      grind [StringPlace.words, stringPattern, Language.notMem_zero]
    | closed => simp [StringPlace.words, stringStep]
    | broken => simp [StringPlace.words, Language.notMem_zero, stringStep]

/-! ## What a text begins with -/

section Text

variable {b : UInt8} {bs w : Bytes}

theorem isLongest_names (hb : Byte.beginsName b = true) :
    IsLongest names (b :: bs) (b :: (namePattern.run () bs).1) :=
  (describes_name.isLongest trivial).cons fun _ => by
    rw [names, cons_mem_oneOf_mul, and_iff_right hb]

theorem numberStep_ne_start (place : NumberPlace) (b : UInt8) :
    numberStep place b ≠ some .start := by
  fun_cases numberStep place b <;> exact nofun

theorem isLongest_numbers {place : NumberPlace} (hb : numberStep .start b = some place) :
    IsLongest numbers (b :: bs) (b :: (numberPattern.run place bs).1) := by
  have hrun : numberPattern.run .start (b :: bs) =
      (b :: (numberPattern.run place bs).1, (numberPattern.run place bs).2) :=
    Pattern.run_cons_some rfl hb
  -- only at the start no number ends, and no byte leads there
  have hstart : place ≠ .start := by
    rintro rfl
    exact numberStep_ne_start .start b hb
  have hfinal : (numberPattern.run place bs).2 ≠ .start :=
    Pattern.place_run (p := numberPattern) (P := (· ≠ .start))
      (fun s c _ _ hstep heq => numberStep_ne_start s c (heq ▸ hstep)) hstart bs
  have hlongest : IsLongest numbers (b :: bs) (numberPattern.run .start (b :: bs)).1 :=
    Pattern.Describes.isLongest (s := NumberPlace.start) describes_number (by rwa [hrun])
  rwa [hrun] at hlongest

theorem quote_cons_mem_strings :
    '\''.toUInt8 :: w ∈ strings ↔ w ∈ StringPlace.inside.words := by
  rw [strings, cons_mem_oneOf_mul, and_iff_right (decide_eq_true rfl)]
  rfl

theorem isLongest_strings (h : (stringPattern.run .inside bs).2 = .closed) :
    IsLongest strings ('\''.toUInt8 :: bs) ('\''.toUInt8 :: (stringPattern.run .inside bs).1) :=
  (describes_string.isLongest h).cons fun _ => quote_cons_mem_strings

/-- Where no string is closed, the text begins with none. -/
theorem notMem_strings (h : (stringPattern.run .inside bs).2 ≠ .closed) :
    ∀ w, w <+: '\''.toUInt8 :: bs → w ∉ strings := by
  intro w hprefix hw
  cases w with
  | nil => exact nil_notMem_oneOf (nil_mem_mul.1 hw).1
  | cons c w =>
    obtain ⟨rfl, more, rfl⟩ := List.cons_prefix_cons.1 hprefix
    obtain ⟨s', hrun, hclosed⟩ := describes_string.mem_iff.1 (quote_cons_mem_strings.1 hw)
    refine h ?_
    rw [Pattern.run_append hrun, hclosed, Pattern.run_of_isComplete rfl]

end Text

/-! ## No newlines -/

section Newline

variable {w : Bytes}

theorem newline_notMem_names (h : w ∈ names) : '\n'.toUInt8 ∉ w := by
  cases w with
  | nil => exact List.not_mem_nil
  | cons b w =>
    rw [names, cons_mem_oneOf_mul] at h
    refine List.not_mem_cons_of_ne_of_not_mem ?_ (describes_name.notMem (s := ()) ?_ w h.2)
    · rintro rfl
      exact absurd h.1 (by decide)
    · exact fun _ _ _ hstep => by cases hstep

theorem newline_notMem_numbers (h : w ∈ numbers) : '\n'.toUInt8 ∉ w := by
  refine Pattern.Describes.notMem (s := NumberPlace.start) describes_number
    (fun s s' _ hstep => ?_) w h
  have hnone : numberStep s '\n'.toUInt8 = none := by cases s <;> decide
  cases hnone.symm.trans hstep

theorem newline_notMem_strings (h : w ∈ strings) : '\n'.toUInt8 ∉ w := by
  cases w with
  | nil => exact List.not_mem_nil
  | cons b w =>
    rw [strings, cons_mem_oneOf_mul] at h
    refine List.not_mem_cons_of_ne_of_not_mem ?_
      (Pattern.Describes.notMem (s := StringPlace.inside) describes_string ?_ w h.2)
    · rintro rfl
      exact absurd h.1 (by decide)
    · -- a newline breaks a string
      intro s s' w hstep
      have hbroken : s' = .broken := by
        cases s <;> cases hstep <;> rfl
      rw [hbroken]
      exact Language.notMem_zero w

/-- A newline breaks a string, so none is taken where more may be. -/
theorem newline_notMem_run_string {place : StringPlace} {bs : Bytes}
    (h : stringPattern.isComplete (stringPattern.run place bs).2 = false) :
    '\n'.toUInt8 ∉ (stringPattern.run place bs).1 := by
  induction bs generalizing place with
  | nil => exact List.not_mem_nil
  | cons b bs ih =>
    by_cases hc : stringPattern.isComplete place = true
    · rw [Pattern.run_of_isComplete hc]
      exact List.not_mem_nil
    · cases hstep : stringPattern.step place b with
      | none =>
        rw [Pattern.run_cons_none hstep]
        exact List.not_mem_nil
      | some place' =>
        rw [Pattern.run_cons_some (Bool.eq_false_iff.2 hc) hstep] at h ⊢
        refine List.not_mem_cons_of_ne_of_not_mem ?_ (ih h)
        rintro rfl
        have hbroken : place' = .broken := by
          cases place <;> cases hstep <;> rfl
        subst hbroken
        rw [Pattern.run_of_isComplete rfl] at h
        cases h

end Newline

end ScriptCore.Lexer
