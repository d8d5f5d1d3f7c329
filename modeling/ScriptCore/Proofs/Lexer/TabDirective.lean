import Mathlib.Data.List.Basic
import Mathlib.Data.List.Induction
import Mathlib.Data.List.TakeWhile
import Mathlib.Data.Nat.Digits.Defs
import ScriptCore.Lexer.TabDirective

/-!
# How a directive is written

The parser of tab size directives takes exactly what is written as one.

* `Directive`: how a directive is written, and the size that it sets.
* `after?_skipSpaces_eq_some_iff`: a word after spaces.
* `parse?_eq_some_iff`: what follows for all comments.
-/

namespace ScriptCore.Lexer.TabDirective

/-! ## The grammar -/

/-- Whether bytes are spaces: spaces, tabs, newlines, form feeds and carriage returns. -/
def Spaces (bs : Bytes) : Prop :=
  ∀ b ∈ bs, b ∈ [' ', '\t', '\n', '\x0c', '\r'].map Char.toUInt8

/-- Whether a byte is a decimal digit. -/
def Digit (b : UInt8) : Prop :=
  '0'.toUInt8 ≤ b ∧ b ≤ '9'.toUInt8

/-- The number that a run of decimal digits stands for, most significant digit first. -/
def value (digits : Bytes) : Nat :=
  Nat.ofDigits 10 (digits.reverse.map fun b => b.toNat - '0'.toNat)

/-- What begins as a directive, and the size that it sets: two words after spaces, and
    then spaces, perhaps a plus sign, and all the digits of a number from 1 to 40. -/
inductive Directive : Bytes → Nat → Prop
  | mk {spaces spaces' spaces'' plus digits rest : Bytes} :
    Spaces spaces → Spaces spaces' → Spaces spaces'' →
    plus = [] ∨ plus = ['+'.toUInt8] →
    digits ≠ [] → (∀ b ∈ digits, Digit b) → (∀ b, rest.head? = some b → ¬Digit b) →
    1 ≤ value digits → value digits ≤ 40 →
    Directive (spaces ++ "vi:set".toList.map Char.toUInt8 ++
      spaces' ++ "tabsize=".toList.map Char.toUInt8 ++
      spaces'' ++ plus ++ digits ++ rest) (value digits)

/-! ## The parts of a directive -/

variable {b : UInt8} {bs rest word digits : Bytes} {n : Nat} {m : Int}

theorem isSpace_iff : Byte.isSpace b = true ↔
    b ∈ [' ', '\t', '\n', '\x0c', '\r'].map Char.toUInt8 := by
  simp [Byte.isSpace, or_assoc]

theorem isDigit_iff : Byte.isDigit b = true ↔ Digit b := by
  simp [Byte.isDigit, Digit]

theorem not_isSpace_of_digit (h : Digit b) : Byte.isSpace b = false := by
  refine Bool.eq_false_iff.2 fun hspace => ?_
  have hmem := isSpace_iff.1 hspace
  have hlow : ∀ c ∈ [' ', '\t', '\n', '\x0c', '\r'].map Char.toUInt8, c < '0'.toUInt8 := by
    decide +kernel
  exact UInt8.not_lt.2 h.1 (hlow b hmem)

theorem skipSpaces_append (hspaces : Spaces bs)
    (hrest : ∀ b, rest.head? = some b → Byte.isSpace b = false) :
    skipSpaces (bs ++ rest) = rest := by
  rw [skipSpaces, List.dropWhile_append_of_pos fun b hb => isSpace_iff.2 (hspaces b hb)]
  cases rest with
  | nil => rfl
  | cons b rest => rw [List.dropWhile_cons, hrest b rfl, if_neg Bool.false_ne_true]

theorem exists_spaces (bs : Bytes) : ∃ spaces, Spaces spaces ∧ bs = spaces ++ skipSpaces bs :=
  ⟨bs.takeWhile Byte.isSpace, fun _ hb => isSpace_iff.1 (List.mem_takeWhile_imp hb),
    List.takeWhile_append_dropWhile.symm⟩

theorem after?_eq_some_iff : after? word bs = some rest ↔ bs = word ++ rest := by
  rw [after?]
  split_ifs with hword
  · obtain ⟨more, rfl⟩ := hword
    simp
  · refine iff_of_false nofun ?_
    rintro rfl
    exact hword (List.prefix_append word rest)

/-- A word after spaces, if the word does not itself begin with one. -/
theorem after?_skipSpaces_eq_some_iff (hword : word.head?.map Byte.isSpace = some false) :
    after? word (skipSpaces bs) = some rest ↔
      ∃ spaces, Spaces spaces ∧ bs = spaces ++ word ++ rest := by
  obtain ⟨c, hc, hspace⟩ := Option.map_eq_some_iff.1 hword
  obtain ⟨word, rfl⟩ := List.head?_eq_some_iff.1 hc
  rw [after?_eq_some_iff]
  constructor
  · intro h
    obtain ⟨spaces, hspaces, heq⟩ := exists_spaces bs
    exact ⟨spaces, hspaces, by rw [List.append_assoc, ← h]; exact heq⟩
  · rintro ⟨spaces, hspaces, rfl⟩
    rw [List.append_assoc]
    refine skipSpaces_append hspaces fun b hb => ?_
    rwa [← Option.some.inj hb]

/-- Without a minus sign, what follows the sign follows a plus sign or nothing. -/
theorem exists_plus (h : (sign bs).1 = false) :
    ∃ plus, (plus = [] ∨ plus = ['+'.toUInt8]) ∧ bs = plus ++ (sign bs).2 := by
  cases bs with
  | nil => exact ⟨[], .inl rfl, rfl⟩
  | cons b bs =>
    rw [sign] at h ⊢
    split_ifs at h ⊢ with hminus hplus
    · exact ⟨[b], .inr (congrArg ([·]) hplus), rfl⟩
    · exact ⟨[], .inl rfl, rfl⟩

theorem sign_append {plus : Bytes} (hplus : plus = [] ∨ plus = ['+'.toUInt8]) (hb : Digit b) :
    sign (plus ++ b :: bs) = (false, b :: bs) := by
  rcases hplus with rfl | rfl
  · -- neither sign is a digit
    have hminus : b ≠ '-'.toUInt8 := by
      rintro rfl
      exact absurd hb.1 (by decide)
    have hplus : b ≠ '+'.toUInt8 := by
      rintro rfl
      exact absurd hb.1 (by decide)
    rw [List.nil_append, sign, if_neg hminus, if_neg hplus]
  · rfl

theorem decimal_eq_value (h : ∀ b ∈ digits, Digit b) : Bytes.decimal digits = value digits := by
  induction digits using List.reverseRecOn with
  | nil => rfl
  | append_singleton digits d ih =>
    obtain ⟨hdigits, hd⟩ := List.forall_mem_append.1 h
    have hlow : '0'.toUInt8 ≤ d := (List.forall_mem_singleton.1 hd).1
    have hvalue : value (digits ++ [d]) = (d.toNat - '0'.toNat) + 10 * value digits := by
      rw [value, List.reverse_append, List.reverse_singleton, List.singleton_append, List.map_cons,
        Nat.ofDigits_cons, value]
    have hdecimal : Bytes.decimal (digits ++ [d]) =
        10 * Bytes.decimal digits + (d - '0'.toUInt8).toNat := by
      rw [Bytes.decimal, List.foldl_append]
      rfl
    rw [hdecimal, hvalue, ih hdigits, UInt8.toNat_sub_of_le _ _ hlow, Nat.add_comm]
    rfl

/-- A run of digits is cut off where no digit follows. -/
theorem takeWhile_digits (hdigits : ∀ b ∈ digits, Digit b)
    (hrest : ∀ b, rest.head? = some b → ¬Digit b) :
    (digits ++ rest).takeWhile Byte.isDigit = digits := by
  rw [List.takeWhile_append_of_pos fun b hb => isDigit_iff.2 (hdigits b hb)]
  cases rest with
  | nil => exact List.append_nil digits
  | cons b rest =>
    rw [List.takeWhile_cons, if_neg (mt isDigit_iff.1 (hrest b rfl)), List.append_nil]

theorem exists_digits (bs : Bytes) : ∃ rest, bs = bs.takeWhile Byte.isDigit ++ rest ∧
    (∀ b ∈ bs.takeWhile Byte.isDigit, Digit b) ∧ ∀ b, rest.head? = some b → ¬Digit b := by
  refine ⟨bs.dropWhile Byte.isDigit, List.takeWhile_append_dropWhile.symm, ?_, ?_⟩
  · exact fun _ hb => isDigit_iff.1 (List.mem_takeWhile_imp hb)
  · intro b hb hdigit
    have hhead := List.head?_dropWhile_not Byte.isDigit bs
    rw [hb] at hhead
    exact Bool.eq_false_iff.1 hhead (isDigit_iff.2 hdigit)

/-- Digits that stand for no number, or for one that is too large, set no size. -/
theorem number?_eq_some_iff : number? digits = some m ↔
    digits ≠ [] ∧ Bytes.decimal digits ≤ largestNumber ∧ m = Bytes.decimal digits := by
  rw [number?]
  split_ifs with h
  · exact iff_of_false nofun fun ⟨hne, hle, _⟩ => h.elim hne (Nat.not_lt.2 hle)
  · obtain ⟨hne, hle⟩ := not_or.1 h
    rw [Option.some_inj, eq_comm]
    exact ⟨fun hm => ⟨hne, Nat.not_lt.1 hle, hm⟩, fun hm => hm.2.2⟩

/-! ## Every comment -/

/-- What is taken for a directive is written as one. -/
theorem directive_of_parse? (h : parse? bs = some n) : Directive bs n := by
  simp only [parse?, Option.bind_eq_bind, Option.bind_eq_some_iff] at h
  obtain ⟨bs', hword, bs'', hword', m, hnumber, hsize⟩ := h
  obtain ⟨spaces, hspaces, rfl⟩ := (after?_skipSpaces_eq_some_iff rfl).1 hword
  obtain ⟨spaces', hspaces', rfl⟩ :=
    (after?_skipSpaces_eq_some_iff rfl).1 hword'
  obtain ⟨spaces'', hspaces'', heq⟩ := exists_spaces bs''
  obtain ⟨rest, hsplit, hdigits, hrest⟩ := exists_digits (sign (skipSpaces bs'')).2
  obtain ⟨hne, -, rfl⟩ := number?_eq_some_iff.1 hnumber
  generalize (sign (skipSpaces bs'')).2.takeWhile Byte.isDigit = digits at *
  rw [decimal_eq_value hdigits] at hsize
  split_ifs at hsize with hnegative hrange hrange
  · -- what stands behind a minus sign is not positive
    omega
  · obtain ⟨plus, hplus, hsigned⟩ := exists_plus (Bool.eq_false_iff.2 hnegative)
    obtain rfl : value digits = n := Option.some.inj hsize
    have hbs : bs'' = spaces'' ++ plus ++ digits ++ rest := by
      rw [heq, hsigned, hsplit, List.append_assoc, List.append_assoc]
    rw [hbs]
    have hdirective := Directive.mk hspaces hspaces' hspaces'' hplus hne hdigits hrest
      (by omega) (by rw [largest] at hrange; omega)
    simp only [List.append_assoc] at hdirective ⊢
    exact hdirective

/-- What is written as a directive is taken for one. -/
theorem parse?_of_directive (h : Directive bs n) : parse? bs = some n := by
  obtain @⟨spaces, spaces', spaces'', plus, digits, rest, hspaces, hspaces', hspaces'', hplus,
    hne, hdigits, hrest, hone, hle⟩ := h
  obtain ⟨b, digits, rfl⟩ := List.exists_cons_of_ne_nil hne
  have hb : Digit b := hdigits b List.mem_cons_self
  have hword : after? editorWord (skipSpaces (spaces ++ editorWord ++ (spaces' ++ sizeWord ++
      (spaces'' ++ (plus ++ b :: (digits ++ rest)))))) = some (spaces' ++ sizeWord ++
        (spaces'' ++ (plus ++ b :: (digits ++ rest)))) :=
    (after?_skipSpaces_eq_some_iff rfl).2 ⟨spaces, hspaces, rfl⟩
  have hword' : after? sizeWord (skipSpaces (spaces' ++ sizeWord ++
      (spaces'' ++ (plus ++ b :: (digits ++ rest))))) =
        some (spaces'' ++ (plus ++ b :: (digits ++ rest))) :=
    (after?_skipSpaces_eq_some_iff rfl).2 ⟨spaces', hspaces', rfl⟩
  have hsign : sign (skipSpaces (spaces'' ++ (plus ++ b :: (digits ++ rest)))) =
      (false, b :: digits ++ rest) := by
    rw [skipSpaces_append hspaces'' ?_]
    · exact sign_append hplus hb
    · rcases hplus with rfl | rfl
      · rintro _ ⟨⟩
        exact not_isSpace_of_digit hb
      · rintro _ ⟨⟩
        decide
  have hnumber : number? ((b :: digits ++ rest).takeWhile Byte.isDigit) =
      some (value (b :: digits) : Int) := by
    rw [takeWhile_digits hdigits hrest, number?_eq_some_iff, decimal_eq_value hdigits]
    exact ⟨hne, hle.trans (by decide), rfl⟩
  have hrange : 1 ≤ (value (b :: digits) : Int) ∧ (value (b :: digits) : Int) ≤ largest := by
    rw [largest]
    omega
  have hsplit : spaces ++ editorWord ++ spaces' ++ sizeWord ++ spaces'' ++ plus ++ b :: digits ++
      rest = spaces ++ editorWord ++
        (spaces' ++ sizeWord ++ (spaces'' ++ (plus ++ b :: (digits ++ rest)))) := by
    simp only [List.append_assoc, List.cons_append]
  change parse? (spaces ++ editorWord ++ spaces' ++ sizeWord ++ spaces'' ++ plus ++ b :: digits ++
    rest) = _
  rw [hsplit, parse?, hword, Option.bind_eq_bind, Option.bind_some, hword', Option.bind_eq_bind,
    Option.bind_some, hsign]
  simp only [hnumber, Option.bind_some, Bool.false_eq_true, if_false,
    if_pos hrange, Int.toNat_natCast]

/-- The parser takes what is written as a directive, with the size that it sets, and no
    other comment. -/
theorem parse?_eq_some_iff (comment : Bytes) :
    (∀ n, parse? comment = some n ↔ Directive comment n) ∧
      (parse? comment = none ↔ ∀ n, ¬Directive comment n) := by
  have hiff (n : Nat) : parse? comment = some n ↔ Directive comment n :=
    ⟨directive_of_parse?, parse?_of_directive⟩
  refine ⟨hiff, ?_⟩
  rw [Option.eq_none_iff_forall_ne_some]
  exact forall_congr' fun n => not_congr (hiff n)

end ScriptCore.Lexer.TabDirective
