/-!
# Numerals

Numbers are written as runs of digits, most significant digit first, to a base
of at most 16. Above 9 a digit is a letter, of either case. A number written
to base 10 reads back (`value?_toDigits`).
-/

namespace ScriptCore.Numeral

/-- The value of a digit. -/
def digit? (c : Char) : Option Nat :=
  if c.isDigit then some (c.toNat - '0'.toNat)
  else if 'a' ≤ c ∧ c ≤ 'f' then some (c.toNat - 'a'.toNat + 10)
  else if 'A' ≤ c ∧ c ≤ 'F' then some (c.toNat - 'A'.toNat + 10)
  else none

/-- The value of a run of digits of value `n` and one digit more, if that is a
    digit to the base. -/
def push? (base : Nat) (n : Nat) (c : Char) : Option Nat :=
  (digit? c).bind fun d => if d < base then some (base * n + d) else none

/-- The value of a run of digits to a base. There must be a digit. -/
def value? (base : Nat) (digits : List Char) : Option Nat :=
  if digits = [] then none else digits.foldlM (push? base) 0

theorem digit?_digitChar {d : Nat} (h : d < 10) : digit? d.digitChar = some d := by
  match d, h with
  | 0, _ | 1, _ | 2, _ | 3, _ | 4, _ | 5, _ | 6, _ | 7, _ | 8, _ | 9, _ => rfl

theorem foldlM_push?_toDigits (n : Nat) :
    (Nat.toDigits 10 n).foldlM (push? 10) 0 = some n := by
  induction n using Nat.strongRecOn with
  | ind n ih =>
    by_cases h : n < 10
    · simp [Nat.toDigits_of_lt_base h, push?, digit?_digitChar h, h]
    · have h10 : n % 10 < 10 := Nat.mod_lt _ (by decide)
      rw [Nat.toDigits_of_base_le (by decide) (Nat.not_lt.1 h), List.foldlM_append,
        ih (n / 10) (Nat.div_lt_self (by omega) (by decide))]
      simp [push?, digit?_digitChar h10, h10]
      omega

theorem value?_toDigits (n : Nat) : value? 10 (Nat.toDigits 10 n) = some n := by
  simp [value?, Nat.toDigits_ne_nil, foldlM_push?_toDigits]

end ScriptCore.Numeral
