import Mathlib.Order.Basic
import ScriptCore.Numeral
import ScriptCore.Proofs.Utf8

/-!
# Numerals

A number is written as a run of digits that begins with a zero only if it is zero
(`length_of_head?_toDigits`). As bytes, an integer is such a run, after a sign if it is negative
(`ofString_cases`). Different integers are written differently (`ofString_inj`).
-/

namespace ScriptCore.Numeral

/-! ## Digits -/

theorem isDigit_of_mem_toDigits {n : Nat} {c : Char} (hc : c ∈ Nat.toDigits 10 n) :
    c.isDigit = true :=
  Nat.isDigit_of_mem_toDigits (by decide) (by decide) hc

/-- A numeral begins with a digit. -/
theorem exists_toDigits_eq_cons (n : Nat) :
    ∃ c ds, Nat.toDigits 10 n = c :: ds ∧ c.isDigit = true := by
  obtain ⟨c, ds, hds⟩ := List.exists_cons_of_ne_nil (Nat.toDigits_ne_nil (n := n) (b := 10))
  exact ⟨c, ds, hds, isDigit_of_mem_toDigits (hds ▸ List.mem_cons_self)⟩

/-- A numeral has no zero in front. -/
theorem length_of_head?_toDigits {n : Nat} (h : (Nat.toDigits 10 n).head? = some '0') :
    (Nat.toDigits 10 n).length ≤ 1 := by
  suffices n < 10 by simp [Nat.toDigits_of_lt_base this]
  induction n using Nat.strongRecOn with
  | ind n ih =>
    -- the digits of `n / 10` stand in front, and these have no zero there by induction
    by_contra hn
    have hn := Nat.not_lt.1 hn
    obtain ⟨d, ds, hds⟩ := List.exists_cons_of_ne_nil
      (Nat.toDigits_ne_nil (n := n / 10) (b := 10))
    rw [Nat.toDigits_of_base_le (by decide) hn, hds] at h
    have hlt := ih (n / 10) (Nat.div_lt_self (by omega) (by decide)) (hds ▸ h)
    rw [Nat.toDigits_of_lt_base hlt] at hds
    have hdigit : ∀ d < 10, 0 < d → Nat.digitChar d ≠ '0' := by decide
    exact hdigit _ hlt (Nat.div_pos hn (by decide))
      ((List.cons.inj hds).1.trans (Option.some.inj h))

/-! ## Bytes -/

/-- The digits of a number. -/
def digits (n : Nat) : Bytes :=
  Utf8.encode (Nat.toDigits 10 n)

theorem digits_inj {n n' : Nat} (h : digits n = digits n') : n = n' := by
  have hdigits := congrArg (Utf8.decodeFrom none) h
  rw [digits, digits, Utf8.decodeFrom_encode, Utf8.decodeFrom_encode] at hdigits
  have hvalue := congrArg (value? 10) hdigits
  rw [value?_toDigits, value?_toDigits] at hvalue
  exact Option.some.inj hvalue

theorem exists_encodeChar_of_isDigit {ch : Char} (hc : ch.isDigit = true) :
    ∃ b, String.utf8EncodeChar ch = [b] ∧ Byte.isDigit b = true := by
  have hdigits : ∀ n < 58, 48 ≤ n → String.utf8EncodeChar (Char.ofNat n) = [UInt8.ofNat n] ∧
      Byte.isDigit (UInt8.ofNat n) = true := by decide
  rw [Char.isDigit, Bool.and_eq_true, decide_eq_true_eq, decide_eq_true_eq] at hc
  have h := hdigits ch.toNat (Nat.lt_succ_of_le hc.2) hc.1
  rw [Char.ofNat_toNat] at h
  exact ⟨_, h⟩

theorem isDigit_of_mem_digits {n : Nat} {b : UInt8} (hb : b ∈ digits n) :
    Byte.isDigit b = true := by
  obtain ⟨ch, hch, hb⟩ := List.mem_flatMap.1 hb
  obtain ⟨b', hb', hdigit⟩ :=
    exists_encodeChar_of_isDigit (isDigit_of_mem_toDigits hch)
  rw [hb', List.mem_singleton] at hb
  exact hb ▸ hdigit

theorem digits_ne_nil (n : Nat) : digits n ≠ [] := by
  obtain ⟨ch, hch⟩ := List.exists_mem_of_ne_nil _ (Nat.toDigits_ne_nil (n := n) (b := 10))
  exact fun h => String.utf8EncodeChar_ne_nil (List.flatMap_eq_nil_iff.1 h ch hch)

/-- A numeral consists of digits, after a sign where the number is negative. -/
theorem ofString_cases (n : Int) :
    0 ≤ n ∧ Bytes.ofString (toString n) = digits n.toNat ∨
    n < 0 ∧ Bytes.ofString (toString n) = '-'.toUInt8 :: digits (-n).toNat := by
  rw [Int.toString_eq_repr, Int.repr_eq_if, Nat.repr_eq_ofList_toDigits,
    Nat.repr_eq_ofList_toDigits]
  split
  · next h => exact .inl ⟨h, by rw [Bytes.ofString, String.toList_ofList, digits]⟩
  · next h =>
    refine .inr ⟨Int.not_le.1 h, ?_⟩
    rw [Bytes.ofString, String.toList_append, Utf8.encode_append, String.toList_ofList,
      String.toList_ofList]
    rfl

theorem ofString_inj {n n' : Int}
    (h : Bytes.ofString (toString n) = Bytes.ofString (toString n')) : n = n' := by
  -- a sign is no digit
  have hsign : ∀ {m m' : Nat}, digits m ≠ '-'.toUInt8 :: digits m' := fun h => by
    have hdigit := isDigit_of_mem_digits (h ▸ List.mem_cons_self)
    exact absurd hdigit (by decide)
  rcases ofString_cases n with ⟨hn, hd⟩ | ⟨hn, hd⟩ <;>
    rcases ofString_cases n' with ⟨hn', hd'⟩ | ⟨hn', hd'⟩ <;> rw [hd, hd'] at h
  · have := digits_inj h
    omega
  · exact absurd h hsign
  · exact absurd h.symm hsign
  · have := digits_inj (List.cons.inj h).2
    omega

/-- Whether a byte can be part of a numeral. -/
def isPart (b : UInt8) : Bool :=
  Byte.isDigit b || b == '-'.toUInt8

theorem isPart_of_mem {n : Int} {b : UInt8} (hb : b ∈ Bytes.ofString (toString n)) :
    isPart b = true := by
  have hdigits : ∀ {m}, b ∈ digits m → isPart b = true := fun hb => by
    rw [isPart, isDigit_of_mem_digits hb, Bool.true_or]
  rcases ofString_cases n with ⟨-, hn⟩ | ⟨-, hn⟩ <;> rw [hn] at hb
  · exact hdigits hb
  · rcases List.mem_cons.1 hb with rfl | hb
    · rfl
    · exact hdigits hb

theorem exists_cons (n : Int) :
    ∃ b bs, Bytes.ofString (toString n) = b :: bs ∧ isPart b = true := by
  cases h : Bytes.ofString (toString n) with
  | cons b bs => exact ⟨b, bs, rfl, isPart_of_mem (h ▸ List.mem_cons_self)⟩
  | nil =>
    rcases ofString_cases n with ⟨-, hn⟩ | ⟨-, hn⟩
    · exact absurd (hn.symm.trans h) (digits_ne_nil _)
    · cases hn.symm.trans h

end ScriptCore.Numeral
