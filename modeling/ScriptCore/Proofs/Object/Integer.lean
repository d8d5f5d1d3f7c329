import Mathlib.Data.Rat.Floor
import Mathlib.Tactic.FieldSimp
import Mathlib.Tactic.Linarith
import ScriptCore.Object.Session
import ScriptCore.Proofs.Object.Action

/-!
# Arithmetic on integers

What is computed with 64 bits, against what there is without a limit.

* `Action.integers_exact`: each operation makes the exact result where 64 bits hold it, and
  fails otherwise. Powers are an exception: from an exponent of 2 ^ 32 on there are none, also
  where they do not grow. `Action.power_of_one_fails` is the least case.
* `Action.division_floors`: division and remainder are those of division that rounds down, and
  no step on the way to them leaves the 64 bits.

Both rounding down and the remainder are corrections of what division that rounds towards zero
gives (`fdiv_eq_tdiv_ite`, `fmod_eq_tmod_ite`).
-/

namespace ScriptCore.Object

namespace Arithmetic

/-! ## 64 bits -/

/-- A number that 64 bits hold. -/
def InRange (n : Int) : Prop :=
  -2 ^ 63 ≤ n ∧ n < 2 ^ 63

instance : DecidablePred InRange := fun _ => inferInstanceAs (Decidable (_ ∧ _))

variable {n : Int} {x y : Int64} {e : Excess}

theorem inRange_toInt (x : Int64) : InRange x.toInt :=
  ⟨x.le_toInt, x.toInt_lt⟩

theorem toInt_ofInt (hn : InRange n) : (Int64.ofInt n).toInt = n :=
  Int64.toInt_ofInt_of_le hn.1 hn.2

theorem toInt_add (h : InRange (x.toInt + y.toInt)) : (x + y).toInt = x.toInt + y.toInt := by
  rw [← toInt_ofInt h, Int64.ofInt_add, Int64.ofInt_toInt, Int64.ofInt_toInt]

theorem toInt_sub (h : InRange (x.toInt - y.toInt)) : (x - y).toInt = x.toInt - y.toInt := by
  rw [← toInt_ofInt h, Int64.ofInt_sub, Int64.ofInt_toInt, Int64.ofInt_toInt]

theorem fit?_of_inRange (hn : InRange n) : fit? n = some (.ofInt n) :=
  if_pos ⟨hn.1, Int.le_of_lt_add_one hn.2⟩

theorem fit?_of_not_inRange (hn : ¬InRange n) : fit? n = none :=
  if_neg fun h => hn ⟨h.1, Int.lt_add_one_of_le h.2⟩

theorem fit_of_inRange (hn : InRange n) : fit e n = .ok (.ofInt n) := by
  rw [fit, fit?_of_inRange hn]

theorem fit_of_not_inRange (hn : ¬InRange n) : fit e n = .error (.overflow e) := by
  rw [fit, fit?_of_not_inRange hn]

/-! ## Powers -/

variable {b : Int} {k : Nat}

theorem inRange_pow (hb : b.natAbs ≤ 1) (k : Nat) : InRange (b ^ k) := by
  have hle : (b ^ k).natAbs ≤ 1 := by
    rw [Int.natAbs_pow]
    exact (Nat.pow_le_pow_left hb k).trans (one_pow k).le
  constructor <;> omega

theorem not_inRange_pow (hb : 2 ≤ b.natAbs) (hk : 64 ≤ k) : ¬InRange (b ^ k) := by
  have hlarge : 2 ^ 64 ≤ (b ^ k).natAbs := by
    rw [Int.natAbs_pow]
    exact (Nat.pow_le_pow_right two_pos hk).trans (Nat.pow_le_pow_left hb k)
  rintro ⟨_, _⟩
  omega

/-- A power that is not computed has no 64 bits. -/
theorem power?_eq (b : Int) (k : Nat) : power? b k = fit? (b ^ k) := by
  rw [power?]
  split
  · next hb =>
    congr 1
    obtain rfl | rfl | rfl : b = 0 ∨ b = 1 ∨ b = -1 := by omega
    · split
      · next hk => rw [hk, pow_zero]
      · next hk => rw [zero_pow hk, if_neg (by simp)]
    · simp
    · obtain hk | hk := Nat.even_or_odd k
      · simp [hk.neg_one_pow, Nat.even_iff.1 hk]
      · simp [hk.neg_one_pow, hk.pos.ne', Nat.odd_iff.1 hk]
  · next hb =>
    split
    · next hk => rw [fit?_of_not_inRange (not_inRange_pow (by omega) hk)]
    · rfl

theorem eval_pow (hy : 0 ≤ y.toInt) : pow.eval x y =
    if y.toInt < 2 ^ 32 then fit .power (x.toInt ^ y.toInt.toNat)
    else .error (.overflow .power) := by
  rw [eval, if_neg (by rw [Int64.lt_iff_toInt_lt, Int64.toInt_zero]; omega)]
  have hlimit : largestExponent < y.toInt.toNat ↔ ¬y.toInt < 2 ^ 32 := by
    rw [show largestExponent = 2 ^ 32 - 1 from rfl]
    omega
  by_cases h : y.toInt < 2 ^ 32
  · rw [if_neg (fun hlt => hlimit.1 hlt h), if_pos h, power?_eq, fit]
  · rw [if_pos (hlimit.2 h), if_neg h]

/-! ## Rounding down -/

/-- The quotient that is rounded down is 1 less than the one that is rounded towards zero where
    division is not exact and the signs differ. -/
theorem fdiv_eq_tdiv_ite (a : Int) (hb : b ≠ 0) : a.fdiv b =
    if a.tmod b ≠ 0 ∧ ¬(a < 0 ↔ b < 0) then a.tdiv b - 1 else a.tdiv b := by
  have hsign : b < 0 ∧ b.sign = -1 ∨ 0 < b ∧ b.sign = 1 :=
    (lt_or_gt_of_ne hb).imp (fun h => ⟨h, Int.sign_eq_neg_one_of_neg h⟩)
      fun h => ⟨h, Int.sign_eq_one_of_pos h⟩
  simp only [Int.fdiv_eq_tdiv, Int.dvd_iff_tmod_eq_zero]
  split_ifs <;> omega

/-- The remainder has the sign of the first number, if it is not 0. -/
theorem tmod_neg_iff {a : Int} (ha : a.tmod b ≠ 0) : a.tmod b < 0 ↔ a < 0 := by
  rw [← Int.sign_eq_neg_one_iff_neg, Int.sign_tmod,
    if_neg (mt Int.dvd_iff_tmod_eq_zero.1 ha), Int.sign_eq_neg_one_iff_neg]

/-- The remainder that goes with rounding down is the divisor more where the quotient is 1
    less. -/
theorem fmod_eq_tmod_ite (a : Int) (hb : b ≠ 0) : a.fmod b =
    if a.tmod b ≠ 0 ∧ ¬(a.tmod b < 0 ↔ b < 0) then a.tmod b + b else a.tmod b := by
  have hsign : a.tmod b ≠ 0 ∧ ¬(a.tmod b < 0 ↔ b < 0) ↔ a.tmod b ≠ 0 ∧ ¬(a < 0 ↔ b < 0) :=
    and_congr_right fun ha => by rw [tmod_neg_iff ha]
  rw [if_congr hsign rfl rfl, Int.fmod_def, fdiv_eq_tdiv_ite a hb, Int.tmod_def]
  split
  · rw [mul_sub, mul_one, sub_sub_eq_add_sub, add_sub_right_comm]
  · rfl

theorem floor_div_eq (a b : Int) : ⌊(a : ℚ) / b⌋ = a.fdiv b := by
  obtain ⟨k, rfl | rfl⟩ := b.eq_nat_or_neg
  · rw [Int.cast_natCast, Rat.floor_intCast_div_natCast,
      Int.fdiv_eq_ediv_of_nonneg _ (Int.natCast_nonneg k)]
  · rw [Int.cast_neg, Int.cast_natCast, div_neg, ← neg_div, ← Int.cast_neg,
      Rat.floor_intCast_div_natCast, ← Int.fdiv_eq_ediv_of_nonneg _ (Int.natCast_nonneg k),
      ← Int.neg_fdiv_neg, Int.neg_neg]

/-- The remainder that goes with rounding down has the sign of the divisor, if it is not 0. -/
theorem fmod_sign (a : Int) (hb : b ≠ 0) : a.fmod b = 0 ∨ (a.fmod b).sign = b.sign := by
  obtain hneg | hpos := lt_or_gt_of_ne hb
  · have := (-a).fmod_nonneg_of_pos (Int.neg_pos_of_neg hneg)
    rw [Int.neg_fmod_neg] at this
    rw [Int.sign_eq_neg_one_of_neg hneg, Int.sign_eq_neg_one_iff_neg]
    omega
  · have := a.fmod_nonneg_of_pos hpos
    rw [Int.sign_eq_one_of_pos hpos, Int.sign_eq_one_iff_pos]
    omega

theorem natAbs_fmod_lt (a : Int) (hb : b ≠ 0) : (a.fmod b).natAbs < b.natAbs := by
  obtain hneg | hpos := lt_or_gt_of_ne hb
  · have hlt := (-a).fmod_lt_of_pos (Int.neg_pos_of_neg hneg)
    have hle := (-a).fmod_nonneg_of_pos (Int.neg_pos_of_neg hneg)
    rw [Int.neg_fmod_neg] at hlt hle
    omega
  · have hlt := a.fmod_lt_of_pos hpos
    have hle := a.fmod_nonneg_of_pos hpos
    omega

/-! ## Division with 64 bits -/

/-- The one quotient that 64 bits do not hold. -/
def Exceeds (x y : Int64) : Prop :=
  x = Int64.minValue ∧ y = -1

instance (x y : Int64) : Decidable (Exceeds x y) := inferInstanceAs (Decidable (_ ∧ _))

theorem exceeds_iff : Exceeds x y ↔ x.toInt = -2 ^ 63 ∧ y.toInt = -1 :=
  and_congr Int64.toInt_inj.symm Int64.toInt_inj.symm

theorem toInt_ne_zero (hy : y ≠ 0) : y.toInt ≠ 0 :=
  fun h => hy (Int64.toInt_inj.1 h)

theorem differInSign_iff : differInSign x y ↔ ¬(x.toInt < 0 ↔ y.toInt < 0) := by
  simp [differInSign, Int64.lt_iff_toInt_lt]

/-- Where division is not exact, the quotient is at most half as large as the dividend. -/
theorem two_mul_natAbs_tdiv_le {a : Int} (hb : b ≠ 0) (ha : a.tmod b ≠ 0) :
    2 * (a.tdiv b).natAbs ≤ a.natAbs := by
  have hb₂ : 2 ≤ b.natAbs := by
    by_contra hlt
    obtain rfl | rfl : b = 1 ∨ b = -1 := by omega
    · exact ha a.tmod_one
    · exact ha (by rw [Int.tmod_neg, Int.tmod_one])
  rw [Int.natAbs_tdiv]
  calc 2 * (a.natAbs / b.natAbs) ≤ b.natAbs * (a.natAbs / b.natAbs) := Nat.mul_le_mul_right _ hb₂
    _ ≤ a.natAbs := Nat.mul_div_le _ _

theorem inRange_tdiv_iff (hy : y ≠ 0) : InRange (x.toInt.tdiv y.toInt) ↔ ¬Exceeds x y := by
  rw [exceeds_iff]
  constructor
  · rintro hq ⟨hx, hy⟩
    rw [hx, hy] at hq
    exact absurd hq (by decide)
  · intro hxy
    obtain ⟨hlow, hhigh⟩ := inRange_toInt x
    have hy₀ := toInt_ne_zero hy
    have hle := Int.natAbs_tdiv_le_natAbs x.toInt y.toInt
    have hmul := Int.mul_tdiv_add_tmod x.toInt y.toInt
    -- only a quotient of 2 ^ 63 is left to exclude, and it would be exact
    have hne : x.toInt.tdiv y.toInt ≠ 2 ^ 63 := by
      intro hq
      by_cases hexact : x.toInt.tmod y.toInt = 0
      · rw [hq, hexact] at hmul
        omega
      · have := two_mul_natAbs_tdiv_le hy₀ hexact
        omega
    constructor <;> omega

theorem truncatedQuotient_of_exceeds (hy : y ≠ 0) (hxy : Exceeds x y) :
    truncatedQuotient x y = .error (.overflow .quotient) :=
  fit_of_not_inRange fun h => (inRange_tdiv_iff hy).1 h hxy

theorem truncatedQuotient_of_not_exceeds (hy : y ≠ 0) (hxy : ¬Exceeds x y) :
    ∃ q, truncatedQuotient x y = .ok q ∧ q.toInt = x.toInt.tdiv y.toInt :=
  have hrange := (inRange_tdiv_iff hy).2 hxy
  ⟨_, fit_of_inRange hrange, toInt_ofInt hrange⟩

/-- The step from the quotient that is rounded towards zero to the one below stays in the 64
    bits. -/
theorem toInt_sub_one {q : Int64} (hy : y ≠ 0) (hq : truncatedQuotient x y = .ok q)
    (hinexact : x % y ≠ 0) : (q - 1).toInt = q.toInt - 1 := by
  have hxy : ¬Exceeds x y := fun h => by
    rw [truncatedQuotient_of_exceeds hy h] at hq
    cases hq
  obtain ⟨_, hq', hvalue⟩ := truncatedQuotient_of_not_exceeds hy hxy
  obtain rfl := Except.ok.inj (hq.symm.trans hq')
  have htmod : x.toInt.tmod y.toInt ≠ 0 := by
    rw [← Int64.toInt_mod]
    exact toInt_ne_zero hinexact
  have hhalf := two_mul_natAbs_tdiv_le (toInt_ne_zero hy) htmod
  obtain ⟨hlow, hhigh⟩ := inRange_toInt x
  have hone : (1 : Int64).toInt = 1 := rfl
  rw [toInt_sub (by rw [hone]; constructor <;> omega), hone]

/-- The step from the remainder to the one with the other sign stays in the 64 bits. -/
theorem toInt_add_of_differInSign (h : differInSign x y) :
    (x + y).toInt = x.toInt + y.toInt := by
  rw [differInSign_iff] at h
  obtain ⟨hxlow, hxhigh⟩ := inRange_toInt x
  obtain ⟨hylow, hyhigh⟩ := inRange_toInt y
  exact toInt_add (by constructor <;> omega)

theorem quotient_of_exceeds (hy : y ≠ 0) (hxy : Exceeds x y) :
    quotient x y = .error (.overflow .quotient) := by
  rw [quotient, if_neg hy, truncatedQuotient_of_exceeds hy hxy]
  rfl

theorem exists_quotient (hy : y ≠ 0) (hxy : ¬Exceeds x y) :
    ∃ q, quotient x y = .ok q ∧ q.toInt = x.toInt.fdiv y.toInt := by
  obtain ⟨q, hq, hvalue⟩ := truncatedQuotient_of_not_exceeds hy hxy
  have hcorrect : x % y ≠ 0 ∧ differInSign x y ↔
      x.toInt.tmod y.toInt ≠ 0 ∧ ¬(x.toInt < 0 ↔ y.toInt < 0) := by
    rw [differInSign_iff, ← Int64.toInt_mod, ← Int64.toInt_zero, Ne, Ne, Int64.toInt_inj]
  refine ⟨if x % y ≠ 0 ∧ differInSign x y then q - 1 else q,
    by rw [quotient, if_neg hy, hq]; rfl, ?_⟩
  rw [fdiv_eq_tdiv_ite _ (toInt_ne_zero hy), ← if_congr hcorrect rfl rfl, ← hvalue]
  split
  · next h => exact toInt_sub_one hy hq h.1
  · rfl

theorem toInt_truncatedRemainder (x y : Int64) :
    (truncatedRemainder x y).toInt = x.toInt.tmod y.toInt := by
  rw [truncatedRemainder]
  split
  · next h =>
    obtain ⟨hx, hy⟩ := exceeds_iff.1 h
    rw [hx, hy]
    rfl
  · exact Int64.toInt_mod x y

theorem exists_remainder (hy : y ≠ 0) :
    ∃ r, remainder x y = .ok r ∧ r.toInt = x.toInt.fmod y.toInt := by
  have hr := toInt_truncatedRemainder x y
  have hcorrect : truncatedRemainder x y ≠ 0 ∧ differInSign (truncatedRemainder x y) y ↔
      x.toInt.tmod y.toInt ≠ 0 ∧ ¬(x.toInt.tmod y.toInt < 0 ↔ y.toInt < 0) := by
    rw [differInSign_iff, ← hr, ← Int64.toInt_zero, Ne, Ne, Int64.toInt_inj]
  refine ⟨_, by rw [remainder, if_neg hy], ?_⟩
  rw [fmod_eq_tmod_ite _ (toInt_ne_zero hy), ← if_congr hcorrect rfl rfl, ← hr]
  split
  · next h => exact toInt_add_of_differInSign h.2
  · rfl

end Arithmetic

namespace Action

open Arithmetic

variable {h : Heap} {a b : Ref} {x y : Int64} {z : Action Ref} {e : Excess} {n : Int}

/-- The heap of a session that made two integers. -/
def twoIntegers (x y : Int64) : Heap :=
  ((Session.start .basic).performAll
    [(.make (.integer x), some "x"), (.make (.integer y), some "y")]).heap

theorem value?_twoIntegers (x y : Int64) :
    (twoIntegers x y).value? ⟨0⟩ = some (.integer x) ∧
      (twoIntegers x y).value? ⟨1⟩ = some (.integer y) :=
  ⟨rfl, rfl⟩

/-! ## What operations answer -/

/-- Performed on a heap, an action adds an object with the value to it and answers with that. -/
def Makes (h : Heap) (z : Action Ref) (v : Value) : Prop :=
  z.perform h = (.ok ⟨h.cells.size⟩, h.push v)

/-- Performed on a heap, an action fails and leaves it as it is. -/
def Refuses (h : Heap) (z : Action Ref) (e : Error) : Prop :=
  z.perform h = (.error e, h)

/-- An action makes the integer `n` where 64 bits hold it, and says that they do not where they
    do not. -/
structure GivesExactly (h : Heap) (z : Action Ref) (e : Excess) (n : Int) : Prop where
  makes (hn : InRange n) : ∃ m : Int64, m.toInt = n ∧ Makes h z (.integer m)
  refuses (hn : ¬InRange n) : Refuses h z (.overflow e)

theorem Makes.not_refuses {v : Value} {f : Error} (hz : Makes h z v) : ¬Refuses h z f := fun hf =>
  nomatch (Prod.mk.inj (hz.symm.trans hf)).1

theorem makes_of_ok {m : Int64}
    (hz : z.perform h = (ofInteger (.ok m)).perform h) : Makes h z (.integer m) :=
  hz.trans (perform_alloc _ h)

theorem givesExactly_of_fit (hz : z.perform h = (ofInteger (fit e n)).perform h) :
    GivesExactly h z e n where
  makes hn := ⟨.ofInt n, toInt_ofInt hn, makes_of_ok (by rw [hz, fit_of_inRange hn])⟩
  refuses hn := by
    rw [fit_of_not_inRange hn] at hz
    exact hz

theorem perform_arithmetic (ha : h.value? a = some (.integer x))
    (hb : h.value? b = some (.integer y)) (op : Arithmetic) :
    (arithmetic op a b).perform h = (ofInteger (op.eval x y)).perform h :=
  (perform_typeOf_bind ha).trans <| (perform_typeOf_bind hb).trans <|
    (perform_bind_of_ok (perform_integer ha)).trans (perform_bind_of_ok (perform_integer hb))

theorem perform_negative (ha : h.value? a = some (.integer x)) :
    (negative a).perform h = (ofInteger (negate x)).perform h :=
  (perform_typeOf_bind ha).trans (perform_bind_of_ok (perform_integer ha))

/-- Powers are exact, unless the exponent is 2 ^ 32 or more and the base is 0, 1 or -1. -/
theorem givesExactly_pow_iff (ha : h.value? a = some (.integer x))
    (hb : h.value? b = some (.integer y)) (hy : 0 ≤ y.toInt) :
    GivesExactly h (arithmetic .pow a b) .power (x.toInt ^ y.toInt.toNat) ↔
      y.toInt < 2 ^ 32 ∨ 2 ≤ x.toInt.natAbs := by
  have hz := perform_arithmetic ha hb .pow
  rw [eval_pow hy] at hz
  by_cases hlt : y.toInt < 2 ^ 32
  · rw [if_pos hlt] at hz
    exact iff_of_true (givesExactly_of_fit hz) (.inl hlt)
  · rw [if_neg hlt] at hz
    rw [or_iff_right hlt]
    constructor
    · intro hpow
      by_contra hx
      obtain ⟨m, -, hm⟩ := hpow.makes (inRange_pow (by omega) _)
      exact hm.not_refuses hz
    · intro hx
      exact ⟨fun hn => absurd hn (not_inRange_pow hx (by omega)), fun _ => hz⟩

/-- **Integers are exact.** Sums, differences, products and negatives are the exact ones where
    64 bits hold them, and errors where they do not. There is no power with a negative exponent.
    With any other exponent it is exact too, but for the powers of 0, 1 and -1 from the exponent
    2 ^ 32 on, which all fail. -/
theorem integers_exact (ha : h.value? a = some (.integer x))
    (hb : h.value? b = some (.integer y)) :
    GivesExactly h (arithmetic .add a b) .sum (x.toInt + y.toInt) ∧
    GivesExactly h (arithmetic .sub a b) .difference (x.toInt - y.toInt) ∧
    GivesExactly h (arithmetic .mul a b) .product (x.toInt * y.toInt) ∧
    GivesExactly h (negative a) .negative (-x.toInt) ∧
    (y < 0 → Refuses h (arithmetic .pow a b) .negativePower) ∧
    (2 ^ 32 ≤ y.toInt → Refuses h (arithmetic .pow a b) (.overflow .power)) ∧
    (0 ≤ y → (GivesExactly h (arithmetic .pow a b) .power (x.toInt ^ y.toInt.toNat) ↔
      y.toInt < 2 ^ 32 ∨ 2 ≤ x.toInt.natAbs)) := by
  have hz := perform_arithmetic ha hb
  refine ⟨givesExactly_of_fit (hz .add), givesExactly_of_fit (hz .sub),
    givesExactly_of_fit (hz .mul), givesExactly_of_fit (perform_negative ha), ?_, ?_, ?_⟩
  · intro hy
    have hpow := hz .pow
    rw [eval, if_pos hy] at hpow
    exact hpow
  · intro hy
    have hpow := hz .pow
    rw [eval_pow (by omega), if_neg (by omega)] at hpow
    exact hpow
  · intro hy
    rw [Int64.le_iff_toInt_le, Int64.toInt_zero] at hy
    exact givesExactly_pow_iff ha hb hy

/-- The power that is the least integer is made, and its negative is not. -/
theorem integers_exact_at_limit :
    (∃ m : Int64, m = Int64.minValue ∧
      Makes (twoIntegers (-2) 63) (arithmetic .pow ⟨0⟩ ⟨1⟩) (.integer m)) ∧
    Refuses (twoIntegers Int64.minValue 63) (negative ⟨0⟩) (.overflow .negative) ∧
    Refuses (twoIntegers 2 (-1)) (arithmetic .pow ⟨0⟩ ⟨1⟩) .negativePower ∧
    Refuses (twoIntegers 1 4294967296) (arithmetic .pow ⟨0⟩ ⟨1⟩) (.overflow .power) := by
  have hexact (x y : Int64) := integers_exact (value?_twoIntegers x y).1 (value?_twoIntegers x y).2
  obtain ⟨-, -, -, -, -, -, hpow⟩ := hexact (-2) 63
  obtain ⟨-, -, -, hneg, -, -, -⟩ := hexact Int64.minValue 63
  obtain ⟨-, -, -, -, hbelow, -, -⟩ := hexact 2 (-1)
  obtain ⟨-, -, -, -, -, hlarge, -⟩ := hexact 1 4294967296
  obtain ⟨m, hm, hmakes⟩ := ((hpow (by decide)).2 (by decide)).makes (by decide)
  exact ⟨⟨m, Int64.toInt_inj.1 hm, hmakes⟩, hneg.refuses (by decide), hbelow (by decide),
    hlarge (by decide)⟩

/-- 1 to the power 2 ^ 32 is 1, which 64 bits hold, but the operation says that they do not. -/
theorem power_of_one_fails :
    (twoIntegers 1 4294967296).value? ⟨0⟩ = some (.integer 1) ∧
      (twoIntegers 1 4294967296).value? ⟨1⟩ = some (.integer 4294967296) ∧
      InRange (1 ^ 4294967296) ∧
      Refuses (twoIntegers 1 4294967296) (arithmetic .pow ⟨0⟩ ⟨1⟩) (.overflow .power) := by
  refine ⟨rfl, rfl, ?_, rfl⟩
  rw [one_pow]
  decide

/-- **Division rounds down.** Without a divisor of 0, there is always a remainder: it is what
    the quotient rounded down leaves, and has the sign of the divisor. The quotient is the one
    that is rounded down, but for the least integer divided by -1. What the quotient and the
    remainder are made from is corrected within the 64 bits. -/
theorem division_floors (ha : h.value? a = some (.integer x))
    (hb : h.value? b = some (.integer y)) :
    (y = 0 → Refuses h (arithmetic .div a b) .divisionByZero ∧
      Refuses h (arithmetic .rem a b) .moduloByZero) ∧
    (y ≠ 0 →
      (∃ r : Int64, Makes h (arithmetic .rem a b) (.integer r) ∧
        r.toInt = x.toInt - y.toInt * ⌊(x.toInt : ℚ) / y.toInt⌋ ∧
        (r.toInt = 0 ∨ r.toInt.sign = y.toInt.sign) ∧ |r.toInt| < |y.toInt| ∧
        (Exceeds x y → r = 0 ∧ Refuses h (arithmetic .div a b) (.overflow .quotient)) ∧
        (¬Exceeds x y → ∃ q : Int64, Makes h (arithmetic .div a b) (.integer q) ∧
          q.toInt = ⌊(x.toInt : ℚ) / y.toInt⌋ ∧ x.toInt = q.toInt * y.toInt + r.toInt)) ∧
      (∀ q, truncatedQuotient x y = .ok q → x % y ≠ 0 ∧ differInSign x y →
        (q - 1).toInt = q.toInt - 1) ∧
      (differInSign (truncatedRemainder x y) y →
        (truncatedRemainder x y + y).toInt = (truncatedRemainder x y).toInt + y.toInt)) := by
  have hz := perform_arithmetic ha hb
  refine ⟨?_, fun hy => ⟨?_, fun q hq hcorrect => toInt_sub_one hy hq hcorrect.1,
    toInt_add_of_differInSign⟩⟩
  · rintro rfl
    exact ⟨hz .div, hz .rem⟩
  obtain ⟨r, hr, hvalue⟩ := exists_remainder (x := x) hy
  have hy₀ := toInt_ne_zero hy
  rw [floor_div_eq, ← Int.fmod_def]
  refine ⟨r, makes_of_ok (by rw [← hr]; exact hz .rem), hvalue, ?_, ?_, ?_, ?_⟩
  · rw [hvalue]
    exact fmod_sign _ hy₀
  · have := natAbs_fmod_lt x.toInt hy₀
    rw [Int.abs_eq_natAbs, Int.abs_eq_natAbs, hvalue]
    omega
  · intro hxy
    obtain ⟨hx₁, hy₁⟩ := exceeds_iff.1 hxy
    have hr₀ : r.toInt = (0 : Int64).toInt := by
      rw [hvalue, hx₁, hy₁]
      rfl
    have hdiv := hz .div
    rw [eval, quotient_of_exceeds hy hxy] at hdiv
    exact ⟨Int64.toInt_inj.1 hr₀, hdiv⟩
  · intro hxy
    obtain ⟨q, hq, hvalue'⟩ := exists_quotient hy hxy
    refine ⟨q, makes_of_ok (by rw [← hq]; exact hz .div), hvalue', ?_⟩
    rw [hvalue, hvalue', Int.fdiv_mul_add_fmod]

/-- A quotient that is not exact, and the one that 64 bits do not hold. -/
theorem division_floors_of_seven :
    (∃ q r : Int64, q = -4 ∧ r = -1 ∧
      Makes (twoIntegers 7 (-2)) (arithmetic .div ⟨0⟩ ⟨1⟩) (.integer q) ∧
      Makes (twoIntegers 7 (-2)) (arithmetic .rem ⟨0⟩ ⟨1⟩) (.integer r)) ∧
    Refuses (twoIntegers 7 0) (arithmetic .rem ⟨0⟩ ⟨1⟩) .moduloByZero ∧
    Refuses (twoIntegers Int64.minValue (-1)) (arithmetic .div ⟨0⟩ ⟨1⟩)
      (.overflow .quotient) := by
  have hfloors (x y : Int64) :=
    division_floors (value?_twoIntegers x y).1 (value?_twoIntegers x y).2
  obtain ⟨⟨r, hr, hr', -, -, -, hq⟩, -, -⟩ := (hfloors 7 (-2)).2 (by decide)
  obtain ⟨q, hq, hq', -⟩ := hq (by decide)
  obtain ⟨⟨_, _, _, _, _, hexceeds, _⟩, _, _⟩ := (hfloors Int64.minValue (-1)).2 (by decide)
  rw [floor_div_eq] at hr' hq'
  exact ⟨⟨q, r, Int64.toInt_inj.1 hq', Int64.toInt_inj.1 hr', hq, hr⟩,
    ((hfloors 7 0).1 rfl).2, (hexceeds (by decide)).2⟩

end Action

end ScriptCore.Object
