import ScriptCore.Object.Error

/-!
# Integers

Integers have 64 bits. An operation gives the exact result or, where that does
not fit, an error. Division rounds down, and the remainder goes with it: it has
the sign of the divisor. Both are made from division that rounds towards zero.
An exponent may have 32 bits.
-/

namespace ScriptCore.Object

/-- The operations on two integers. -/
inductive Arithmetic
  | add
  | sub
  | mul
  | div
  | rem
  | pow
  deriving DecidableEq, Repr

namespace Arithmetic

/-- What the operation is called in an error. -/
def pairOperation : Arithmetic → PairOperation
  | add => .add
  | sub => .sub
  | mul => .mul
  | div => .div
  | rem => .rem
  | pow => .pow

/-- An integer that has 64 bits. -/
def fit? (n : Int) : Option Int64 :=
  if Int64.minValue.toInt ≤ n ∧ n ≤ Int64.maxValue.toInt then some (.ofInt n) else none

/-- An integer that has 64 bits, or the error that it has not. -/
def fit (excess : Excess) (n : Int) : Except Error Int64 :=
  match fit? n with
  | some n => .ok n
  | none => .error (.overflow excess)

/-- The largest exponent. -/
def largestExponent : Nat := UInt32.size - 1

/-- A power that has 64 bits. A base with an absolute value of 2 or more has
    none from the 64th on, so that no large number is computed. -/
def power? (x : Int) (n : Nat) : Option Int64 :=
  if x.natAbs ≤ 1 then
    fit? (if n = 0 then 1 else if x = -1 ∧ n % 2 = 0 then 1 else x)
  else if 64 ≤ n then none
  else fit? (Int.pow x n)

/-- Whether one of two integers is negative and the other is not. -/
def differInSign (x y : Int64) : Bool :=
  decide (x < 0) != decide (y < 0)

/-- The quotient of two integers, rounded towards zero. -/
def truncatedQuotient (x y : Int64) : Except Error Int64 :=
  fit .quotient (x.toInt.tdiv y.toInt)

/-- The quotient of two integers, rounded down: where division is not exact and
    the signs differ, it is 1 less than the one that is rounded towards zero. -/
def quotient (x y : Int64) : Except Error Int64 :=
  if y = 0 then .error .divisionByZero
  else (truncatedQuotient x y).map fun q =>
    if x % y ≠ 0 ∧ differInSign x y then q - 1 else q

/-- The remainder that goes with the quotient rounded towards zero, with the sign
    of the first integer. Divided by -1, the least integer leaves 0, though it has
    no quotient. -/
def truncatedRemainder (x y : Int64) : Int64 :=
  if x = Int64.minValue ∧ y = -1 then 0 else x % y

/-- The remainder that goes with the quotient rounded down, with the sign of the
    second integer. -/
def remainder (x y : Int64) : Except Error Int64 :=
  if y = 0 then .error .moduloByZero
  else
    let r := truncatedRemainder x y
    .ok (if r ≠ 0 ∧ differInSign r y then r + y else r)

/-- The result of an operation. -/
def eval (op : Arithmetic) (x y : Int64) : Except Error Int64 :=
  match op with
  | add => fit .sum (x.toInt + y.toInt)
  | sub => fit .difference (x.toInt - y.toInt)
  | mul => fit .product (x.toInt * y.toInt)
  | div => quotient x y
  | rem => remainder x y
  | pow =>
    if y < 0 then .error .negativePower
    else if largestExponent < y.toInt.toNat then .error (.overflow .power)
    else match power? x.toInt y.toInt.toNat with
      | some n => .ok n
      | none => .error (.overflow .power)

end Arithmetic

/-- The negative of an integer. -/
def negate (x : Int64) : Except Error Int64 :=
  Arithmetic.fit .negative (-x.toInt)

end ScriptCore.Object
