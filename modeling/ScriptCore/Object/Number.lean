import ScriptCore.Object.Action
import ScriptCore.Object.Integer

/-!
# Arithmetic on objects

Integers are the numbers of the language. A foreign type with suites takes
part in arithmetic by refusing each operation; other types have none.
-/

namespace ScriptCore.Object.Action

/-- The object of a result. -/
def ofInteger (result : Except Error Int64) : Action Ref := do
  match result with
  | .ok n => alloc (.integer n)
  | .error e => throw e

/-- An operation on two objects. -/
def arithmetic (op : Arithmetic) (a b : Ref) : Action Ref := do
  let t ← typeOf a
  if t = .integer then
    let u ← typeOf b
    if u = .integer then
      let x ← integer a
      let y ← integer b
      ofInteger (op.eval x y)
    else throw (.unsupportedPair op.pairOperation t u)
  else if t.isNumber then throw (.unsupportedPair op.pairOperation t (← typeOf b))
  else throw (.unsupported .arithmetic t)

/-- The negative of an object. -/
def negative (a : Ref) : Action Ref := do
  let t ← typeOf a
  if t = .integer then ofInteger (negate (← integer a))
  else if t.isNumber then throw (.unsupported .negation t)
  else throw (.unsupported .arithmetic t)

/-- An object with a plus sign in front: the number itself. -/
def positive (a : Ref) : Action Ref := do
  let t ← typeOf a
  if t = .integer then
    let _ ← integer a
    share a
  else if t.isNumber then throw (.unsupported .plus t)
  else throw (.unsupported .arithmetic t)

end ScriptCore.Object.Action
