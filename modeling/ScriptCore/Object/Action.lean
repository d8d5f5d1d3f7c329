import ScriptCore.Object.Error
import ScriptCore.Object.Heap

/-!
# Actions

An action works on the heap and fails or answers; what it did to the heap
stays in both cases. A reference that an action answers with is a new one,
which the caller has to release. The references it is given stay with the
caller.
-/

namespace ScriptCore.Object

/-- An action that answers with an `α`. -/
abbrev Action (α : Type) : Type :=
  ExceptT Error (StateM Heap) α

namespace Action

variable {α : Type}

/-- Performs an action on a heap. -/
def perform (x : Action α) (h : Heap) : Except Error α × Heap :=
  (x.run.run h).run

/-- An answer that is computed from the heap alone. -/
def ofHeap (f : Heap → Except Error α) : Action α := do
  match f (← get) with
  | .ok a => return a
  | .error e => throw e

/-- The value of an object. -/
def value (r : Ref) : Action Value := do
  match (← get).value? r with
  | some v => return v
  | none => throw .badCall

/-- The type of an object. -/
def typeOf (r : Ref) : Action ObjectType :=
  return (← value r).type

/-- What an object holds. -/
def payload (r : Ref) : Action Payload :=
  return (← value r).payload

/-- A new reference to an object. -/
def share (r : Ref) : Action Ref := do
  modify (·.retain r)
  return r

/-- A new reference to an object, if there is one. -/
def share? : Option Ref → Action (Option Ref)
  | some r => some <$> share r
  | none => return none

/-- Releases a reference. -/
def release (r : Ref) : Action Unit :=
  modify (·.release r)

/-- A new object, of a type and with a payload. -/
def alloc (v : Value) : Action Ref :=
  modifyGet (·.alloc v)

/-- The object None. -/
def shareNone : Action Ref :=
  modifyGet Heap.shareNone

/-- The object of a type. -/
def shareType (t : ObjectType) : Action Ref :=
  modifyGet (·.shareType t)

/-! What an object holds, if it is of a certain kind. The type of the object has
no say in this. -/

/-- The integer that an object holds. -/
def integer (r : Ref) : Action Int64 := do
  let .integer n ← payload r | throw .badCall
  return n

/-- The bytes that an object holds. -/
def bytes (r : Ref) : Action Bytes := do
  let .string bs ← payload r | throw .badCall
  return bs

/-- The items that an object holds. -/
def items (r : Ref) : Action (List Ref) := do
  let .tuple items ← payload r | throw .badCall
  return items

/-- The entries that an object holds. -/
def entries (r : Ref) : Action (NameMap Ref) := do
  let .dict entries ← payload r | throw .badCall
  return entries

/-- The type that an object stands for. -/
def typeObject (r : Ref) : Action ObjectType := do
  let .typeObject t ← payload r | throw .badCall
  return t

end Action

end ScriptCore.Object
