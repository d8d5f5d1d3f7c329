import ScriptCore.Object.Action
import ScriptCore.Utf8

/-!
# Dictionaries

A dictionary stores objects under names. Where a key is an object, it has to
be a string, and stands for the text that its bytes show: strings whose bytes
show the same text are the same key.
-/

namespace ScriptCore.Object.Action

/-- The object stored under a name. -/
def dictLookup (r : Ref) (name : String) : Action (Option Ref) := do
  share? ((← entries r).find? name)

/-- Stores an object under a name; what was stored there before is released. -/
def dictInsert (r : Ref) (name : String) (x : Ref) : Action Unit := do
  let entries ← entries r
  let x ← share x
  modify (·.setPayload r (.dict (entries.insert name x)))
  match entries.find? name with
  | some old => release old
  | none => return

/-- Removes what is stored under a name. -/
def dictRemove (r : Ref) (name : String) : Action Unit := do
  let entries ← entries r
  match entries.find? name with
  | some old =>
    modify (·.setPayload r (.dict (entries.erase name)))
    release old
  | none => throw (.unknownName name)

/-- Stores an object under a name, or removes what is stored there. -/
def dictAssign (r : Ref) (name : String) : Option Ref → Action Unit
  | some x => dictInsert r name x
  | none => dictRemove r name

/-- The name that an object stands for as a key. -/
def key (r : Ref) : Action String := do
  if (← typeOf r) = .string then return Utf8.decode (← bytes r)
  else throw .keyNotString

/-- The number of entries of a mapping. -/
def mappingLength (r : Ref) : Action Nat := do
  let t ← typeOf r
  if t = .dict then return (← entries r).size
  else match t.suites? with
    | some suites => return suites.mappingLength
    | none => throw (.unsupported .mapping t)

/-- The object that a mapping has under a key. -/
def subscript (r k : Ref) : Action Ref := do
  let t ← typeOf r
  if t = .dict then
    let name ← key k
    match (← entries r).find? name with
    | some x => share x
    | none => throw (.unknownName name)
  else if t.isMapping then share k
  else throw (.unsupported .mapping t)

/-- Stores an object under a key of a mapping, or removes what is there. -/
def assignSubscript (r k : Ref) (x : Option Ref) : Action Unit := do
  let t ← typeOf r
  if t = .dict then dictAssign r (← key k) x
  else throw (.unsupported (if t.isMapping then .subscriptAssignment else .mapping) t)

end ScriptCore.Object.Action
