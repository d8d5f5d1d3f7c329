import ScriptCore.Object.Dictionary
import ScriptCore.Object.Method

/-!
# Classes

A class has a dictionary of methods, and perhaps a tuple of bases. A name is
looked up in its own methods first, and then in those of its bases, from left
to right, each with its own bases before the next.

A member of a class has a dictionary of attributes of its own. A name that is
not there is looked up in the class; if the first thing found is a function,
it is bound to the member, and nothing else is found.
-/

namespace ScriptCore

/-- The first answer that is found in a list. -/
def Heap.findFirst (f : Object.Ref → Except Object.Error (Option Object.Ref)) :
    List Object.Ref → Except Object.Error (Option Object.Ref)
  | [] => .ok none
  | c :: cs =>
    match f c with
    | .ok none => findFirst f cs
    | result => result

/-- What a class has under a name, by at most `n` nested steps. -/
def Heap.classLookupTo (h : Heap) (name : String) :
    Nat → Object.Ref → Except Object.Error (Option Object.Ref)
  | 0, _ => .error .endless
  | n + 1, c =>
    match h.payload? c with
    | some (.userClass bases methods) =>
      match h.payload? methods with
      | some (.dict entries) =>
        match entries.find? name, bases with
        | some r, _ => .ok (some r)
        | none, none => .ok none
        | none, some b =>
          match h.payload? b with
          | some (.tuple items) => findFirst (h.classLookupTo name n) items
          | _ => .error .badCall
      | _ => .error .badCall
    | _ => .error .badCall

/-- What a class has under a name. Bases are older than the classes that have
    them, so there are no more nested steps than objects. -/
def Heap.classLookup (h : Heap) (c : Object.Ref) (name : String) :
    Except Object.Error (Option Object.Ref) :=
  h.classLookupTo name h.depth c

namespace Object.Action

/-- The types of the bases of a class. -/
def baseTypes : Option Ref → Action (List ObjectType)
  | none => return []
  | some bases => do (← items bases).mapM typeOf

/-- A new class; its methods are a dictionary and its bases a tuple of
    classes. -/
def newClass (bases : Option Ref) (methods : Ref) : Action Ref := do
  if (← typeOf methods) = .dict then
    if (← baseTypes bases).all (· = .userClass) then
      let _ ← entries methods
      alloc (.userClass bases methods)
    else throw .badCall
  else throw .badCall

/-- The bases and the methods of a class. -/
def userClass (c : Ref) : Action (Option Ref × Ref) := do
  let .userClass bases methods ← payload c | throw .badCall
  return (bases, methods)

/-- The object that a class has under a name, if there is one. -/
def classLookup (c : Ref) (name : String) : Action (Option Ref) := do
  share? (← ofHeap (·.classLookup c name))

/-- The object that a class has under a name. -/
def classAttribute (c : Ref) (name : String) : Action Ref := do
  match ← ofHeap (·.classLookup c name) with
  | some r => share r
  | none => throw (.unknownName name)

/-- A function bound to a receiver. -/
def newBoundMethod (function receiver : Ref) : Action Ref := do
  if (← typeOf function) = .function then alloc (.boundMethod function receiver)
  else throw .badCall

/-- The function and the receiver of a bound method. -/
def boundMethod (r : Ref) : Action (Ref × Ref) := do
  let .boundMethod function receiver ← payload r | throw .badCall
  return (function, receiver)

/-- A new member of a class, with no attributes of its own. -/
def newMember (c : Ref) : Action Ref := do
  if (← typeOf c) = .userClass then
    let attributes ← alloc (.dict .empty)
    let r ← alloc (.member c attributes)
    release attributes
    return r
  else throw .badCall

/-- The class and the attributes of a member. -/
def member (r : Ref) : Action (Ref × Ref) := do
  let .member c attributes ← payload r | throw .badCall
  return (c, attributes)

/-- An attribute of a member. -/
def memberAttribute (r : Ref) (name : String) : Action Ref := do
  let (c, attributes) ← member r
  match (← entries attributes).find? name with
  | some x => share x
  | none => match ← ofHeap (·.classLookup c name) with
    | none => throw (.unknownName name)
    | some found =>
      if (← typeOf found) = .function then newBoundMethod found r
      else throw (.unknownName name)

/-- Sets an attribute of a member, or removes it. -/
def setMemberAttribute (r : Ref) (name : String) (x : Option Ref) : Action Unit := do
  let (_, attributes) ← member r
  dictAssign attributes name x

/-- An attribute of an object. -/
def getAttribute (r : Ref) (name : String) : Action Ref := do
  match ← typeOf r with
  | .function => functionAttribute r name
  | .userClass => classAttribute r name
  | .member => memberAttribute r name
  | t => throw (.unsupported .attributeLookup t)

/-- Sets an attribute of an object, or removes it. -/
def setAttribute (r : Ref) (name : String) (x : Option Ref) : Action Unit := do
  let t ← typeOf r
  if t = .member then setMemberAttribute r name x
  else throw (.unsupported .attributeAssignment t)

end Object.Action

end ScriptCore
