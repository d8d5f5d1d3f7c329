import ScriptCore.Object.Class
import ScriptCore.Object.Number
import ScriptCore.Object.Order
import ScriptCore.Object.Rendering
import ScriptCore.Object.Sequence

/-!
# Sessions

A session is a heap with named slots, each of which may hold a reference, and a
host that the native methods are a part of. It performs calls one after the other: a call takes its operands from slots, and
an object that it answers with is put into a slot, or released again. So every
reference in use is held by a slot or by the value of an object.
-/

namespace ScriptCore.Object

/-! ## Calls -/

/-- What makes an object from nothing. -/
inductive Literal
  | integer (n : Int64)
  | string (bs : Bytes)
  | dict
  | none
  | typeObject (t : ObjectType)

/-- What is done with one object. -/
inductive Unary
  /-- A new reference to the object. -/
  | share
  /-- A look at the object, without a new reference. -/
  | look
  /-- The type of the object. -/
  | kind
  /-- The object of its type. -/
  | typeObject
  /-- The name of the type that it is the object of. -/
  | asType
  /-- The tag that it bears. -/
  | tag
  /-- What it is called, without a place in memory. -/
  | title
  | newMember
  | findNative (table : List (String × Native)) (name : String)
  | getAttribute (name : String)
  | repr
  | print (mode : PrintMode) (limit : Option Nat)
  | negative
  | positive
  | length
  | repetition (count : Int)
  | item (index : Nat)
  | slice (low high : Nat)
  | mappingLength
  | integerValue
  | stringLength
  /-- The bytes of a string with a zero after them. -/
  | terminated
  /-- The text that the bytes of a string show. -/
  | decoded
  | tupleItem (index : Nat)
  | tupleLength
  | dictLookup (name : String)
  | dictRemove (name : String)
  | dictSize
  | dictNames
  | functionCode
  | functionGlobals
  | methodReceiver
  | methodName
  | classLookup (name : String)
  | classAttribute (name : String)
  | classMethods
  | classBases
  | memberClass
  | memberAttribute (name : String)
  | boundFunction
  | boundReceiver

/-- What is done with two objects. -/
inductive Binary
  | newFunction
  | newBoundMethod
  | same
  | compare
  | arithmetic (op : Arithmetic)
  | concat
  | subscript
  | dictInsert (name : String)
  | call
  | callUnbound

/-- What is stored in an object, or removed from it. -/
inductive Storing
  | setAttribute (name : String)
  | setMemberAttribute (name : String)
  | assignItem (index : Nat)
  | assignSlice (low high : Nat)

/-- A call, with the slots of its operands. -/
inductive Call
  | make (x : Literal)
  | unary (f : Unary) (a : String)
  | binary (f : Binary) (a b : String)
  | store (f : Storing) (a : String) (x : Option String)
  | storeSubscript (a key : String) (x : Option String)
  | newTuple (items : List String)
  | newForeign (t : ForeignType) (tag : Option String) (items : List String)
  | newClass (bases : Option String) (methods : String)
  | newMethod (name : String) (native : Native) (receiver : Option String)
  /-- Empties a slot. -/
  | release (a : String)
  | stats

/-- What a call answers, where `α` stands for objects. -/
inductive Outcome (α : Type)
  | object (x : α)
  /-- An object that the caller has no reference to. -/
  | seen (x : α)
  | nothing
  | truth (b : Bool)
  | order (o : Ordering)
  | number (n : Nat)
  | integer (n : Int64)
  | text (s : String)
  | names (ns : List String)
  | bytes (bs : Bytes)
  | kind (t : ObjectType)
  | printed (p : Printed)
  | stats (s : Stats)

namespace Outcome

/-- An object, or nothing. -/
def ofOption {α : Type} : Option α → Outcome α
  | some x => .object x
  | none => .nothing

/-- A text, or nothing. -/
def ofText? {α : Type} : Option String → Outcome α
  | some s => .text s
  | none => .nothing

end Outcome

open ScriptCore.Object.Action in
/-- Makes an object from nothing. -/
def Literal.run : Literal → Action Ref
  | integer n => alloc (.integer n)
  | string bs => alloc (.string bs)
  | dict => alloc (.dict .empty)
  | none => shareNone
  | typeObject t => shareType t

open ScriptCore.Object.Action in
/-- Does something with one object. -/
def Unary.run (a : Ref) : Unary → Action (Outcome Ref)
  | share => .object <$> Action.share a
  | look => return .seen a
  | kind => return .kind (← typeOf a)
  | typeObject => return .object (← shareType (← typeOf a))
  | asType => do
    match ← payload a with
    | .typeObject t => return .text t.name
    | _ => return .nothing
  | tag => return .ofText? (← payload a).tag?
  | title => return .text ("<" ++ (← typeOf a).name ++ " object at ")
  | newMember => .object <$> Action.newMember a
  | findNative table name => .object <$> Action.findNative table a name
  | getAttribute name => .object <$> Action.getAttribute a name
  | repr => .object <$> Action.repr a
  | print mode limit => .printed <$> Action.print mode limit a
  | negative => .object <$> Action.negative a
  | positive => .object <$> Action.positive a
  | length => .number <$> Action.length a
  | repetition count => .object <$> Action.repetition a count
  | item index => .object <$> Action.item a index
  | slice low high => .object <$> Action.slice a low high
  | mappingLength => .number <$> Action.mappingLength a
  | integerValue => .integer <$> Action.integer a
  | stringLength => return .number (← Action.bytes a).length
  | terminated => return .bytes ((← Action.bytes a) ++ [0])
  | decoded => return .text (Utf8.decode (← Action.bytes a))
  | tupleItem index => .object <$> Action.tupleItem a index
  | tupleLength => return .number (← items a).length
  | dictLookup name => .ofOption <$> Action.dictLookup a name
  | dictRemove name => do
    Action.dictRemove a name
    return .nothing
  | dictSize => return .number (← entries a).size
  | dictNames => return .names (← entries a).names
  | functionCode => .object <$> Action.functionCode a
  | functionGlobals => .object <$> Action.functionGlobals a
  | methodReceiver => return .ofOption (← share? (← Action.method a).2.2)
  | methodName => return .text (← Action.method a).1
  | classLookup name => .ofOption <$> Action.classLookup a name
  | classAttribute name => .object <$> Action.classAttribute a name
  | classMethods => return .object (← Action.share (← userClass a).2)
  | classBases => return .ofOption (← share? (← userClass a).1)
  | memberClass => return .object (← Action.share (← Action.member a).1)
  | memberAttribute name => .object <$> Action.memberAttribute a name
  | boundFunction => return .object (← Action.share (← boundMethod a).1)
  | boundReceiver => return .object (← Action.share (← boundMethod a).2)

/-- Does something with two objects. -/
def Binary.run (host : Host) (a b : Ref) : Binary → Action (Outcome Ref)
  | newFunction => .object <$> Action.alloc (.function a b)
  | newBoundMethod => .object <$> Action.newBoundMethod a b
  | same => return .truth (a = b)
  | compare => .order <$> Action.compare a b
  | arithmetic op => .object <$> Action.arithmetic op a b
  | concat => .object <$> Action.concat a b
  | subscript => .object <$> Action.subscript a b
  | dictInsert name => do
    Action.dictInsert a name b
    return .nothing
  | call => .object <$> Action.call host a b
  | callUnbound => .object <$> Action.callUnbound host a b

/-- Stores something in an object, or removes it. -/
def Storing.run (a : Ref) (x : Option Ref) : Storing → Action (Outcome Ref)
  | setAttribute name => do
    Action.setAttribute a name x
    return .nothing
  | setMemberAttribute name => do
    Action.setMemberAttribute a name x
    return .nothing
  | assignItem _ => do
    Action.assignItem a
    return .nothing
  | assignSlice _ _ => do
    Action.assignSlice a
    return .nothing

/-! ## Sessions -/

/-- Why a call has no answer: an operand is missing, or the call fails. -/
inductive Failure
  | noSlot (name : String)
  | error (e : Error)
  deriving DecidableEq, Repr

/-- How an object is shown: its type, the number of references to it, its size,
    the slots that hold it, and its value if it is an integer or a string. -/
structure View where
  type : ObjectType
  count : Nat
  size : Nat
  slots : List String
  integer : Option Int64
  string : Option Bytes
  deriving DecidableEq

/-- A heap with named slots, and the host whose native methods can be called. -/
structure Session where
  host : Host
  heap : Heap := {}
  slots : NameMap Ref := .empty

namespace Session

/-- A session where nothing was made yet. -/
def start (host : Host) : Session := { host }

/-- The reference in a slot. -/
def slot (s : Session) (name : String) : Except Failure Ref :=
  match s.slots.find? name with
  | some r => .ok r
  | none => .error (.noSlot name)

/-- The reference in a slot, if one is named. -/
def slot? (s : Session) : Option String → Except Failure (Option Ref)
  | some name => some <$> s.slot name
  | none => .ok none

/-- The action of a call, once its operands are found, in their order. -/
def action (s : Session) : Call → Except Failure (Action (Outcome Ref))
  | .make x => return .object <$> x.run
  | .unary f a => return f.run (← s.slot a)
  | .binary f a b => do
    let a ← s.slot a
    let b ← s.slot b
    return f.run s.host a b
  | .store f a x => do
    let a ← s.slot a
    let x ← s.slot? x
    return f.run a x
  | .storeSubscript a key x => do
    let a ← s.slot a
    let key ← s.slot key
    let x ← s.slot? x
    return do
      Action.assignSubscript a key x
      return .nothing
  | .newTuple items => return .object <$> Action.alloc (.tuple (← items.mapM s.slot))
  | .newForeign t tag items =>
    return .object <$> Action.alloc (.foreign t tag (← items.mapM s.slot))
  | .newClass bases methods => do
    let bases ← s.slot? bases
    let methods ← s.slot methods
    return .object <$> Action.newClass bases methods
  | .newMethod name native receiver => do
    let receiver ← s.slot? receiver
    return .object <$> Action.alloc (.method name native receiver)
  | .release a => do
    let a ← s.slot a
    return do
      Action.release a
      return .nothing
  | .stats => return return .stats (← get).stats

/-- How an object is shown. -/
def view (s : Session) (r : Ref) : View where
  type := match s.heap.value? r with
    | some v => v.type
    | none => .none
  count := s.heap.count r
  size := match s.heap.payload? r with
    | some p => p.size
    | none => 0
  slots := (s.slots.entries.filter (·.2 = r)).map (·.1)
  integer := match s.heap.payload? r with
    | some (.integer n) => some n
    | _ => none
  string := match s.heap.payload? r with
    | some (.string bs) => some bs
    | _ => none

/-- Releases a reference. -/
def drop (s : Session) (r : Ref) : Session :=
  { s with heap := s.heap.release r }

/-- Puts a reference into a slot and then releases what was there. -/
def put (s : Session) (name : String) (r : Ref) : Session :=
  let s' := { s with slots := s.slots.insert name r }
  match s.slots.find? name with
  | some old => s'.drop old
  | none => s'

/-- Empties the slot that a call releases. -/
def empty (s : Session) : Call → Session
  | .release a => { s with slots := s.slots.erase a }
  | _ => s

/-- Shows what a call answers. An object is put into the slot that is meant for
    it before it is shown, or else released after that. -/
def settle (s : Session) (target : Option String) : Outcome Ref → Outcome View × Session
  | .object r => match target with
    | some name =>
      let s := s.put name r
      (.object (s.view r), s)
    | none => (.object (s.view r), s.drop r)
  | .seen r => (.object (s.view r), s)
  | .nothing => (.nothing, s)
  | .truth b => (.truth b, s)
  | .order o => (.order o, s)
  | .number n => (.number n, s)
  | .integer n => (.integer n, s)
  | .text t => (.text t, s)
  | .names ns => (.names ns, s)
  | .bytes bs => (.bytes bs, s)
  | .kind t => (.kind t, s)
  | .printed p => (.printed p, s)
  | .stats x => (.stats x, s)

/-- Performs a call; the tags of the objects that it frees are noted anew. -/
def perform (s : Session) (c : Call) (target : Option String) :
    Except Failure (Outcome View) × Session :=
  let s := { s with heap := { s.heap with freedTags := [] } }
  match s.action c with
  | .error f => (.error f, s)
  | .ok action =>
    match action.perform s.heap with
    | (.error e, heap) => (.error (.error e), { s with heap })
    | (.ok outcome, heap) =>
      let (outcome, s) := ({ s with heap }.empty c).settle target outcome
      (.ok outcome, s)

/-- Performs calls one after the other. -/
def performAll (s : Session) (calls : List (Call × Option String)) : Session :=
  calls.foldl (fun s (c, target) => (s.perform c target).2) s

/-- Releases what the slots hold, in the order of their names. -/
def close (s : Session) : Session where
  host := s.host
  heap := Heap.releaseAll s.slots.values { s.heap with freedTags := [] }

end Session

end ScriptCore.Object
