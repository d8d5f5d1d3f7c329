import ScriptCore.Bytes
import ScriptCore.NameMap

/-!
# Objects

The objects of the language: integers of 64 bits, byte strings, tuples,
dictionaries with names as keys, functions, native methods, classes, their
members, methods bound to a member, None, and an object for each type. Objects
refer to each other by references into a heap. Other programs may add types of
their own, whose objects are foreign: of these, only what the type declares is
known, and the references that they hold.

An object has a type and a payload, side by side. Operations are chosen by the
type, and each looks into the payload for itself.
-/

namespace ScriptCore

namespace Object

/-- A reference to an object: its number in the order of creation. -/
structure Ref where
  index : Nat
  deriving DecidableEq, Repr

/-- The lengths that a foreign type declares. A type that has them takes part
    in arithmetic, sequence and mapping operations, but refuses all of them
    except the two lengths and the subscript, which answers with its key. -/
structure Suites where
  length : Nat
  mappingLength : Nat
  deriving DecidableEq, Repr

/-- A type declared by another program. Objects of a type that is not freed
    stay for ever. -/
structure ForeignType where
  name : String
  isFreed : Bool := true
  suites : Option Suites := none
  deriving DecidableEq, Repr

/-- The type of foreign objects that only bear a tag. -/
def ForeignType.tagged : ForeignType where
  name := "opaque"

end Object

/-- The types of objects. -/
inductive ObjectType
  | type
  | none
  | integer
  | string
  | tuple
  | dict
  | function
  | method
  | userClass
  | member
  | boundMethod
  | foreign (t : Object.ForeignType)
  deriving DecidableEq, Repr

namespace ObjectType

/-- The name of a type. -/
def name : ObjectType → String
  | type => "type"
  | none => "None"
  | integer => "int"
  | string => "string"
  | tuple => "tuple"
  | dict => "dictionary"
  | function => "function"
  | method => "method"
  | userClass => "class"
  | member => "instance"
  | boundMethod => "instance method"
  | foreign t => t.name

/-- Whether an object is freed when the last reference to it is released. -/
def isFreed : ObjectType → Bool
  | type | none => false
  | foreign t => t.isFreed
  | _ => true

/-- The lengths that a foreign type declares. -/
def suites? : ObjectType → Option Object.Suites
  | foreign t => t.suites
  | _ => Option.none

/-- Whether objects of a type take part in arithmetic. -/
def isNumber (t : ObjectType) : Bool :=
  t = integer ∨ t.suites?.isSome

/-- Whether objects of a type take part in sequence operations. -/
def isSequence (t : ObjectType) : Bool :=
  t = string ∨ t = tuple ∨ t.suites?.isSome

/-- Whether objects of a type take part in mapping operations. -/
def isMapping (t : ObjectType) : Bool :=
  t = dict ∨ t.suites?.isSome

end ObjectType

namespace Object

/-- A native method: a function of the host, by its name there. -/
structure Native where
  symbol : String
  deriving DecidableEq, Repr

/-- What an object holds. -/
inductive Payload
  | none
  | typeObject (t : ObjectType)
  | integer (n : Int64)
  | string (bs : Bytes)
  | tuple (items : List Ref)
  | dict (entries : NameMap Ref)
  | function (code globals : Ref)
  | method (name : String) (native : Native) (receiver : Option Ref)
  | userClass (bases : Option Ref) (methods : Ref)
  | member (cls attributes : Ref)
  | boundMethod (function receiver : Ref)
  /-- What objects of foreign types hold: perhaps a tag, and references. -/
  | foreign (tag : Option String) (items : List Ref)
  deriving DecidableEq

namespace Payload

/-- The references in a payload, in the order they are released. -/
def refs : Payload → List Ref
  | tuple items => items
  | dict entries => entries.values
  | function code globals => [code, globals]
  | method _ _ receiver => receiver.toList
  | userClass bases methods => bases.toList ++ [methods]
  | member cls attributes => [cls, attributes]
  | boundMethod f receiver => [f, receiver]
  | foreign _ items => items
  | _ => []

/-- The number of elements of a string or a tuple; 0 for other payloads. -/
def size : Payload → Nat
  | string bs => bs.length
  | tuple items => items.length
  | _ => 0

/-- The tag of a foreign object that bears one. -/
def tag? : Payload → Option String
  | foreign tag _ => tag
  | _ => Option.none

/-- Whether a payload is of the kind that a type requires. -/
def suits : Payload → ObjectType → Bool
  | none, .none => true
  | typeObject _, .type => true
  | integer _, .integer => true
  | string _, .string => true
  | tuple _, .tuple => true
  | dict _, .dict => true
  | function .., .function => true
  | method .., .method => true
  | userClass .., .userClass => true
  | member .., .member => true
  | boundMethod .., .boundMethod => true
  | foreign .., .foreign _ => true
  | _, _ => false

end Payload

/-- What an object is: a type, and a payload. Either can be had without the
    other, so every operation checks for itself that it finds what it needs. -/
structure Value where
  type : ObjectType
  payload : Payload
  deriving DecidableEq

namespace Value

/-! The objects that there are constructors for: each has a payload that suits
its type. -/

@[match_pattern] abbrev none : Value := ⟨.none, .none⟩

@[match_pattern] abbrev typeObject (t : ObjectType) : Value := ⟨.type, .typeObject t⟩

@[match_pattern] abbrev integer (n : Int64) : Value := ⟨.integer, .integer n⟩

@[match_pattern] abbrev string (bs : Bytes) : Value := ⟨.string, .string bs⟩

@[match_pattern] abbrev tuple (items : List Ref) : Value := ⟨.tuple, .tuple items⟩

@[match_pattern] abbrev dict (entries : NameMap Ref) : Value := ⟨.dict, .dict entries⟩

@[match_pattern] abbrev function (code globals : Ref) : Value :=
  ⟨.function, .function code globals⟩

@[match_pattern] abbrev method (name : String) (native : Native) (receiver : Option Ref) : Value :=
  ⟨.method, .method name native receiver⟩

@[match_pattern] abbrev userClass (bases : Option Ref) (methods : Ref) : Value :=
  ⟨.userClass, .userClass bases methods⟩

@[match_pattern] abbrev member (cls attributes : Ref) : Value := ⟨.member, .member cls attributes⟩

@[match_pattern] abbrev boundMethod (f receiver : Ref) : Value :=
  ⟨.boundMethod, .boundMethod f receiver⟩

@[match_pattern] abbrev foreign (t : ForeignType) (tag : Option String) (items : List Ref) :
    Value :=
  ⟨.foreign t, .foreign tag items⟩

/-- The references that a value holds, in the order they are released. -/
abbrev refs (v : Value) : List Ref := v.payload.refs

/-- The tag of a foreign object that bears one. -/
abbrev tag? (v : Value) : Option String := v.payload.tag?

/-- Whether the payload is of the kind that the type requires. -/
abbrev isSuited (v : Value) : Bool := v.payload.suits v.type

/-- What a value can be: made by one of the constructors, or of a type that its
    payload does not suit. -/
@[elab_as_elim, cases_eliminator]
theorem kinds {motive : Value → Prop} (v : Value)
    (none : motive .none)
    (typeObject : ∀ t, motive (.typeObject t))
    (integer : ∀ n, motive (.integer n))
    (string : ∀ bs, motive (.string bs))
    (tuple : ∀ items, motive (.tuple items))
    (dict : ∀ entries, motive (.dict entries))
    (function : ∀ code globals, motive (.function code globals))
    (method : ∀ name native receiver, motive (.method name native receiver))
    (userClass : ∀ bases methods, motive (.userClass bases methods))
    (member : ∀ cls attributes, motive (.member cls attributes))
    (boundMethod : ∀ f receiver, motive (.boundMethod f receiver))
    (foreign : ∀ t tag items, motive (.foreign t tag items))
    (unsuited : ∀ t p, p.suits t = false → motive ⟨t, p⟩) : motive v := by
  obtain ⟨t, p⟩ := v
  by_cases hs : p.suits t = true
  · unfold Payload.suits at hs
    split at hs
    · exact none
    · exact typeObject _
    · exact integer _
    · exact string _
    · exact tuple _
    · exact dict _
    · exact function _ _
    · exact method _ _ _
    · exact userClass _ _
    · exact member _ _
    · exact boundMethod _ _
    · exact foreign _ _ _
    · cases hs
  · exact unsuited t p (Bool.eq_false_iff.2 hs)

end Value

end Object

end ScriptCore
