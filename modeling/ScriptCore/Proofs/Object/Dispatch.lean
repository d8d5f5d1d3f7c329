import Mathlib
import ScriptCore.Proofs.Object.Member
import ScriptCore.Proofs.Object.Order

/-!
# Generic operations

The generic operations work on objects of all types. What an object holds is what its type
requires, so whether an operation is refused depends on the types of its operands alone, and the
refusal names the operation and the types. Where it is not refused it may fail for other
reasons, but no function ever comes by an object that it is not meant for.

* `Heap.Holds`: what objects of a type have to hold.
* `Action.failure?_repr_of_unsuited`: an object that holds something else is not shown.
* `Dispatch`: the generic operations, with their operands.
* `Dispatch.refusal?`: the refusal of an operation, given the types of its operands.
* `Dispatch.meets_refusal?`: an operation fails with its refusal, or for another reason.
* `Session.dispatch_by_type`: this holds after any calls.
-/

namespace ScriptCore

open Object

/-! ## What objects hold -/

/-- What objects of a type have to hold. -/
def Heap.Holds (h : Heap) (t : ObjectType) (p : Payload) : Prop :=
  match t with
  | .type => ∃ t, p = .typeObject t
  | .none => p = .none
  | .integer => ∃ n, p = .integer n
  | .string => ∃ bs, p = .string bs
  | .tuple => ∃ items, p = .tuple items
  | .dict => ∃ entries, p = .dict entries
  | .function => ∃ code globals, p = .function code globals
  | .method => ∃ name native receiver, p = .method name native receiver
  | .userClass => ∃ bases methods, p = .userClass bases methods ∧ h.HasType methods .dict ∧
    ∀ b ∈ bases, ∃ items, h.value? b = some (.tuple items) ∧ ∀ x ∈ items, h.HasType x .userClass
  | .member => ∃ c attributes, p = .member c attributes ∧ h.HasType c .userClass ∧
    h.HasType attributes .dict
  | .boundMethod => ∃ f receiver, p = .boundMethod f receiver ∧ h.HasType f .function
  | .foreign _ => ∃ tag items, p = .foreign tag items

theorem Object.Account.Sound.holds {h : Heap} {held : Multiset Ref} (ha : Sound ⟨h, held⟩)
    {r : Ref} {v : Value} (hv : h.value? r = some v) : h.Holds v.type v.payload := by
  have hfits := ha.fits r v hv
  cases v with
  | none => rfl
  | typeObject | integer | string | tuple | dict => exact ⟨_, rfl⟩
  | function | foreign => exact ⟨_, _, rfl⟩
  | method => exact ⟨_, _, _, rfl⟩
  | userClass | member | boundMethod => exact ⟨_, _, rfl, hfits⟩
  | unsuited t p hp => exact absurd hfits.isSuited (Bool.eq_false_iff.1 hp)

theorem Object.Account.Sound.exists_holds {h : Heap} {held : Multiset Ref}
    (ha : Sound ⟨h, held⟩) {r : Ref} {t : ObjectType} (hr : h.HasType r t) :
    ∃ p, h.value? r = some ⟨t, p⟩ ∧ h.Holds t p := by
  obtain ⟨⟨_, p⟩, hv, rfl⟩ := hr
  exact ⟨p, hv, ha.holds hv⟩

/-! ## Generic operations -/

namespace ObjectType

/-- Whether the attributes of objects of a type can be looked up. -/
def hasAttributes : ObjectType → Bool
  | function | userClass | member => true
  | _ => false

/-- Whether objects of a type can be shown and printed. -/
def isShown : ObjectType → Bool
  | type | none | integer | string | tuple | dict | method => true
  | _ => false

/-- Whether objects of a type have elements. -/
def hasElements : ObjectType → Bool
  | string | tuple => true
  | _ => false

end ObjectType

namespace Object

/-- Whether an error says that a function was given an object that it is not meant for. -/
def Error.isMisuse : Error → Bool
  | badCall | badArgument => true
  | _ => false

/-- Why an action fails on a heap, if it does. -/
def Action.failure? {α : Type} (h : Heap) (x : Action α) : Option Error :=
  match (x.perform h).1 with
  | .ok _ => none
  | .error e => some e

/-- The error that objects of a type do not support an operation, unless they do. -/
def requires (supported : Bool) (op : Operation) (t : ObjectType) : Option Error :=
  if supported then none else some (.unsupported op t)

/-- Whether an operation fails with its refusal, if there is one, or else for no reason that is
    about what functions are meant for. -/
def Meets (refusal failure : Option Error) : Prop :=
  match refusal with
  | some e => failure = some e
  | none => ∀ e ∈ failure, e.isMisuse = false

/-- The operations on objects of all types. -/
inductive Dispatch
  | getAttribute (a : Ref) (name : String)
  | setAttribute (a : Ref) (name : String) (x : Option Ref)
  | compare (a b : Ref)
  | repr (a : Ref)
  | print (mode : PrintMode) (limit : Option Nat) (a : Ref)
  | arithmetic (op : Arithmetic) (a b : Ref)
  | negative (a : Ref)
  | positive (a : Ref)
  | length (a : Ref)
  | concat (a b : Ref)
  | repetition (a : Ref) (count : Int)
  | item (a : Ref) (index : Nat)
  | slice (a : Ref) (low high : Nat)
  | assignItem (a : Ref)
  | assignSlice (a : Ref)
  | mappingLength (a : Ref)
  | subscript (a key : Ref)
  | assignSubscript (a key : Ref) (x : Option Ref)

namespace Dispatch

/-- The objects that an operation looks at. -/
def operands : Dispatch → List Ref
  | compare a b | arithmetic _ a b | concat a b | subscript a b | assignSubscript a b _ => [a, b]
  | getAttribute a _ | setAttribute a _ _ | repr a | print _ _ a | negative a | positive a
  | length a | repetition a _ | item a _ | slice a _ _ | assignItem a | assignSlice a
  | mappingLength a => [a]

open ScriptCore.Object.Action in
/-- Why an operation fails on a heap, if it does; printing tells its error with the bytes that
    were written. -/
def failure? (h : Heap) : Dispatch → Option Error
  | getAttribute a name => (Action.getAttribute a name).failure? h
  | setAttribute a name x => (Action.setAttribute a name x).failure? h
  | compare a b => (Action.compare a b).failure? h
  | repr a => (Action.repr a).failure? h
  | print mode limit a => match ((Action.print mode limit a).perform h).1 with
    | .ok p => p.error
    | .error e => some e
  | arithmetic op a b => (Action.arithmetic op a b).failure? h
  | negative a => (Action.negative a).failure? h
  | positive a => (Action.positive a).failure? h
  | length a => (Action.length a).failure? h
  | concat a b => (Action.concat a b).failure? h
  | repetition a count => (Action.repetition a count).failure? h
  | item a index => (Action.item a index).failure? h
  | slice a low high => (Action.slice a low high).failure? h
  | assignItem a => (Action.assignItem a).failure? h
  | assignSlice a => (Action.assignSlice a).failure? h
  | mappingLength a => (Action.mappingLength a).failure? h
  | subscript a key => (Action.subscript a key).failure? h
  | assignSubscript a key x => (Action.assignSubscript a key x).failure? h

/-- The refusal of an operation, given the types of its operands. -/
def refusal? (types : Ref → ObjectType) : Dispatch → Option Error
  | getAttribute a _ => requires (types a).hasAttributes .attributeLookup (types a)
  | setAttribute a _ _ => requires (types a = .member) .attributeAssignment (types a)
  | compare a b =>
    if a = b then none
    else if types a = types b then requires (types a).isOrdered .comparison (types a)
    else some (.incomparable (types a) (types b))
  | repr a => requires (types a).isShown .repr (types a)
  | print _ _ a => requires (types a).isShown .print (types a)
  | arithmetic op a b => (requires (types a).isNumber .arithmetic (types a)).or
    (if types a = .integer ∧ types b = .integer then none
      else some (.unsupportedPair op.pairOperation (types a) (types b)))
  | negative a => (requires (types a).isNumber .arithmetic (types a)).or
    (requires (types a = .integer) .negation (types a))
  | positive a => (requires (types a).isNumber .arithmetic (types a)).or
    (requires (types a = .integer) .plus (types a))
  | length a => requires (types a).isSequence .sequence (types a)
  | concat a b => (requires (types a).isSequence .sequence (types a)).or
    (if (types a).hasElements then if types a = types b then none else some .badArgument
      else some (.unsupportedPair .concat (types a) (types b)))
  | repetition a _ => (requires (types a).isSequence .sequence (types a)).or
    (requires (types a).hasElements .repetition (types a))
  | item a _ => (requires (types a).isSequence .sequence (types a)).or
    (requires (types a).hasElements .indexing (types a))
  | slice a _ _ => (requires (types a).isSequence .sequence (types a)).or
    (requires (types a).hasElements .slicing (types a))
  | assignItem a => (requires (types a).isSequence .sequence (types a)).or
    (requires false .itemAssignment (types a))
  | assignSlice a => (requires (types a).isSequence .sequence (types a)).or
    (requires false .sliceAssignment (types a))
  | mappingLength a => requires (types a).isMapping .mapping (types a)
  | subscript a key => (requires (types a).isMapping .mapping (types a)).or
    (if types a = .dict ∧ types key ≠ .string then some .keyNotString else none)
  | assignSubscript a key _ => (requires (types a).isMapping .mapping (types a)).or
    (if types a = .dict then if types key = .string then none else some .keyNotString
      else requires false .subscriptAssignment (types a))

/-- Whether an operation is to join a string or a tuple with an object of another type. -/
def JoinsUnlike (types : Ref → ObjectType) : Dispatch → Prop
  | concat a b => (types a = .string ∨ types a = .tuple) ∧ types b ≠ types a
  | _ => False

end Dispatch

/-! ## Failures of actions -/

namespace Action

variable {α β : Type} {h : Heap} {held : Multiset Ref} {r k x y : Ref} {t u : ObjectType}
  {p q : Payload} {name : String} {refusal : Option Error}

theorem failure?_of_ok {x : Action α} {a : α} {h' : Heap} (hx : x.perform h = (.ok a, h')) :
    x.failure? h = none := by
  rw [failure?, hx]

theorem failure?_of_error {x : Action α} {e : Error} {h' : Heap}
    (hx : x.perform h = (.error e, h')) : x.failure? h = some e := by
  rw [failure?, hx]

theorem failure?_bind_of_ok {x : Action α} {f : α → Action β} {a : α} {h' : Heap}
    (hx : x.perform h = (.ok a, h')) : (x >>= f).failure? h = (f a).failure? h' := by
  rw [failure?, perform_bind_of_ok hx, failure?]

theorem failure?_bind_of_error {x : Action α} {f : α → Action β} {e : Error} {h' : Heap}
    (hx : x.perform h = (.error e, h')) : (x >>= f).failure? h = some e :=
  failure?_of_error (perform_bind_of_error hx)

/-- An action that goes on with the type of an object. -/
theorem failure?_typeOf_bind {f : ObjectType → Action β} (hv : h.value? r = some ⟨t, p⟩) :
    (typeOf r >>= f).failure? h = (f t).failure? h :=
  failure?_bind_of_ok (perform_typeOf hv)

theorem meets_none_none : Meets none none := fun e he => absurd he (Option.not_mem_none e)

theorem meets_none_some {e : Error} (he : e.isMisuse = false) : Meets none (some e) := by
  rintro _ ⟨⟩
  exact he

theorem meets_none_of_ok {x : Action α} {a : α} {h' : Heap} (hx : x.perform h = (.ok a, h')) :
    Meets none (x.failure? h) := by
  rw [failure?_of_ok hx]
  exact meets_none_none

theorem meets_none_of_error {x : Action α} {e : Error} {h' : Heap}
    (hx : x.perform h = (.error e, h')) (he : e.isMisuse = false) : Meets none (x.failure? h) := by
  rw [failure?_of_error hx]
  exact meets_none_some he

theorem meets_none_ite {p : Prop} [Decidable p] {x y : Action α} (hx : Meets none (x.failure? h))
    (hy : Meets none (y.failure? h)) : Meets none ((if p then x else y).failure? h) := by
  split
  · exact hx
  · exact hy

/-! ### Attributes -/

theorem meets_getAttribute (ha : Account.Sound ⟨h, held⟩) (hv : h.value? r = some ⟨t, p⟩) :
    Meets (requires t.hasAttributes .attributeLookup t) ((getAttribute r name).failure? h) := by
  have hp := ha.holds hv
  rw [getAttribute, failure?_typeOf_bind hv]
  cases t with
  | function =>
    obtain ⟨code, globals, rfl⟩ := hp
    have hf : (function r).perform h = (.ok (code, globals), h) := perform_payload_bind hv
    refine meets_none_ite ?_ (meets_none_ite ?_ (meets_none_some rfl))
    · rw [functionCode, failure?_bind_of_ok hf]
      exact meets_none_none
    · rw [functionGlobals, failure?_bind_of_ok hf]
      exact meets_none_none
  | userClass =>
    obtain ⟨found, hfound, -⟩ := ha.exists_classLookup_eq ⟨_, hv, rfl⟩ name
    have hlookup : (ofHeap (·.classLookup r name)).perform h = (.ok found, h) := by
      rw [perform_ofHeap, hfound]
    show Meets none ((classAttribute r name).failure? h)
    rw [classAttribute, failure?_bind_of_ok hlookup]
    cases found with
    | some f => exact meets_none_none
    | none => exact meets_none_some rfl
  | member =>
    obtain ⟨c, d, rfl, -⟩ := hp
    have hm : (memberAttribute r name).perform h = (h.attributeOf r name).answer h r name :=
      ha.perform_memberAttribute hv
    show Meets none ((memberAttribute r name).failure? h)
    cases hattribute : h.attributeOf r name with
    | own | bound => exact meets_none_of_ok (hattribute ▸ hm)
    | missing => exact meets_none_of_error (hattribute ▸ hm) rfl
  | _ => rfl

theorem meets_dictAssign {entries : NameMap Ref} (hd : h.value? r = some (.dict entries))
    (content : Option Ref) : Meets none ((dictAssign r name content).failure? h) := by
  have hassign := perform_dictAssign name content hd
  split at hassign
  · exact meets_none_of_error hassign rfl
  · exact meets_none_of_ok hassign

theorem meets_setAttribute (ha : Account.Sound ⟨h, held⟩) (hv : h.value? r = some ⟨t, p⟩)
    (content : Option Ref) :
    Meets (requires (t = .member) .attributeAssignment t)
      ((setAttribute r name content).failure? h) := by
  by_cases ht : t = .member
  · subst ht
    obtain ⟨c, d, rfl, -⟩ := ha.holds hv
    obtain ⟨entries, hd⟩ := ha.exists_attributes hv
    rw [failure?, perform_setAttribute name content hv]
    exact meets_dictAssign hd content
  · rw [failure?_of_error (perform_setAttribute_of_ne hv ht content), requires, decide_eq_false ht]
    rfl

/-! ### Comparing -/

theorem meets_compare (ha : Account.Sound ⟨h, held⟩) (hx : h.value? x = some ⟨t, p⟩)
    (hy : h.value? y = some ⟨u, q⟩) :
    Meets (if x = y then none
      else if t = u then requires t.isOrdered .comparison t
      else some (.incomparable t u)) ((compare x y).failure? h) := by
  have hp : (compare x y).perform h = (h.compare x y, h) := perform_ofHeap _ h
  have hanswer : Meets none ((compare x y).failure? h) := by
    rw [failure?, hp]
    cases hc : h.compare x y with
    | ok o => exact meets_none_none
    | error e =>
      have htype := ha.isTypeError_of_compare (Heap.live_of_value? hx) (Heap.live_of_value? hy) hc
      refine meets_none_some ?_
      cases e <;> first | rfl | cases htype
  cases ha.paired.comparison x y with
  | same hxy =>
    rw [if_pos hxy]
    exact hanswer
  | integers hx' hy' | strings hx' hy' | tuples hx' hy' =>
    cases hx.symm.trans hx'
    cases hy.symm.trans hy'
    split
    · exact hanswer
    · exact hanswer
  | apart hxy ht =>
    rw [h.compare_of_apart hxy ht, Heap.comparisonError, hx, hy] at hp
    rw [if_neg hxy, failure?_of_error hp]
    dsimp only
    split
    · next htype =>
      have hordered : t.isOrdered = false :=
        Bool.eq_false_iff.2 fun ho => ht t ho ⟨_, hx, rfl⟩ ⟨_, hy, htype.symm⟩
      rw [hordered]
      rfl
    · rfl

/-! ### Numbers -/

theorem meets_none_ofInteger {result : Except Error Int64}
    (he : ∀ e, result = .error e → e.isMisuse = false) :
    Meets none ((ofInteger result).failure? h) := by
  unfold ofInteger
  cases result with
  | ok n => exact meets_none_none
  | error e => exact meets_none_some (he e rfl)

theorem isMisuse_of_fit {excess : Excess} {n : Int} {e : Error}
    (he : Arithmetic.fit excess n = .error e) : e.isMisuse = false := by
  unfold Arithmetic.fit at he
  split at he
  · cases he
  · cases he
    rfl

theorem isMisuse_of_eval {op : Arithmetic} {m n : Int64} {e : Error}
    (he : op.eval m n = .error e) : e.isMisuse = false := by
  cases op with
  | add | sub | mul => exact isMisuse_of_fit he
  | div =>
    rw [Arithmetic.eval, Arithmetic.quotient] at he
    split at he
    · cases he
      rfl
    · cases hq : Arithmetic.truncatedQuotient m n with
      | ok q =>
        rw [hq] at he
        cases he
      | error e' =>
        rw [hq] at he
        cases he
        exact isMisuse_of_fit hq
  | rem =>
    rw [Arithmetic.eval, Arithmetic.remainder] at he
    split at he
    · cases he
      rfl
    · cases he
  | pow =>
    rw [Arithmetic.eval] at he
    split at he
    · cases he
      rfl
    · split at he
      · cases he
        rfl
      · split at he
        · cases he
        · cases he
          rfl

/-- What a type has that is not asked for is refused, and so is what it has not. -/
theorem meets_or {x : Action α} {supported : Bool} {op : Operation} {t : ObjectType}
    (hx : supported = true → Meets refusal (x.failure? h)) :
    Meets ((requires supported op t).or refusal)
      ((if supported then x else throw (.unsupported op t)).failure? h) := by
  cases supported with
  | false => rfl
  | true => exact hx rfl

theorem meets_arithmetic {op : Arithmetic} (hx : h.value? x = some ⟨t, p⟩) (hp : h.Holds t p)
    (hy : h.value? y = some ⟨u, q⟩) (hq : h.Holds u q) :
    Meets ((requires t.isNumber .arithmetic t).or
      (if t = .integer ∧ u = .integer then none
        else some (.unsupportedPair op.pairOperation t u)))
      ((arithmetic op x y).failure? h) := by
  rw [arithmetic, failure?_typeOf_bind hx]
  cases t with
  | integer =>
    obtain ⟨m, rfl⟩ := hp
    rw [if_pos rfl, failure?_typeOf_bind hy]
    cases u with
    | integer =>
      obtain ⟨n, rfl⟩ := hq
      rw [if_pos rfl, failure?_bind_of_ok (perform_integer hx),
        failure?_bind_of_ok (perform_integer hy)]
      exact meets_none_ofInteger fun e => isMisuse_of_eval
    | _ => rfl
  | foreign t => exact meets_or fun _ => failure?_typeOf_bind hy
  | _ => rfl

theorem meets_negative (hx : h.value? x = some ⟨t, p⟩) (hp : h.Holds t p) :
    Meets ((requires t.isNumber .arithmetic t).or (requires (t = .integer) .negation t))
      ((negative x).failure? h) := by
  rw [negative, failure?_typeOf_bind hx]
  cases t with
  | integer =>
    obtain ⟨m, rfl⟩ := hp
    rw [if_pos rfl, failure?_bind_of_ok (perform_integer hx)]
    exact meets_none_ofInteger fun e => isMisuse_of_fit
  | foreign t => exact meets_or fun _ => rfl
  | _ => rfl

theorem meets_positive (hx : h.value? x = some ⟨t, p⟩) (hp : h.Holds t p) :
    Meets ((requires t.isNumber .arithmetic t).or (requires (t = .integer) .plus t))
      ((positive x).failure? h) := by
  rw [positive, failure?_typeOf_bind hx]
  cases t with
  | integer =>
    obtain ⟨m, rfl⟩ := hp
    rw [if_pos rfl, failure?_bind_of_ok (perform_integer hx)]
    exact meets_none_none
  | foreign t => exact meets_or fun _ => rfl
  | _ => rfl

/-! ### Sequences -/

theorem meets_refuseSequence (op : Operation) (t : ObjectType) :
    Meets ((requires t.isSequence .sequence t).or (requires false op t))
      ((refuseSequence op t : Action α).failure? h) := by
  unfold refuseSequence
  cases t.isSequence <;> rfl

theorem meets_length (hv : h.value? r = some ⟨t, p⟩) (hp : h.Holds t p) :
    Meets (requires t.isSequence .sequence t) ((length r).failure? h) := by
  rw [length, failure?_typeOf_bind hv]
  cases t with
  | string =>
    obtain ⟨bs, rfl⟩ := hp
    dsimp only
    rw [failure?_bind_of_ok (perform_bytes hv)]
    exact meets_none_none
  | tuple =>
    obtain ⟨is, rfl⟩ := hp
    dsimp only
    rw [failure?_bind_of_ok (perform_items hv)]
    exact meets_none_none
  | foreign t =>
    obtain ⟨name, isFreed, _ | suites⟩ := t
    · rfl
    · exact meets_none_none
  | _ => rfl

theorem meets_concat (hx : h.value? x = some ⟨t, p⟩) (hp : h.Holds t p)
    (hy : h.value? y = some ⟨u, q⟩) (hq : h.Holds u q) :
    Meets ((requires t.isSequence .sequence t).or
      (if t.hasElements then if t = u then none else some .badArgument
        else some (.unsupportedPair .concat t u)))
      ((concat x y).failure? h) := by
  rw [concat, failure?_typeOf_bind hx]
  cases t with
  | string =>
    obtain ⟨bs, rfl⟩ := hp
    dsimp only
    rw [failure?_typeOf_bind hy]
    cases u with
    | string =>
      obtain ⟨bs', rfl⟩ := hq
      show Meets none (failure? h (if ObjectType.string = .string then _ else _))
      rw [if_pos rfl, failure?_bind_of_ok (perform_bytes hx),
        failure?_bind_of_ok (perform_bytes hy)]
      exact meets_none_ite meets_none_none (meets_none_ite meets_none_none meets_none_none)
    | _ => rfl
  | tuple =>
    obtain ⟨is, rfl⟩ := hp
    dsimp only
    rw [failure?_typeOf_bind hy]
    cases u with
    | tuple =>
      obtain ⟨is', rfl⟩ := hq
      show Meets none (failure? h (if ObjectType.tuple = .tuple then _ else _))
      rw [if_pos rfl, failure?_bind_of_ok (perform_items hx),
        failure?_bind_of_ok (perform_items hy)]
      exact meets_none_none
    | _ => rfl
  | foreign t => exact meets_or fun _ => failure?_typeOf_bind hy
  | _ => rfl

theorem meets_repetition (hv : h.value? r = some ⟨t, p⟩) (hp : h.Holds t p) (count : Int) :
    Meets ((requires t.isSequence .sequence t).or (requires t.hasElements .repetition t))
      ((repetition r count).failure? h) := by
  rw [repetition, failure?_typeOf_bind hv]
  cases t with
  | string =>
    obtain ⟨bs, rfl⟩ := hp
    dsimp only
    rw [failure?_bind_of_ok (perform_bytes hv)]
    exact meets_none_ite meets_none_none (meets_none_ite (meets_none_some rfl) meets_none_none)
  | tuple =>
    obtain ⟨is, rfl⟩ := hp
    dsimp only
    rw [failure?_bind_of_ok (perform_items hv)]
    exact meets_none_ite meets_none_none (meets_none_ite (meets_none_some rfl) meets_none_none)
  | foreign t => exact meets_refuseSequence .repetition _
  | _ => rfl

theorem meets_slice (hv : h.value? r = some ⟨t, p⟩) (hp : h.Holds t p) (low high : Nat) :
    Meets ((requires t.isSequence .sequence t).or (requires t.hasElements .slicing t))
      ((slice r low high).failure? h) := by
  rw [slice, failure?_typeOf_bind hv]
  cases t with
  | string =>
    obtain ⟨bs, rfl⟩ := hp
    dsimp only
    rw [failure?_bind_of_ok (perform_bytes hv)]
    exact meets_none_ite meets_none_none meets_none_none
  | tuple =>
    obtain ⟨is, rfl⟩ := hp
    dsimp only
    rw [failure?_bind_of_ok (perform_items hv)]
    exact meets_none_ite meets_none_none meets_none_none
  | foreign t => exact meets_refuseSequence .slicing _
  | _ => rfl

theorem meets_item (hv : h.value? r = some ⟨t, p⟩) (hp : h.Holds t p) (index : Nat) :
    Meets ((requires t.isSequence .sequence t).or (requires t.hasElements .indexing t))
      ((item r index).failure? h) := by
  rw [item, failure?_typeOf_bind hv]
  cases t with
  | string =>
    have hslice := meets_slice hv hp index (index + 1)
    obtain ⟨bs, rfl⟩ := hp
    dsimp only
    rw [failure?_bind_of_ok (perform_bytes hv)]
    exact meets_none_ite hslice (meets_none_some rfl)
  | tuple =>
    obtain ⟨is, rfl⟩ := hp
    show Meets none ((tupleItem r index).failure? h)
    rw [tupleItem, failure?_bind_of_ok (perform_items hv)]
    split
    · exact meets_none_none
    · exact meets_none_some rfl
  | foreign t => exact meets_refuseSequence .indexing _
  | _ => rfl

theorem meets_assignItem (hv : h.value? r = some ⟨t, p⟩) :
    Meets ((requires t.isSequence .sequence t).or (requires false .itemAssignment t))
      ((assignItem r).failure? h) := by
  rw [assignItem, failure?_typeOf_bind hv]
  exact meets_refuseSequence .itemAssignment t

theorem meets_assignSlice (hv : h.value? r = some ⟨t, p⟩) :
    Meets ((requires t.isSequence .sequence t).or (requires false .sliceAssignment t))
      ((assignSlice r).failure? h) := by
  rw [assignSlice, failure?_typeOf_bind hv]
  exact meets_refuseSequence .sliceAssignment t

/-! ### Mappings -/

theorem meets_mappingLength (hv : h.value? r = some ⟨t, p⟩) (hp : h.Holds t p) :
    Meets (requires t.isMapping .mapping t) ((mappingLength r).failure? h) := by
  rw [mappingLength, failure?_typeOf_bind hv]
  cases t with
  | dict =>
    obtain ⟨es, rfl⟩ := hp
    rw [if_pos rfl, failure?_bind_of_ok (perform_entries hv)]
    exact meets_none_none
  | foreign t =>
    obtain ⟨name, isFreed, _ | suites⟩ := t
    · rfl
    · exact meets_none_none
  | _ => rfl

theorem meets_subscript (hv : h.value? r = some ⟨t, p⟩) (hp : h.Holds t p)
    (hk : h.value? k = some ⟨u, q⟩) (hq : h.Holds u q) :
    Meets ((requires t.isMapping .mapping t).or
      (if t = .dict ∧ u ≠ .string then some .keyNotString else none))
      ((subscript r k).failure? h) := by
  rw [subscript, failure?_typeOf_bind hv]
  cases t with
  | dict =>
    obtain ⟨es, rfl⟩ := hp
    rw [if_pos rfl]
    cases u with
    | string =>
      obtain ⟨bs, rfl⟩ := hq
      rw [failure?_bind_of_ok (perform_key hk), failure?_bind_of_ok (perform_entries hv)]
      show Meets none (failure? h _)
      split
      · exact meets_none_none
      · exact meets_none_some rfl
    | _ => exact failure?_bind_of_error (perform_key_of_ne hk fun heq => by cases heq)
  | foreign t => exact meets_or fun _ => meets_none_none
  | _ => rfl

theorem meets_assignSubscript (hv : h.value? r = some ⟨t, p⟩) (hp : h.Holds t p)
    (hk : h.value? k = some ⟨u, q⟩) (hq : h.Holds u q) (content : Option Ref) :
    Meets ((requires t.isMapping .mapping t).or
      (if t = .dict then if u = .string then none else some .keyNotString
        else requires false .subscriptAssignment t))
      ((assignSubscript r k content).failure? h) := by
  rw [assignSubscript, failure?_typeOf_bind hv]
  cases t with
  | dict =>
    obtain ⟨es, rfl⟩ := hp
    cases u with
    | string =>
      obtain ⟨bs, rfl⟩ := hq
      show Meets none (failure? h (if ObjectType.dict = .dict then _ else _))
      rw [if_pos rfl, failure?_bind_of_ok (perform_key hk)]
      exact meets_dictAssign hv content
    | _ => exact failure?_bind_of_error (perform_key_of_ne hk fun heq => by cases heq)
  | foreign t => obtain ⟨name, isFreed, _ | suites⟩ := t <;> rfl
  | _ => rfl

/-! ### Showing -/

/-- An action that goes on after an answer. -/
theorem meets_bind {x : Action α} {f : α → Action β} (hx : Meets refusal (x.failure? h))
    (hf : ∀ a h', x.perform h = (.ok a, h') → Meets none ((f a).failure? h')) :
    Meets refusal ((x >>= f).failure? h) := by
  rcases hp : x.perform h with ⟨e | a, h'⟩
  · rw [failure?_of_error hp] at hx
    rwa [failure?_bind_of_error hp]
  · rw [failure?_of_ok hp] at hx
    rw [failure?_bind_of_ok hp]
    cases refusal with
    | none => exact hf a h' hp
    | some e => cases hx

theorem meets_mapM {γ : Type} {x : γ → Action α} (is : List γ) (hs : ∀ i ∈ is, Spends (x i))
    (hx : ∀ i ∈ is, ∀ m, Meets none ((x i).failure? (h.spent m))) (m : Nat) :
    Meets none ((is.mapM x).failure? (h.spent m)) := by
  induction is generalizing m with
  | nil => exact meets_none_none
  | cons i is ih =>
    obtain ⟨hsi, hs⟩ := List.forall_mem_cons.1 hs
    obtain ⟨hxi, hx⟩ := List.forall_mem_cons.1 hx
    rw [List.mapM_cons]
    refine meets_bind (hxi m) fun a h' hp => ?_
    obtain ⟨result, n, hp'⟩ := hsi (h.spent m)
    cases hp.symm.trans hp'
    rw [Heap.spent_spent]
    exact meets_bind (ih hs hx (m + n)) fun _ _ _ => meets_none_none

theorem meets_textTo_succ (ha : Account.Sound ⟨h, held⟩) (hv : h.value? r = some ⟨t, p⟩) {n : Nat}
    (hitems : ∀ x ∈ p.refs, ∀ m, Meets none ((textTo n x).failure? (h.spent m))) (m : Nat) :
    Meets (requires t.isShown .repr t) ((textTo (n + 1) r).failure? (h.spent m)) := by
  have hv' : (h.spent m).value? r = some ⟨t, p⟩ := by rwa [Heap.value?_spent]
  have hitem : ∀ x ∈ p.refs, ∀ m, Meets none ((itemText n x).failure? (h.spent m)) :=
    fun x hx m => meets_bind (hitems x hx m) fun text h' _ =>
      meets_none_of_ok (perform_string text h')
  have hp := ha.holds hv
  rw [textTo, failure?_typeOf_bind hv']
  cases t with
  | tuple =>
    obtain ⟨is, rfl⟩ := hp
    dsimp only
    rw [failure?_bind_of_ok (perform_items hv')]
    have hm := meets_mapM is (fun x _ => spends_itemText n x) hitem m
    exact meets_bind hm fun _ _ _ => meets_none_none
  | dict =>
    obtain ⟨es, rfl⟩ := hp
    dsimp only
    rw [failure?_bind_of_ok (perform_entries hv')]
    have hm := meets_mapM es.values (fun x _ => spends_itemText n x) hitem m
    exact meets_bind hm fun _ _ _ => meets_none_none
  | type =>
    obtain ⟨t, rfl⟩ := hp
    dsimp only
    rw [failure?_bind_of_ok (perform_typeObject hv')]
    exact meets_none_none
  | none => exact meets_none_none
  | integer =>
    obtain ⟨i, rfl⟩ := hp
    dsimp only
    rw [failure?_bind_of_ok (perform_integer hv')]
    exact meets_none_none
  | string =>
    obtain ⟨bs, rfl⟩ := hp
    dsimp only
    rw [failure?_bind_of_ok (perform_bytes hv')]
    exact meets_none_none
  | method =>
    obtain ⟨name, native, receiver, rfl⟩ := hp
    have hmethod : (method r).perform (h.spent m) = (.ok (name, native, receiver), h.spent m) :=
      perform_payload_bind hv'
    show Meets none ((nativeText r).failure? (h.spent m))
    rw [nativeText, failure?_bind_of_ok hmethod]
    cases receiver with
    | none => exact meets_none_none
    | some x =>
      have hlive : h.Live x := ha.live_of_mem_refs hv (List.mem_singleton_self x)
      obtain ⟨w, hw⟩ := Heap.live_iff_value?.1 hlive
      have hw' : (h.spent m).value? x = some w := by rwa [Heap.value?_spent]
      exact meets_none_of_ok (perform_typeOf_bind hw')
  | _ => rfl

theorem meets_textTo (ha : Account.Sound ⟨h, held⟩) (n : Nat) (hr : h.Live r) (m : Nat) :
    Meets none ((textTo n r).failure? (h.spent m)) := by
  induction n generalizing r m with
  | zero => exact meets_none_some rfl
  | succ n ih =>
    obtain ⟨⟨t, p⟩, hv⟩ := Heap.live_iff_value?.1 hr
    have hm := meets_textTo_succ ha hv (fun x hx => ih (ha.live_of_mem_refs hv hx)) m
    unfold requires at hm
    split at hm
    · exact hm
    · rw [hm]
      exact meets_none_some rfl

theorem meets_text (ha : Account.Sound ⟨h, held⟩) (hv : h.value? r = some ⟨t, p⟩) :
    Meets (requires t.isShown .repr t) ((text r).failure? h) := by
  have hm := meets_textTo_succ ha hv
    (fun x hx => meets_textTo ha h.cells.size (ha.live_of_mem_refs hv hx)) 0
  rwa [Heap.spent_zero] at hm

theorem meets_repr (ha : Account.Sound ⟨h, held⟩) (hv : h.value? r = some ⟨t, p⟩) :
    Meets (requires t.isShown .repr t) ((repr r).failure? h) :=
  meets_bind (meets_text ha hv) fun _ _ _ => meets_none_none

/-- The type of an object alone does not let it be shown: its payload is looked at, too. -/
theorem failure?_repr_of_unsuited (hv : h.value? r = some ⟨t, p⟩) (hp : p.suits t = false)
    (ht : t.isShown = true) (hnone : t ≠ .none) : (repr r).failure? h = some .badCall := by
  have htext : (text r).perform h = (.error .badCall, h) := by
    change (textTo (h.cells.size + 1) r).perform h = _
    rw [textTo, perform_typeOf_bind hv]
    cases t with
    | type | integer | string | tuple | dict | method =>
      refine perform_bind_of_error ((perform_payload_bind hv).trans ?_)
      cases p with
      | _ => first | rfl | cases hp
    | none => exact absurd rfl hnone
    | _ => cases ht
  exact failure?_bind_of_error htext

theorem meets_printed (ha : Account.Sound ⟨h, held⟩) (hv : h.value? r = some ⟨t, p⟩)
    (mode : PrintMode) :
    Meets (requires t.isShown .print t) ((printed mode r).failure? h) := by
  have htext := meets_text ha hv
  have hp := ha.holds hv
  rw [printed, failure?_typeOf_bind hv]
  cases t with
  | type =>
    obtain ⟨t, rfl⟩ := hp
    dsimp only
    rw [failure?_bind_of_ok (perform_typeObject hv)]
    exact meets_none_none
  | none => exact meets_none_none
  | integer =>
    obtain ⟨i, rfl⟩ := hp
    dsimp only
    rw [failure?_bind_of_ok (perform_integer hv)]
    exact meets_none_none
  | string =>
    obtain ⟨bs, rfl⟩ := hp
    dsimp only
    rw [failure?_bind_of_ok (perform_bytes hv)]
    cases mode <;> exact meets_none_none
  | tuple | dict | method => exact htext
  | _ => rfl

theorem meets_print (ha : Account.Sound ⟨h, held⟩) (hv : h.value? r = some ⟨t, p⟩)
    (mode : PrintMode) (limit : Option Nat) :
    Meets (requires t.isShown .print t) ((Dispatch.print mode limit r).failure? h) := by
  have hm := meets_printed ha hv mode
  rw [Dispatch.failure?, print, perform_tryCatch, map_eq_pure_bind]
  rcases hp : (printed mode r).perform h with ⟨e | bs, h'⟩
  · rw [failure?_of_error hp] at hm
    rw [perform_bind_of_error hp]
    exact hm
  · rw [failure?_of_ok hp] at hm
    rw [perform_bind_of_ok hp]
    cases hr : requires t.isShown .print t with
    | some e => cases (hr ▸ hm : Meets (some e) none)
    | none =>
      intro e he
      change (Printed.write limit bs).error = some e at he
      unfold Printed.write at he
      split at he
      · cases he
      · split at he
        · cases he
        · cases he
          rfl

end Action

/-! ## Refusals -/

namespace Dispatch

variable {h : Heap} {held : Multiset Ref} {types : Ref → ObjectType}

open ScriptCore.Object.Action

theorem forall_mem_operands {a b : Ref} {P : Ref → Prop} (hp : ∀ r ∈ [a, b], P r) : P a ∧ P b :=
  ⟨hp a List.mem_cons_self, hp b (List.mem_cons_of_mem a List.mem_cons_self)⟩

/-- An operation fails with the refusal that the types of its operands tell, or else for
    another reason. -/
theorem meets_refusal? (ha : Account.Sound ⟨h, held⟩) (d : Dispatch)
    (ht : ∀ r ∈ d.operands, h.HasType r (types r)) : Meets (d.refusal? types) (d.failure? h) := by
  have hd : ∀ r ∈ d.operands, ∃ p, h.value? r = some ⟨types r, p⟩ ∧ h.Holds (types r) p :=
    fun r hr => ha.exists_holds (ht r hr)
  cases d with
  | getAttribute a name =>
    obtain ⟨p, hv, hp⟩ := List.forall_mem_singleton.1 hd
    exact meets_getAttribute ha hv
  | setAttribute a name x =>
    obtain ⟨p, hv, hp⟩ := List.forall_mem_singleton.1 hd
    exact meets_setAttribute ha hv x
  | compare a b =>
    obtain ⟨⟨p, hv, hp⟩, q, hw, hq⟩ := forall_mem_operands hd
    exact meets_compare ha hv hw
  | repr a =>
    obtain ⟨p, hv, hp⟩ := List.forall_mem_singleton.1 hd
    exact meets_repr ha hv
  | print mode limit a =>
    obtain ⟨p, hv, hp⟩ := List.forall_mem_singleton.1 hd
    exact meets_print ha hv mode limit
  | arithmetic op a b =>
    obtain ⟨⟨p, hv, hp⟩, q, hw, hq⟩ := forall_mem_operands hd
    exact meets_arithmetic hv hp hw hq
  | negative a =>
    obtain ⟨p, hv, hp⟩ := List.forall_mem_singleton.1 hd
    exact meets_negative hv hp
  | positive a =>
    obtain ⟨p, hv, hp⟩ := List.forall_mem_singleton.1 hd
    exact meets_positive hv hp
  | length a =>
    obtain ⟨p, hv, hp⟩ := List.forall_mem_singleton.1 hd
    exact meets_length hv hp
  | concat a b =>
    obtain ⟨⟨p, hv, hp⟩, q, hw, hq⟩ := forall_mem_operands hd
    exact meets_concat hv hp hw hq
  | repetition a count =>
    obtain ⟨p, hv, hp⟩ := List.forall_mem_singleton.1 hd
    exact meets_repetition hv hp count
  | item a index =>
    obtain ⟨p, hv, hp⟩ := List.forall_mem_singleton.1 hd
    exact meets_item hv hp index
  | slice a low high =>
    obtain ⟨p, hv, hp⟩ := List.forall_mem_singleton.1 hd
    exact meets_slice hv hp low high
  | assignItem a =>
    obtain ⟨p, hv, hp⟩ := List.forall_mem_singleton.1 hd
    exact meets_assignItem hv
  | assignSlice a =>
    obtain ⟨p, hv, hp⟩ := List.forall_mem_singleton.1 hd
    exact meets_assignSlice hv
  | mappingLength a =>
    obtain ⟨p, hv, hp⟩ := List.forall_mem_singleton.1 hd
    exact meets_mappingLength hv hp
  | subscript a key =>
    obtain ⟨⟨p, hv, hp⟩, q, hw, hq⟩ := forall_mem_operands hd
    exact meets_subscript hv hp hw hq
  | assignSubscript a key x =>
    obtain ⟨⟨p, hv, hp⟩, q, hw, hq⟩ := forall_mem_operands hd
    exact meets_assignSubscript hv hp hw hq x

/-- A refusal is a type error, except for that of joining a string or a tuple. -/
theorem refusal?_cases {d : Dispatch} {e : Error} (he : d.refusal? types = some e) :
    e.isTypeError = true ∧ ¬d.JoinsUnlike types ∨ e = .badArgument ∧ d.JoinsUnlike types := by
  have helements : ∀ t : ObjectType, t.hasElements = true ↔ t = .string ∨ t = .tuple := by
    rintro (_ | _) <;> simp [ObjectType.hasElements]
  cases d <;> simp only [refusal?, requires] at he <;>
    grind [JoinsUnlike, Error.isTypeError, ObjectType.isSequence]

theorem refusal?_of_joinsUnlike {d : Dispatch} (hd : d.JoinsUnlike types) :
    d.refusal? types = some .badArgument := by
  cases d with
  | concat a b =>
    obtain ⟨ha | ha, hb⟩ := hd
    · rw [ha] at hb
      simp [refusal?, requires, ha, ObjectType.isSequence, ObjectType.hasElements, hb.symm]
    · rw [ha] at hb
      simp [refusal?, requires, ha, ObjectType.isSequence, ObjectType.hasElements, hb.symm]
  | _ => cases hd

end Dispatch

/-! ## Generic operations after any calls -/

namespace Session

/-- After any calls, each object holds what its type requires: the bases of a class are a tuple
    of classes and its methods a dictionary, a member has a class, and what is bound is a
    function. So the generic operations never come by an object that a function is not meant
    for, and where the types of the operands do not support an operation, it fails with a type
    error that names it, or where a string or a tuple is to be joined with an object of another
    type, with that error. -/
theorem dispatch_by_type {host : Host} (hhost : host.IsOrderly)
    (calls : List (Call × Option String)) :
    let h := ((start host).performAll calls).heap
    (∀ r v, h.value? r = some v → h.Holds v.type v.payload) ∧
    ∀ (d : Dispatch) (types : Ref → ObjectType), (∀ r ∈ d.operands, h.HasType r (types r)) →
      d.failure? h ≠ some .badCall ∧
      (d.failure? h = some .badArgument ↔ d.JoinsUnlike types) ∧
      ∀ e, d.refusal? types = some e → d.failure? h = some e ∧
        (¬d.JoinsUnlike types → e.isTypeError = true) := by
  intro h
  have hs : Account.Sound ⟨h, _⟩ := sound_performAll hhost calls
  refine ⟨fun r v => hs.holds, fun d types ht => ?_⟩
  have hm := d.meets_refusal? hs ht
  cases hr : d.refusal? types with
  | none =>
    rw [hr] at hm
    refine ⟨fun he => absurd (hm _ he) (by decide),
      ⟨fun he => absurd (hm _ he) (by decide), fun hd => ?_⟩, fun e he => by cases he⟩
    cases hr.symm.trans (Dispatch.refusal?_of_joinsUnlike hd)
  | some e =>
    rw [hr] at hm
    change d.failure? h = some e at hm
    rw [hm]
    rcases Dispatch.refusal?_cases hr with ⟨htype, hd⟩ | ⟨rfl, hd⟩
    · refine ⟨?_, ⟨?_, fun hd' => absurd hd' hd⟩, ?_⟩
      · rintro ⟨⟩
        cases htype
      · rintro ⟨⟩
        cases htype
      · rintro _ ⟨⟩
        exact ⟨rfl, fun _ => htype⟩
    · refine ⟨nofun, ⟨fun _ => hd, fun _ => rfl⟩, ?_⟩
      rintro _ ⟨⟩
      exact ⟨rfl, fun hd' => absurd hd hd'⟩

/-- The members of a class, and a string. -/
def membersAndString : List (Call × Option String) :=
  twoMembers ++ [(.make (.string [97]), some "s")]

/-- A member has its class; it has attributes, but takes no part in arithmetic; and a string is
    not joined with an integer. -/
theorem dispatch_by_type_of_members :
    let h := ((start .basic).performAll membersAndString).heap
    h.Holds .member (.member ⟨2⟩ ⟨3⟩) ∧
    (Dispatch.getAttribute ⟨4⟩ "go").failure? h ≠ some .badCall ∧
    (Dispatch.arithmetic .add ⟨4⟩ ⟨7⟩).failure? h = some (.unsupported .arithmetic .member) ∧
    (Dispatch.concat ⟨8⟩ ⟨7⟩).failure? h = some .badArgument := by
  intro h
  obtain ⟨hm, hi, hs⟩ :
      ((start .basic).performAll membersAndString).heap.value? ⟨4⟩ = some (.member ⟨2⟩ ⟨3⟩) ∧
      ((start .basic).performAll membersAndString).heap.value? ⟨7⟩ = some (.integer 5) ∧
      ((start .basic).performAll membersAndString).heap.value? ⟨8⟩ = some (.string [97]) := by cbv
  obtain ⟨hholds, hdispatch⟩ := dispatch_by_type Host.isOrderly_basic membersAndString
  let types : Ref → ObjectType := fun r =>
    if r = ⟨4⟩ then .member else if r = ⟨7⟩ then .integer else .string
  have hmember : h.HasType ⟨4⟩ (types ⟨4⟩) := ⟨_, hm, rfl⟩
  have hinteger : h.HasType ⟨7⟩ (types ⟨7⟩) := ⟨_, hi, rfl⟩
  have hstring : h.HasType ⟨8⟩ (types ⟨8⟩) := ⟨_, hs, rfl⟩
  refine ⟨hholds _ _ hm, ?_, ?_, ?_⟩
  · exact (hdispatch (.getAttribute ⟨4⟩ "go") types (List.forall_mem_singleton.2 hmember)).1
  · have hm := hdispatch (.arithmetic .add ⟨4⟩ ⟨7⟩) types
      (List.forall_mem_cons.2 ⟨hmember, List.forall_mem_singleton.2 hinteger⟩)
    exact (hm.2.2 _ rfl).1
  · have hm := hdispatch (.concat ⟨8⟩ ⟨7⟩) types
      (List.forall_mem_cons.2 ⟨hstring, List.forall_mem_singleton.2 hinteger⟩)
    exact hm.2.1.2 ⟨.inl rfl, by decide⟩

end Session

end Object

end ScriptCore
