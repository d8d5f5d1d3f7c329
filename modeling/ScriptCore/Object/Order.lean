import ScriptCore.Object.Action

/-!
# Comparing objects

An object equals itself. Otherwise only objects of one type can be compared,
and of these integers by value, strings by their bytes, and tuples by their
first items that differ, a shorter one coming before what it begins.
-/

namespace ScriptCore

/-- Compares lists by the first elements that differ, then by their lengths. -/
def Heap.compareItems (f : Object.Ref → Object.Ref → Except Object.Error Ordering) :
    List Object.Ref → List Object.Ref → Except Object.Error Ordering
  | x :: xs, y :: ys =>
    match f x y with
    | .ok .eq => compareItems f xs ys
    | result => result
  | xs, ys => .ok (compare xs.length ys.length)

/-- Compares two objects of one type by what they hold, given how items are
    compared. -/
def Heap.comparePayloads (f : Object.Ref → Object.Ref → Except Object.Error Ordering)
    (t : ObjectType) (p q : Object.Payload) : Except Object.Error Ordering :=
  match t with
  | .integer => match p, q with
    | .integer x, .integer y => .ok (compare x.toInt y.toInt)
    | _, _ => .error .badCall
  | .string => match p, q with
    | .string x, .string y => .ok (compare x y)
    | _, _ => .error .badCall
  | .tuple => match p, q with
    | .tuple xs, .tuple ys => compareItems f xs ys
    | _, _ => .error .badCall
  | t => .error (.unsupported .comparison t)

/-- Compares two objects by at most `n` nested steps. -/
def Heap.compareTo (h : Heap) : Nat → Object.Ref → Object.Ref → Except Object.Error Ordering
  | 0, _, _ => .error .endless
  | n + 1, a, b =>
    if a = b then .ok .eq
    else match h.value? a, h.value? b with
      | some v, some w =>
        if v.type = w.type then comparePayloads (h.compareTo n) v.type v.payload w.payload
        else .error (.incomparable v.type w.type)
      | _, _ => .error .badCall

/-- Compares two objects. Items are older than the tuples that hold them, so
    there are no more nested steps than objects. -/
def Heap.compare (h : Heap) (a b : Object.Ref) : Except Object.Error Ordering :=
  h.compareTo h.depth a b

namespace Object.Action

/-- Compares two objects. -/
def compare (a b : Ref) : Action Ordering :=
  ofHeap (·.compare a b)

end Object.Action

end ScriptCore
