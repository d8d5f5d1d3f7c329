import ScriptCore.Object.Action

/-!
# Sequences

Strings and tuples are sequences: they have a length and elements, can be
joined to their like, repeated, and sliced. They cannot be changed, so an
operation that leaves everything in place answers with the same object. Bounds
of a slice are moved into the sequence.
-/

namespace ScriptCore.Object

/-- The elements from a position up to another. -/
def sliceOf {α : Type} (xs : List α) (low high : Nat) : List α :=
  (xs.take high).drop low

/-- Whether a slice is the whole sequence of a length. -/
def isWhole (size low high : Nat) : Bool :=
  low = 0 ∧ size ≤ high

/-- Elements repeated a number of times. -/
def repeated {α : Type} (xs : List α) (n : Nat) : List α :=
  if xs.isEmpty then [] else (List.replicate n xs).flatten

/-- The largest length of a sequence. -/
def largestLength : Nat := UInt64.size - 1

namespace Action

/-- What a type says to a sequence operation that it has no answer for. -/
def refuseSequence {α : Type} (op : Operation) (t : ObjectType) : Action α :=
  throw (.unsupported (if t.isSequence then op else .sequence) t)

/-- The length of a sequence. -/
def length (r : Ref) : Action Nat := do
  match ← typeOf r with
  | .string => return (← bytes r).length
  | .tuple => return (← items r).length
  | t => match t.suites? with
    | some suites => return suites.length
    | none => throw (.unsupported .sequence t)

/-- Two sequences joined. -/
def concat (a b : Ref) : Action Ref := do
  match ← typeOf a with
  | .string =>
    if (← typeOf b) = .string then
      let x ← bytes a
      let y ← bytes b
      if x = [] then share b else if y = [] then share a else alloc (.string (x ++ y))
    else throw .badArgument
  | .tuple =>
    if (← typeOf b) = .tuple then
      let xs ← items a
      let ys ← items b
      alloc (.tuple (xs ++ ys))
    else throw .badArgument
  | t =>
    if t.isSequence then throw (.unsupportedPair .concat t (← typeOf b))
    else throw (.unsupported .sequence t)

/-- A sequence repeated a number of times; a negative number stands for 0. -/
def repetition (r : Ref) (count : Int) : Action Ref := do
  let n := count.toNat
  match ← typeOf r with
  | .string =>
    let bs ← bytes r
    if n = 1 then share r
    else if largestLength < bs.length * n then throw (.overflow .repeatedString)
    else alloc (.string (repeated bs n))
  | .tuple =>
    let items ← items r
    if n = 1 then share r
    else if largestLength < items.length * n then throw (.overflow .repeatedTuple)
    else alloc (.tuple (repeated items n))
  | t => refuseSequence .repetition t

/-- The elements of a sequence from a position up to another. -/
def slice (r : Ref) (low high : Nat) : Action Ref := do
  match ← typeOf r with
  | .string =>
    let bs ← bytes r
    if isWhole bs.length low high then share r else alloc (.string (sliceOf bs low high))
  | .tuple =>
    let items ← items r
    if isWhole items.length low high then share r else alloc (.tuple (sliceOf items low high))
  | t => refuseSequence .slicing t

/-- The item of a tuple. -/
def tupleItem (r : Ref) (index : Nat) : Action Ref := do
  match (← items r)[index]? with
  | some x => share x
  | none => throw (.outOfRange .tuple)

/-- The element of a sequence; that of a string is a string again. -/
def item (r : Ref) (index : Nat) : Action Ref := do
  match ← typeOf r with
  | .string =>
    if index < (← bytes r).length then slice r index (index + 1) else throw (.outOfRange .string)
  | .tuple => tupleItem r index
  | t => refuseSequence .indexing t

/-- Replaces an element of a sequence, which none allows. -/
def assignItem (r : Ref) : Action Unit := do
  refuseSequence .itemAssignment (← typeOf r)

/-- Replaces a slice of a sequence, which none allows. -/
def assignSlice (r : Ref) : Action Unit := do
  refuseSequence .sliceAssignment (← typeOf r)

end Action

end ScriptCore.Object
