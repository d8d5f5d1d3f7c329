import ScriptCore.Object

/-!
# The heap

Objects are counted: each knows how many references there are to it, from
outside the heap and from the values of other objects. When the last reference
to an object is released, the object is freed, unless its type is not freed,
and the references in its value are released in turn, each with all that
follows from it before the next.

There is one object None and one object for each type. They are made when they
are first asked for, and the heap keeps a reference to each.
-/

namespace ScriptCore.Object

/-- An object: its value, and the number of references to it. -/
structure Cell where
  value : Value
  count : Nat
  deriving DecidableEq

/-- What was counted since the beginning: the objects made, the objects freed,
    and the references there are. -/
structure Stats where
  allocations : Nat := 0
  deallocations : Nat := 0
  references : Nat := 0
  deriving DecidableEq, Repr

/-- The number of objects that were made and not freed. -/
def Stats.live (s : Stats) : Nat :=
  s.allocations - s.deallocations

end Object

/-- The objects in the order of their creation; freed ones leave a gap. -/
structure Heap where
  cells : Array (Option Object.Cell) := #[]
  /-- The object None, once it was asked for. -/
  noneRef : Option Object.Ref := none
  /-- The objects of the types that were asked for. -/
  typeRefs : List (ObjectType × Object.Ref) := []
  stats : Object.Stats := {}
  /-- The tags of the foreign objects that were freed, in order. -/
  freedTags : List String := []
  deriving DecidableEq

namespace Heap

open Object

/-- The object of a reference, if it was not freed. -/
def cell? (h : Heap) (r : Ref) : Option Cell :=
  h.cells[r.index]?.join

/-- The value of an object. -/
def value? (h : Heap) (r : Ref) : Option Value :=
  (h.cell? r).map (·.value)

/-- What an object holds. -/
def payload? (h : Heap) (r : Ref) : Option Payload :=
  (h.value? r).map (·.payload)

/-- The number of references to an object. -/
def count (h : Heap) (r : Ref) : Nat :=
  match h.cell? r with
  | some c => c.count
  | none => 0

/-- The number of objects in the heap. -/
def liveCells (h : Heap) : Nat :=
  h.cells.countP Option.isSome

/-- Enough nested steps to walk from an object to any other. -/
def depth (h : Heap) : Nat :=
  h.cells.size + 1

/-- One more reference to an object. -/
def retain (h : Heap) (r : Ref) : Heap :=
  { h with
    cells := h.cells.modify r.index (·.map fun c => { c with count := c.count + 1 })
    stats := { h.stats with references := h.stats.references + 1 } }

/-- A new object, to which there is one reference. Its value takes a reference
    to each object that it refers to. -/
def alloc (h : Heap) (v : Value) : Ref × Heap :=
  let h := v.refs.foldl retain h
  (⟨h.cells.size⟩,
    { h with
      cells := h.cells.push (some ⟨v, 1⟩)
      stats := { h.stats with
        allocations := h.stats.allocations + 1
        references := h.stats.references + 1 } })

/-- The heap with another payload in an object. -/
def setPayload (h : Heap) (r : Ref) (p : Payload) : Heap :=
  { h with
    cells := h.cells.modify r.index (·.map fun c =>
      { c with value := { c.value with payload := p } }) }

/-- One reference less to an object; if it is freed by that, the references of
    its value are still to be released. -/
def forget (h : Heap) (r : Ref) : List Ref × Heap :=
  if hr : r.index < h.cells.size then
    match h.cells[r.index] with
    | some c =>
      let stats := { h.stats with references := h.stats.references - 1 }
      if c.count = 1 ∧ c.value.type.isFreed then
        (c.value.refs,
          { h with
            cells := h.cells.set r.index none
            stats := { stats with deallocations := stats.deallocations + 1 }
            freedTags := h.freedTags ++ c.value.tag?.toList })
      else
        ([], { h with cells := h.cells.set r.index (some { c with count := c.count - 1 }), stats })
    | none => ([], h)
  else ([], h)

theorem liveCells_forget (h : Heap) (r : Ref) :
    (h.forget r).2.liveCells < h.liveCells ∨
      (h.forget r).1 = [] ∧ (h.forget r).2.liveCells = h.liveCells := by
  unfold forget
  split
  · next hr =>
    split
    · next c hc =>
      have hpos : 0 < h.cells.countP Option.isSome :=
        Array.countP_pos_iff.2 ⟨_, Array.getElem_mem hr, by simp [hc]⟩
      simp only [liveCells]
      split
      · left
        simp only [Array.countP_set, hc, Option.isSome_some, Option.isSome_none, if_true,
          Bool.false_eq_true, if_false]
        omega
      · refine .inr ⟨rfl, ?_⟩
        simp only [Array.countP_set, hc, Option.isSome_some, if_true]
        omega
    · simp
  · simp

/-- Releases references one after the other, with all that follows from it. -/
def releaseAll : List Ref → Heap → Heap
  | [], h => h
  | r :: rs, h => releaseAll ((h.forget r).1 ++ rs) (h.forget r).2
  termination_by rs h => (h.liveCells, rs.length)
  decreasing_by
    rcases h.liveCells_forget r with hlt | ⟨hnil, heq⟩
    · exact .left _ _ hlt
    · rw [hnil, heq]
      exact .right _ (by simp)

/-- Releases a reference, with all that follows from it. -/
def release (h : Heap) (r : Ref) : Heap :=
  releaseAll [r] h

/-- A reference to None. -/
def shareNone (h : Heap) : Ref × Heap :=
  match h.noneRef with
  | some r => (r, h.retain r)
  | none =>
    let (r, h) := h.alloc .none
    (r, { h.retain r with noneRef := some r })

/-- A reference to the object of a type. -/
def shareType (h : Heap) (t : ObjectType) : Ref × Heap :=
  match h.typeRefs.lookup t with
  | some r => (r, h.retain r)
  | none =>
    let (r, h) := h.alloc (.typeObject t)
    let h := h.retain r
    (r, { h with typeRefs := (t, r) :: h.typeRefs })

end Heap

end ScriptCore
