import ScriptCore.Bytes
import ScriptCore.Json

/-!
# Packed sets of indices

A set of small numbers kept in whole bytes: the number `i` is a member if bit
`i % 8`, counted from the least significant, of byte `i / 8` is set. The
capacity is fixed when the set is made; numbers beyond it are never members.

Operations on two sets take the number of indices they are meant to cover,
and look at the bytes that hold these, as far as both sets have them.
-/

namespace ScriptCore

/-- A set of indices packed into bytes. -/
structure BitSet where
  bytes : Bytes
  deriving DecidableEq, Repr

namespace BitSet

/-- The number of bytes that hold `n` indices. -/
def width (n : Nat) : Nat :=
  (n + 7) / 8

/-- The empty set with room for `n` indices, rounded up to whole bytes. -/
def empty (n : Nat) : BitSet :=
  ⟨List.replicate (width n) 0⟩

/-- The number of indices there is room for. -/
def capacity (s : BitSet) : Nat :=
  8 * s.bytes.length

/-- Whether bit `i` of a byte is set. -/
def testBit (b : UInt8) (i : Nat) : Bool :=
  b.toNat.testBit i

/-- Membership. -/
def contains (s : BitSet) (i : Nat) : Bool :=
  match s.bytes[i / 8]? with
  | some b => testBit b (i % 8)
  | none => false

instance : Membership Nat BitSet where
  mem s i := s.contains i = true

instance (s : BitSet) (i : Nat) : Decidable (i ∈ s) :=
  inferInstanceAs (Decidable (s.contains i = true))

/-- The set with byte `k` replaced, if there is one. -/
def setByte? (s : BitSet) (k : Nat) (b : UInt8) : Option BitSet :=
  if k < s.bytes.length then some ⟨s.bytes.set k b⟩ else none

/-- The set with `i` added, if there is room for it. -/
def insert? (s : BitSet) (i : Nat) : Option BitSet :=
  match s.bytes[i / 8]? with
  | some b => some ⟨s.bytes.set (i / 8) (b ||| 1 <<< (i % 8).toUInt8)⟩
  | none => none

/-- The set with `i` added, if there is room for it, and whether `i` was no member
    before. -/
def add? (s : BitSet) (i : Nat) : Option (Bool × BitSet) :=
  (s.insert? i).map fun t => (!s.contains i, t)

/-- The set with `i` added; unchanged if there is no room for it. -/
def insert (s : BitSet) (i : Nat) : BitSet :=
  (s.insert? i).getD s

/-- The members in ascending order. -/
def toList (s : BitSet) : List Nat :=
  (List.range s.capacity).filter s.contains

/-- The number of members. -/
def size (s : BitSet) : Nat :=
  s.toList.length

/-- Whether there is no member. -/
def isEmpty (s : BitSet) : Bool :=
  s.bytes.all (· == 0)

/-- The members of `t` added to `s` over the bytes that hold `n` indices. -/
def merge (s t : BitSet) (n : Nat) : BitSet :=
  let k := min (width n) (min s.bytes.length t.bytes.length)
  ⟨List.zipWith (· ||| ·) (s.bytes.take k) (t.bytes.take k) ++ s.bytes.drop k⟩

/-- Whether two sets agree on the bytes that hold `n` indices, as far as both
    have them. -/
def agree (s t : BitSet) (n : Nat) : Bool :=
  ((s.bytes.zip t.bytes).take (width n)).all fun p => p.1 == p.2

/-- The members between braces. -/
def render (s : BitSet) : String :=
  "\x7b" ++ ", ".intercalate (s.toList.map toString) ++ "\x7d"

/-- A set as the JSON list of its bytes. -/
def toJson (s : BitSet) : Json :=
  .array (s.bytes.map fun b => .ofNat b.toNat)

/-- The set that a JSON list of bytes describes. -/
def ofJson? (j : Json) : Option BitSet :=
  (j.listOf? fun b => (b.natUpTo? 255).map Nat.toUInt8).map (⟨·⟩)

@[simp] theorem mem_iff_contains (s : BitSet) (i : Nat) : i ∈ s ↔ s.contains i = true := Iff.rfl

@[simp] theorem bytes_empty (n : Nat) : (empty n).bytes = List.replicate (width n) 0 := rfl

end BitSet

end ScriptCore
