import Mathlib.Data.Finset.Card
import Mathlib.Data.Finset.Image
import ScriptCore.Proofs.BitSet
import ScriptCore.Proofs.Grammar.Json

/-!
# Packed sets as finite sets

What the bytes of a packed set stand for is a finite set of numbers, and the operations on the
bytes are those on that set, however often they are applied.

* `members`: the numbers whose bit is set, as the bytes have it.
* `members_edit`: what adding a number, merging and writing a byte do to them.
* `Represents`: a packed set answers as a finite set does.
* `reached_represents`: this holds after any edits, and the set is the edited one.
-/

namespace ScriptCore.BitSet

variable {s t : BitSet} {i k n : Nat} {b : UInt8}

/-! ## Members -/

/-- The numbers whose bit is set: that of `i` counts `2 ^ (i % 8)` in byte `i / 8`. -/
def members (s : BitSet) : Finset Nat :=
  {i ∈ Finset.range (8 * s.bytes.length) |
    (s.bytes.getD (i / 8) 0).toNat / 2 ^ (i % 8) % 2 = 1}

theorem testBit_iff : testBit b i = true ↔ b.toNat / 2 ^ i % 2 = 1 := by
  rw [testBit, Nat.testBit_eq_decide_div_mod_eq, decide_eq_true_iff]

theorem div_lt_length_iff : i / 8 < s.bytes.length ↔ i < s.capacity := by
  rw [capacity]
  omega

theorem lt_capacity_of_mem (hi : i ∈ s) : i < s.capacity :=
  div_lt_length_iff.1 (div_lt_length_of_mem hi)

theorem mem_members : i ∈ s.members ↔ i ∈ s := by
  rw [members, Finset.mem_filter, Finset.mem_range, ← capacity]
  constructor
  · rintro ⟨hi, hbit⟩
    have hb := List.getElem?_eq_getElem (div_lt_length_iff.2 hi)
    rw [List.getD_eq_getElem?_getD, hb, Option.getD_some] at hbit
    exact mem_iff.2 ⟨_, hb, testBit_iff.2 hbit⟩
  · intro hi
    obtain ⟨b, hb, hbit⟩ := mem_iff.1 hi
    refine ⟨lt_capacity_of_mem hi, ?_⟩
    rw [List.getD_eq_getElem?_getD, hb, Option.getD_some]
    exact testBit_iff.1 hbit

theorem members_empty (n : Nat) : (empty n).members = ∅ :=
  Finset.eq_empty_of_forall_notMem fun i hi => notMem_empty n i (mem_members.1 hi)

theorem mem_toList : i ∈ s.toList ↔ i ∈ s.members := by
  rw [toList, List.mem_filter, List.mem_range, mem_members, ← mem_iff_contains]
  exact and_iff_right_of_imp lt_capacity_of_mem

theorem pairwise_toList (s : BitSet) : s.toList.Pairwise (· < ·) :=
  List.pairwise_lt_range.filter _

theorem size_eq_card (s : BitSet) : s.size = s.members.card := by
  have hnodup : s.toList.Nodup := (pairwise_toList s).imp Nat.ne_of_lt
  rw [size, ← List.toFinset_card_of_nodup hnodup]
  congr 1
  ext i
  rw [List.mem_toFinset, mem_toList]

theorem isEmpty_iff : s.isEmpty = true ↔ s.members = ∅ := by
  rw [isEmpty, List.all_eq_true, Finset.eq_empty_iff_forall_notMem]
  constructor
  · intro hzero i hi
    obtain ⟨b, hb, hbit⟩ := mem_iff.1 (mem_members.1 hi)
    obtain rfl := eq_of_beq (hzero b (List.mem_of_getElem? hb))
    simp [testBit] at hbit
  · intro hnone b hb
    obtain ⟨j, hj⟩ := List.mem_iff_getElem?.1 hb
    -- a byte with a set bit would put the number of that bit into the set
    refine beq_iff_eq.2 (eq_of_testBit fun i hi => ?_)
    have hdiv : (8 * j + i) / 8 = j := by omega
    have hmod : (8 * j + i) % 8 = i := by omega
    have hnot := hnone (8 * j + i)
    rw [mem_members, mem_iff, hdiv, hmod, hj] at hnot
    simpa [testBit] using hnot

/-! ## Edits -/

/-- What can be done to a packed set. -/
inductive Edit
  | add (i : Nat)
  | merge (t : BitSet) (n : Nat)
  | setByte (k : Nat) (b : UInt8)

/-- A packed set after an edit; it stays as it is where there is no such bit or byte. -/
def edit (s : BitSet) : Edit → BitSet
  | .add i => ((s.add? i).map (·.2)).getD s
  | .merge t n => s.merge t n
  | .setByte k b => (s.setByte? k b).getD s

/-- A packed set after edits, one after the other. -/
def editAll (s : BitSet) (es : List Edit) : BitSet :=
  es.foldl edit s

/-- What an edit comes to for a set of numbers below `c`. A byte takes the place of the numbers
    that have their bits in it. -/
def Edit.apply (c : Nat) (S : Finset Nat) : Edit → Finset Nat
  | add i => if i < c then S ∪ {i} else S
  | merge t n => S ∪ {i ∈ t.members | i < 8 * width n ∧ i < c}
  | setByte k b =>
    if 8 * k < c then {i ∈ S | i / 8 ≠ k} ∪ (members ⟨[b]⟩).image (8 * k + ·) else S

theorem add?_eq (s : BitSet) (i : Nat) :
    s.add? i = if i < s.capacity then some (decide (i ∉ s.members), s.insert i) else none := by
  have hnew : (!s.contains i) = decide (i ∉ s.members) := by simp [mem_members]
  rw [add?, insert, insert?, hnew]
  split
  · next b hb =>
    have hi := div_lt_length_iff.1 (List.getElem?_eq_some_iff.1 hb).1
    rw [if_pos hi, Option.map_some, Option.getD_some]
  · next hnone =>
    rw [if_neg (mt div_lt_length_iff.2 (Nat.not_lt.2 (List.getElem?_eq_none_iff.1 hnone))),
      Option.map_none]

theorem mem_byte : i ∈ members ⟨[b]⟩ ↔ i < 8 ∧ testBit b i = true := by
  rw [mem_members, mem_iff]
  rcases lt_or_ge i 8 with hi | hi
  · have hdiv : i / 8 = 0 := by omega
    rw [hdiv, Nat.mod_eq_of_lt hi]
    simp [hi]
  · have hdiv : i / 8 = i / 8 - 1 + 1 := by omega
    rw [hdiv]
    simp [hi]

theorem members_insert (hk : k < s.capacity) : (s.insert k).members = s.members ∪ {k} := by
  ext i
  rw [mem_members, mem_insert (div_lt_length_iff.2 hk), Finset.mem_union, Finset.mem_singleton,
    mem_members, or_comm]

theorem members_merge : (s.merge t n).members =
    s.members ∪ {i ∈ t.members | i < 8 * width n ∧ i < s.capacity} := by
  ext i
  have hi : i / 8 < width n ↔ i < 8 * width n := by omega
  rw [mem_members, mem_merge, Finset.mem_union, Finset.mem_filter, mem_members, mem_members, hi,
    div_lt_length_iff]

theorem members_set (hk : k < s.bytes.length) : members ⟨s.bytes.set k b⟩ =
    {i ∈ s.members | i / 8 ≠ k} ∪ (members ⟨[b]⟩).image (8 * k + ·) := by
  ext i
  rw [mem_members, mem_iff, Finset.mem_union, Finset.mem_filter, mem_members, mem_iff,
    Finset.mem_image]
  -- byte `k` has the bits of the numbers that it stands for, and of no others
  rcases eq_or_ne (i / 8) k with rfl | hne
  · have hmod : i % 8 < 8 := Nat.mod_lt i (by decide)
    rw [List.getElem?_set_self hk]
    simp only [ne_eq, not_true_eq_false, and_false, false_or, Option.some.injEq, exists_eq_left',
      mem_byte]
    constructor
    · intro hbit
      exact ⟨i % 8, ⟨hmod, hbit⟩, Nat.div_add_mod i 8⟩
    · rintro ⟨j, ⟨-, hbit⟩, hj⟩
      obtain rfl : j = i % 8 := by omega
      exact hbit
  · rw [List.getElem?_set_ne hne.symm, and_iff_left hne, or_iff_left]
    rintro ⟨j, hj, rfl⟩
    have := (mem_byte.1 hj).1
    omega

theorem capacity_edit (s : BitSet) (e : Edit) : (s.edit e).capacity = s.capacity := by
  cases e with
  | add i =>
    rw [edit, add?_eq]
    split
    · rw [Option.map_some, Option.getD_some, capacity, length_insert, capacity]
    · rfl
  | merge t n => rw [edit, capacity, length_merge, capacity]
  | setByte k b =>
    rw [edit, setByte?]
    split
    · rw [Option.getD_some, capacity, List.length_set, capacity]
    · rfl

/-- One edit of the bytes is one of the members. -/
theorem members_edit (s : BitSet) (e : Edit) :
    (s.edit e).members = e.apply s.capacity s.members := by
  cases e with
  | add i =>
    rw [edit, add?_eq, Edit.apply]
    split
    · next hi => exact members_insert hi
    · rfl
  | merge t n => exact members_merge
  | setByte k b =>
    have hk : k < s.bytes.length ↔ 8 * k < s.capacity := by
      rw [capacity]
      omega
    rw [edit, setByte?, Edit.apply]
    by_cases h : k < s.bytes.length
    · rw [if_pos h, if_pos (hk.1 h), Option.getD_some, members_set h]
    · rw [if_neg h, if_neg (mt hk.2 h), Option.getD_none]

theorem capacity_editAll (s : BitSet) (es : List Edit) : (s.editAll es).capacity = s.capacity := by
  induction es generalizing s with
  | nil => rfl
  | cons e es ih => exact (ih (s.edit e)).trans (capacity_edit s e)

/-- Edits of the bytes are edits of the members, by induction on the edits. -/
theorem members_editAll (s : BitSet) (es : List Edit) :
    (s.editAll es).members = es.foldl (Edit.apply s.capacity) s.members := by
  induction es generalizing s with
  | nil => rfl
  | cons e es ih =>
    rw [List.foldl_cons, ← members_edit, ← capacity_edit s e]
    exact ih (s.edit e)

/-! ## Answers -/

/-- Whether a packed set answers as a finite set does. -/
structure Represents (s : BitSet) (S : Finset Nat) : Prop where
  contains (i : Nat) : s.contains i = true ↔ i ∈ S
  add (i : Nat) (hi : i < s.capacity) : ∃ t, s.add? i = some (decide (i ∉ S), t) ∧
    t.members = S ∪ {i} ∧ t.capacity = s.capacity
  noRoom (i : Nat) (hi : s.capacity ≤ i) : s.add? i = none
  size : s.size = S.card
  isEmpty : s.isEmpty = true ↔ S = ∅
  ascending : s.toList.Pairwise (· < ·)
  toList (i : Nat) : i ∈ s.toList ↔ i ∈ S

theorem represents_members (s : BitSet) : s.Represents s.members where
  contains _ := (mem_iff_contains s _).symm.trans mem_members.symm
  add i hi := by
    refine ⟨s.insert i, by rw [add?_eq, if_pos hi], members_insert hi, ?_⟩
    rw [capacity, length_insert, capacity]
  noRoom i hi := by rw [add?_eq, if_neg (Nat.not_lt.2 hi)]
  size := size_eq_card s
  isEmpty := isEmpty_iff
  ascending := pairwise_toList s
  toList _ := mem_toList

theorem eq_iff_bytes_eq : s = t ↔ s.bytes = t.bytes :=
  ⟨congrArg bytes, fun h => congrArg mk h⟩

/-- **Packed sets are finite sets.** What is reached from any bytes by any edits answers as the
    set of the numbers whose bit is set, and this is the first one edited in the same way. The
    bytes are all there is to a packed set, and it is found again in them and in its text. -/
theorem reached_represents (s₀ : BitSet) (es : List Edit) :
    (s₀.editAll es).Represents (s₀.editAll es).members ∧
    (s₀.editAll es).members = es.foldl (Edit.apply s₀.capacity) s₀.members ∧
    (s₀.editAll es).capacity = s₀.capacity ∧
    (∀ n, (empty n).members = ∅) ∧
    (∀ t, (s₀.editAll es == t) = true ↔ (s₀.editAll es).bytes = t.bytes) ∧
    mk (s₀.editAll es).bytes = s₀.editAll es ∧
    (Json.read? ((s₀.editAll es).toJson.render .compact)).bind ofJson? = some (s₀.editAll es) := by
  refine ⟨represents_members _, members_editAll s₀ es, capacity_editAll s₀ es, members_empty,
    fun t => beq_iff_eq.trans eq_iff_bytes_eq, rfl, ?_⟩
  rw [Json.read?_render .compact (plain_toJson _), Option.bind_some, ofJson?_toJson]

end ScriptCore.BitSet
