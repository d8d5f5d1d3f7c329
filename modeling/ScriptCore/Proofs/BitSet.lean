import Mathlib.Data.Nat.Bitwise
import ScriptCore.BitSet

/-!
# Members of packed sets

What the operations on packed sets do to their members, and to the number of
bytes. A set is known by the two (`ext_of_mem`).

* `mem_insert`: an index that there is room for becomes a member.
* `mem_merge`: the members of another set become members, as far as they are in
  the bytes that are looked at.
-/

namespace ScriptCore.BitSet

variable {s t : BitSet} {i k n : Nat}

/-! ## Bits of a byte -/

theorem testBit_or (a b : UInt8) (i : Nat) :
    testBit (a ||| b) i = (testBit a i || testBit b i) := by
  rw [testBit, UInt8.toNat_or, Nat.testBit_or]
  rfl

theorem testBit_one_shiftLeft (hk : k < 8) (hi : i < 8) :
    testBit ((1 : UInt8) <<< k.toUInt8) i = decide (i = k) :=
  have h : ∀ k < 8, ∀ i < 8, testBit ((1 : UInt8) <<< k.toUInt8) i = decide (i = k) := by decide
  h k hk i hi

theorem eq_of_testBit {a b : UInt8} (h : ∀ i < 8, testBit a i = testBit b i) : a = b := by
  refine UInt8.toNat.inj (Nat.eq_of_testBit_eq fun i => ?_)
  rcases lt_or_ge i 8 with hi | hi
  · exact h i hi
  · have hlt : ∀ c : UInt8, c.toNat < 2 ^ i := fun c =>
      c.toNat_lt.trans_le (Nat.pow_le_pow_right (by decide) hi)
    rw [Nat.testBit_lt_two_pow (hlt a), Nat.testBit_lt_two_pow (hlt b)]

/-! ## Members -/

theorem mem_iff : i ∈ s ↔ ∃ b, s.bytes[i / 8]? = some b ∧ testBit b (i % 8) = true := by
  rw [mem_iff_contains, contains]
  cases s.bytes[i / 8]? <;> simp

/-- Members have their bits in bytes that are there. -/
theorem div_lt_length_of_mem (hi : i ∈ s) : i / 8 < s.bytes.length := by
  obtain ⟨b, hb, -⟩ := mem_iff.1 hi
  exact (List.getElem?_eq_some_iff.1 hb).1

theorem div_lt_width (h : i < n) : i / 8 < width n := by
  rw [width]
  omega

/-- A byte is known by the eight members that have their bits in it. -/
theorem getElem?_eq_of_mem {j : Nat} (hlen : s.bytes.length = t.bytes.length)
    (h : ∀ i < 8, 8 * j + i ∈ s ↔ 8 * j + i ∈ t) : s.bytes[j]? = t.bytes[j]? := by
  rcases lt_or_ge j s.bytes.length with hs | hs
  · have ht : j < t.bytes.length := hlen ▸ hs
    rw [List.getElem?_eq_getElem hs, List.getElem?_eq_getElem ht]
    refine congrArg some (eq_of_testBit fun i hi => ?_)
    have hj := h i hi
    have hdiv : (8 * j + i) / 8 = j := by omega
    have hmod : (8 * j + i) % 8 = i := by omega
    rw [mem_iff, mem_iff, hdiv, hmod] at hj
    simp only [List.getElem?_eq_getElem hs, List.getElem?_eq_getElem ht, Option.some.injEq,
      exists_eq_left'] at hj
    exact Bool.eq_iff_iff.2 hj
  · rw [List.getElem?_eq_none hs, List.getElem?_eq_none (hlen ▸ hs)]

/-- A set is known by the number of its bytes and its members. -/
theorem ext_of_mem (hlen : s.bytes.length = t.bytes.length) (h : ∀ i, i ∈ s ↔ i ∈ t) : s = t := by
  have hbytes : s.bytes = t.bytes :=
    List.ext_getElem? fun j => getElem?_eq_of_mem hlen fun i _ => h (8 * j + i)
  exact congrArg BitSet.mk hbytes

theorem notMem_empty (n i : Nat) : i ∉ empty n := by
  rw [mem_iff, bytes_empty]
  rintro ⟨b, hb, h⟩
  rw [List.getElem?_replicate] at hb
  split at hb
  · cases hb
    simp [testBit] at h
  · cases hb

theorem length_empty (n : Nat) : (empty n).bytes.length = width n := by
  rw [bytes_empty, List.length_replicate]

theorem insert_eq {b : UInt8} (hb : s.bytes[k / 8]? = some b) :
    s.insert k = ⟨s.bytes.set (k / 8) (b ||| 1 <<< (k % 8).toUInt8)⟩ := by
  rw [insert, insert?, hb, Option.getD_some]

theorem length_insert : (s.insert k).bytes.length = s.bytes.length := by
  rw [insert, insert?]
  split
  · rw [Option.getD_some, List.length_set]
  · rfl

/-- Where there is room for an index, it becomes a member, and nothing else
    changes. -/
theorem mem_insert (hk : k / 8 < s.bytes.length) : i ∈ s.insert k ↔ i = k ∨ i ∈ s := by
  have hb := List.getElem?_eq_getElem hk
  rw [insert_eq hb, mem_iff, mem_iff]
  dsimp only
  rcases eq_or_ne (i / 8) (k / 8) with hdiv | hdiv
  · have hik : i = k ↔ i % 8 = k % 8 := by omega
    rw [hdiv, List.getElem?_set_self hk, hb, hik]
    simp only [Option.some.injEq, exists_eq_left', testBit_or, Bool.or_eq_true,
      testBit_one_shiftLeft (Nat.mod_lt k (by decide)) (Nat.mod_lt i (by decide)),
      decide_eq_true_eq]
    exact or_comm
  · have hik : i ≠ k := fun h => hdiv (congrArg (· / 8) h)
    rw [List.getElem?_set_ne hdiv.symm, or_iff_right hik]

theorem length_merge : (s.merge t n).bytes.length = s.bytes.length := by
  simp only [merge, List.length_append, List.length_zipWith, List.length_take, List.length_drop]
  omega

/-- Byte by byte, a merge is a disjunction, as far as it looks. -/
theorem getElem?_merge (j : Nat) : (s.merge t n).bytes[j]? =
    s.bytes[j]?.map fun b => if j < width n then b ||| t.bytes[j]?.getD 0 else b := by
  simp only [merge]
  rcases lt_or_ge j (min (width n) (min s.bytes.length t.bytes.length)) with hj | hj
  · have hs : j < s.bytes.length := by omega
    have ht : j < t.bytes.length := by omega
    rw [List.getElem?_append_left (by simp; omega), List.getElem?_zipWith,
      List.getElem?_take_of_lt hj, List.getElem?_take_of_lt hj, List.getElem?_eq_getElem hs,
      List.getElem?_eq_getElem ht]
    simp only [Option.map_some, Option.getD_some]
    rw [if_pos (by omega)]
  · rw [List.getElem?_append_right (by simp; omega), List.getElem?_drop]
    have hi : min (width n) (min s.bytes.length t.bytes.length) + (j - (List.zipWith (· ||| ·)
        (s.bytes.take (min (width n) (min s.bytes.length t.bytes.length)))
        (t.bytes.take (min (width n) (min s.bytes.length t.bytes.length)))).length) = j := by
      simp
      omega
    rw [hi]
    rcases lt_or_ge j s.bytes.length with hs | hs
    · rw [List.getElem?_eq_getElem hs, Option.map_some]
      split_ifs with hw
      · rw [List.getElem?_eq_none (by omega : t.bytes.length ≤ j), Option.getD_none, UInt8.or_zero]
      · rfl
    · rw [List.getElem?_eq_none hs, Option.map_none]

/-- The members of the other set become members, where both sets have the bytes
    that are looked at. -/
theorem mem_merge :
    i ∈ s.merge t n ↔ i ∈ s ∨ i ∈ t ∧ i / 8 < width n ∧ i / 8 < s.bytes.length := by
  rw [mem_iff, getElem?_merge, mem_iff]
  rcases lt_or_ge (i / 8) s.bytes.length with hs | hs
  · simp only [List.getElem?_eq_getElem hs, Option.map_some, Option.some.injEq, exists_eq_left', hs,
      and_true]
    split_ifs with hw
    · rw [testBit_or, Bool.or_eq_true, mem_iff]
      refine or_congr_right ?_
      cases ht : t.bytes[i / 8]? with
      | none => simp [testBit]
      | some b => simp [hw]
    · simp [hw]
  · simp [hs.not_gt]

end ScriptCore.BitSet
