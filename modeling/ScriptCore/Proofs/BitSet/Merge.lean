import ScriptCore.Proofs.BitSet

/-!
# Merging packed sets

Merging adds the members of a set to another, as far as they lie in the bytes that cover a
number of indices and that both sets have: in their common window. Seen through it, sets of one
length are a semilattice.

* `agree_iff_below`: sets of one length agree if each is below the other in the window.
* `OfLength.MergeLaws`: the laws of merging and agreeing, which follow from this, and from a
  merge being a union in the window (`mem_merge_iff_window`, `mem_merge_of_length`).
* `merge_lawful`: they hold for all sets of one length; and whatever the lengths, a merge changes
  the bytes in the window and no others.
-/

namespace ScriptCore.BitSet

variable {s t u s' t' : BitSet} {n i j L : Nat}

/-! ## The window -/

/-- Computed with words of 64 bits, the number of bytes is the same, as long as the sum on the
    way to it has 64 bits. -/
theorem toNat_width (hn : n + 7 < UInt64.size) : ((n.toUInt64 + 7) / 8).toNat = width n := by
  have hn' : n.toUInt64.toNat = n := Nat.mod_eq_of_lt (Nat.lt_of_add_right_lt hn)
  have hsum : (n.toUInt64 + 7).toNat = n + 7 := by
    rw [UInt64.toNat_add, hn']
    exact Nat.mod_eq_of_lt hn
  rw [UInt64.toNat_div, hsum, width]
  rfl

/-- The number of bytes that an operation on two sets looks at. -/
def window (s t : BitSet) (n : Nat) : Nat :=
  min (width n) (min s.bytes.length t.bytes.length)

/-- In the window, a merge has the bits of both bytes. -/
theorem getElem?_merge_of_lt (hj : j < window s t n) : ∃ a b, s.bytes[j]? = some a ∧
    t.bytes[j]? = some b ∧ (s.merge t n).bytes[j]? = some (a ||| b) := by
  rw [window, Nat.lt_min, Nat.lt_min] at hj
  obtain ⟨hw, hs, ht⟩ := hj
  refine ⟨_, _, List.getElem?_eq_getElem hs, List.getElem?_eq_getElem ht, ?_⟩
  rw [getElem?_merge, List.getElem?_eq_getElem hs, List.getElem?_eq_getElem ht, Option.map_some,
    if_pos hw, Option.getD_some]

theorem getElem?_merge_of_le (hj : window s t n ≤ j) :
    (s.merge t n).bytes[j]? = s.bytes[j]? := by
  rw [getElem?_merge]
  cases hs : s.bytes[j]? with
  | none => rfl
  | some a =>
    have hlt := (List.getElem?_eq_some_iff.1 hs).1
    rw [Option.map_some]
    split
    · next hw =>
      have ht : t.bytes.length ≤ j := by
        rw [window] at hj
        omega
      rw [List.getElem?_eq_none ht, Option.getD_none, UInt8.or_zero]
    · rfl

/-- A merge is a union in the window. -/
theorem mem_merge_iff_window : i ∈ s.merge t n ↔ i ∈ s ∨ i ∈ t ∧ i < 8 * window s t n := by
  rw [mem_merge, window]
  refine or_congr_right (and_congr_right fun hi => ?_)
  have ht := div_lt_length_of_mem hi
  omega

/-! ## Sets of one length -/

theorem agree_iff (hlen : s.bytes.length = t.bytes.length) :
    s.agree t n = true ↔ ∀ j < width n, s.bytes[j]? = t.bytes[j]? := by
  rw [agree, List.all_eq_true]
  constructor
  · intro h j hj
    rcases lt_or_ge j s.bytes.length with hs | hs
    · have ht : j < t.bytes.length := hlen ▸ hs
      have hp : ((s.bytes.zip t.bytes).take (width n))[j]? = some (s.bytes[j], t.bytes[j]) := by
        rw [List.getElem?_take_of_lt hj, List.getElem?_zip_eq_some]
        exact ⟨List.getElem?_eq_getElem hs, List.getElem?_eq_getElem ht⟩
      rw [List.getElem?_eq_getElem hs, List.getElem?_eq_getElem ht]
      exact congrArg some (eq_of_beq (h _ (List.mem_of_getElem? hp)))
    · rw [List.getElem?_eq_none hs, List.getElem?_eq_none (hlen ▸ hs)]
  · rintro h ⟨a, b⟩ hp
    obtain ⟨j, hj⟩ := List.mem_iff_getElem?.1 hp
    rw [List.getElem?_take] at hj
    split at hj
    · next hlt =>
      obtain ⟨ha, hb⟩ := List.getElem?_zip_eq_some.1 hj
      rw [h j hlt, hb] at ha
      exact beq_iff_eq.2 (Option.some.inj ha).symm
    · cases hj

/-- Whether the members of a set that lie in the bytes for `n` indices are members of another. -/
def Below (n : Nat) (s t : BitSet) : Prop :=
  ∀ i ∈ s, i < 8 * width n → i ∈ t

theorem Below.trans (hst : Below n s t) (htu : Below n t u) : Below n s u :=
  fun i hi hw => htu i (hst i hi hw) hw

/-- Sets of one length agree if each is below the other. -/
theorem agree_iff_below (hlen : s.bytes.length = t.bytes.length) :
    s.agree t n = true ↔ Below n s t ∧ Below n t s := by
  rw [agree_iff hlen]
  constructor
  · intro h
    have hmem : ∀ i < 8 * width n, i ∈ s ↔ i ∈ t := fun i hi => by
      rw [mem_iff, mem_iff, h (i / 8) (by omega)]
    exact ⟨fun i hi hw => (hmem i hw).1 hi, fun i hi hw => (hmem i hw).2 hi⟩
  · rintro ⟨hst, hts⟩ j hj
    refine getElem?_eq_of_mem hlen fun i hi => ?_
    have hw : 8 * j + i < 8 * width n := by omega
    exact ⟨fun h => hst _ h hw, fun h => hts _ h hw⟩

theorem mem_merge_of_length (hlen : s.bytes.length = t.bytes.length) :
    i ∈ s.merge t n ↔ i ∈ s ∨ i ∈ t ∧ i < 8 * width n := by
  rw [mem_merge]
  refine or_congr_right (and_congr_right fun hi => ?_)
  have ht := div_lt_length_of_mem hi
  omega

/-! ## The laws -/

/-- The packed sets of a length in bytes. -/
abbrev OfLength (L : Nat) : Type :=
  {s : BitSet // s.bytes.length = L}

namespace OfLength

/-- A merge has the length of the set that it changes. -/
def merge (s t : OfLength L) (n : Nat) : OfLength L :=
  ⟨s.1.merge t.1 n, length_merge.trans s.2⟩

/-- Whether two sets agree on the bytes for `n` indices. -/
def Agree (n : Nat) (s t : OfLength L) : Prop :=
  s.1.agree t.1 n = true

/-- Whether a set is below another in the bytes for `n` indices. -/
def Below (n : Nat) (s t : OfLength L) : Prop :=
  s.1.Below n t.1

variable {s t u s' t' : OfLength L}

theorem agree_iff_below : Agree n s t ↔ Below n s t ∧ Below n t s :=
  BitSet.agree_iff_below (s.2.trans t.2.symm)

theorem mem_merge : i ∈ (s.merge t n).1 ↔ i ∈ s.1 ∨ i ∈ t.1 ∧ i < 8 * width n :=
  mem_merge_of_length (s.2.trans t.2.symm)

/-- A merge is the least set above both. -/
theorem merge_below_iff : Below n (s.merge t n) u ↔ Below n s u ∧ Below n t u := by
  constructor
  · intro h
    exact ⟨fun i hi hw => h i (mem_merge.2 (.inl hi)) hw,
      fun i hi hw => h i (mem_merge.2 (.inr ⟨hi, hw⟩)) hw⟩
  · rintro ⟨hs, ht⟩ i hi hw
    exact (mem_merge.1 hi).elim (fun h => hs i h hw) fun h => ht i h.1 hw

theorem below_refl (s : OfLength L) : Below n s s :=
  fun _ hi _ => hi

theorem left_below_merge : Below n s (s.merge t n) :=
  (merge_below_iff.1 (below_refl _)).1

theorem right_below_merge : Below n t (s.merge t n) :=
  (merge_below_iff.1 (below_refl _)).2

theorem merge_mono (hs : Below n s s') (ht : Below n t t') :
    Below n (s.merge t n) (s'.merge t' n) :=
  merge_below_iff.2 ⟨hs.trans left_below_merge, ht.trans right_below_merge⟩

theorem merge_assoc (s t u : OfLength L) :
    (s.merge t n).merge u n = s.merge (t.merge u n) n := by
  refine Subtype.ext (ext_of_mem ?_ fun i => ?_)
  · exact ((s.merge t n).merge u n).2.trans (s.merge (t.merge u n) n).2.symm
  · simp only [mem_merge, or_and_right, and_assoc, and_self, or_assoc]

/-- The laws of merging and agreeing on the bytes for `n` indices, for the sets of a length: a
    merge is the least upper bound for being below, and to agree is to be below each other. -/
structure MergeLaws (n L : Nat) : Prop where
  assoc (s t u : OfLength L) : (s.merge t n).merge u n = s.merge (t.merge u n) n
  comm (s t : OfLength L) : Agree n (s.merge t n) (t.merge s n)
  idem (s : OfLength L) : Agree n (s.merge s n) s
  left_below (s t : OfLength L) : Below n s (s.merge t n)
  right_below (s t : OfLength L) : Below n t (s.merge t n)
  least (s t u : OfLength L) (hs : Below n s u) (ht : Below n t u) : Below n (s.merge t n) u
  agree_iff_below (s t : OfLength L) : Agree n (s.merge t n) t ↔ Below n s t
  equivalence : Equivalence (@Agree L n)
  congr (s s' t t' : OfLength L) (hs : Agree n s s') (ht : Agree n t t') :
    Agree n (s.merge t n) (s'.merge t' n)

theorem mergeLaws (n L : Nat) : MergeLaws n L where
  assoc := merge_assoc
  comm s t := by
    have hle (x y : OfLength L) : Below n (x.merge y n) (y.merge x n) :=
      merge_below_iff.2 ⟨right_below_merge, left_below_merge⟩
    exact agree_iff_below.2 ⟨hle s t, hle t s⟩
  idem s := agree_iff_below.2
    ⟨merge_below_iff.2 ⟨below_refl s, below_refl s⟩, left_below_merge⟩
  left_below _ _ := left_below_merge
  right_below _ _ := right_below_merge
  least _ _ _ hs ht := merge_below_iff.2 ⟨hs, ht⟩
  agree_iff_below s t := by
    rw [agree_iff_below, merge_below_iff]
    constructor
    · exact fun h => h.1.1
    · exact fun h => ⟨⟨h, below_refl t⟩, right_below_merge⟩
  equivalence := by
    refine ⟨fun s => ?_, fun hst => ?_, fun hst htu => ?_⟩
    · exact agree_iff_below.2 ⟨below_refl s, below_refl s⟩
    · exact agree_iff_below.2 (agree_iff_below.1 hst).symm
    · obtain ⟨hst, hts⟩ := agree_iff_below.1 hst
      obtain ⟨htu, hut⟩ := agree_iff_below.1 htu
      exact agree_iff_below.2 ⟨hst.trans htu, hut.trans hts⟩
  congr s s' t t' hs ht := by
    obtain ⟨hs, hs'⟩ := agree_iff_below.1 hs
    obtain ⟨ht, ht'⟩ := agree_iff_below.1 ht
    exact agree_iff_below.2 ⟨merge_mono hs ht, merge_mono hs' ht'⟩

end OfLength

/-- **Merging is a union.** As long as the number of bytes for `n` indices is computed without
    a carry, a merge sets the bits of both sets in their window, leaves the other bytes and has
    the length of the first set; and among the sets of one length it is the least upper bound. -/
theorem merge_lawful (hn : n + 7 < UInt64.size) :
    ((n.toUInt64 + 7) / 8).toNat = width n ∧
    (∀ s t : BitSet, (s.merge t n).bytes.length = s.bytes.length ∧
      (∀ j < window s t n, ∃ a b, s.bytes[j]? = some a ∧ t.bytes[j]? = some b ∧
        (s.merge t n).bytes[j]? = some (a ||| b)) ∧
      (∀ j, window s t n ≤ j → (s.merge t n).bytes[j]? = s.bytes[j]?) ∧
      ∀ i, i ∈ s.merge t n ↔ i ∈ s ∨ i ∈ t ∧ i < 8 * window s t n) ∧
    ∀ L, OfLength.MergeLaws n L :=
  ⟨toNat_width hn, fun _ _ => ⟨length_merge, fun _ => getElem?_merge_of_lt,
    fun _ => getElem?_merge_of_le, fun _ => mem_merge_iff_window⟩, OfLength.mergeLaws n⟩

/-- With the largest number of indices, a merge goes as far as the shorter set. -/
theorem merge_lawful_of_largest :
    18446744073709551608 + 7 < UInt64.size ∧ window ⟨[1, 16, 255]⟩ ⟨[2]⟩ 18446744073709551608 = 1 ∧
    (merge ⟨[1, 16, 255]⟩ ⟨[2]⟩ 18446744073709551608).bytes[0]? = some 3 ∧
    (merge ⟨[1, 16, 255]⟩ ⟨[2]⟩ 18446744073709551608).bytes[1]? = some 16 ∧
    OfLength.MergeLaws 18446744073709551608 2 := by
  have hn : 18446744073709551608 + 7 < UInt64.size := by decide
  have hwindow : window ⟨[1, 16, 255]⟩ ⟨[2]⟩ 18446744073709551608 = 1 := by decide
  obtain ⟨-, hbytes, hlaws⟩ := merge_lawful hn
  obtain ⟨-, hinside, houtside, -⟩ := hbytes ⟨[1, 16, 255]⟩ ⟨[2]⟩
  obtain ⟨a, b, ha, hb, hab⟩ := hinside 0 (by rw [hwindow]; decide)
  obtain rfl : 1 = a := Option.some.inj ha
  obtain rfl : 2 = b := Option.some.inj hb
  exact ⟨hn, hwindow, hab, houtside 1 hwindow.le, hlaws 2⟩

end ScriptCore.BitSet
