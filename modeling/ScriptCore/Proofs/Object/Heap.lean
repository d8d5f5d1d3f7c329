import Mathlib.Algebra.BigOperators.Group.Multiset.Basic
import Mathlib.Data.List.ReduceOption
import Mathlib.Data.Multiset.Bind
import Mathlib.Data.Multiset.Count
import Mathlib.Tactic.SplitIfs
import ScriptCore.Object.Heap

/-!
# The objects of a heap

A heap as the multiset of its objects, and what its operations do to that: an
object is replaced by another value or count or by nothing, or one is made.

* `Heap.inner`: the references in the values of objects.
* `Heap.inner_replace`, `Heap.inner_push`: what becomes of them.
* `Heap.Change`: an elementary change moves the count of an object by one at
  most, and frees an object exactly where its count goes from 1 to 0 and its
  type is freed; what was freed stays so.
-/

namespace ScriptCore

open Object

namespace Heap

variable {h : Heap} {r : Ref} {c : Cell}

/-- Whether the object of a reference was not freed. -/
def Live (h : Heap) (r : Ref) : Prop := ∃ c, h.cell? r = some c

/-- The objects that were not freed. -/
def objects (h : Heap) : Multiset Cell := ↑h.cells.toList.reduceOption

/-- The references in the values of objects. -/
def inner (h : Heap) : Multiset Ref := h.objects.bind fun c => ↑c.value.refs

/-- The references that the heap keeps, to None and to the objects of types. -/
def kept (h : Heap) : List Ref := h.noneRef.toList ++ h.typeRefs.map (·.2)

/-- The heap with something else in the place of an object. -/
def replace (h : Heap) (r : Ref) (x : Option Cell) : Heap :=
  { h with cells := h.cells.setIfInBounds r.index x }

/-- The heap with an object made from references that are given up for it. -/
def push (h : Heap) (v : Value) : Heap :=
  { h with
    cells := h.cells.push (some ⟨v, 1⟩)
    stats := { h.stats with
      allocations := h.stats.allocations + 1
      references := h.stats.references + 1 } }

theorem lt_size_of_cell? (hc : h.cell? r = some c) : r.index < h.cells.size := by
  by_contra hr
  rw [cell?, Array.getElem?_eq_none (Nat.le_of_not_lt hr)] at hc
  cases hc

theorem Live.lt_size (hr : h.Live r) : r.index < h.cells.size :=
  let ⟨_, hc⟩ := hr
  lt_size_of_cell? hc

theorem value?_of_cell? (hc : h.cell? r = some c) : h.value? r = some c.value := by
  rw [value?, hc]
  rfl

theorem count_of_cell? (hc : h.cell? r = some c) : h.count r = c.count := by
  rw [count, hc]

theorem count_of_not_live (hr : ¬h.Live r) : h.count r = 0 := by
  rw [count]
  split
  · next c hc => exact absurd ⟨c, hc⟩ hr
  · rfl

theorem live_of_count_pos (hr : 0 < h.count r) : h.Live r := by
  by_contra hl
  rw [count_of_not_live hl] at hr
  cases hr

theorem payload?_of_value? {v : Value} (hv : h.value? r = some v) :
    h.payload? r = some v.payload := by
  rw [payload?, hv, Option.map_some]

theorem exists_value?_of_payload? {p : Payload} (hp : h.payload? r = some p) :
    ∃ v, h.value? r = some v ∧ v.payload = p :=
  Option.map_eq_some_iff.1 hp

theorem exists_cell?_of_value? {v : Value} (hv : h.value? r = some v) :
    ∃ c, h.cell? r = some c ∧ c.value = v :=
  Option.map_eq_some_iff.1 hv

theorem live_of_value? {v : Value} (hv : h.value? r = some v) : h.Live r :=
  let ⟨c, hc, _⟩ := exists_cell?_of_value? hv
  ⟨c, hc⟩

theorem mem_objects_iff : c ∈ h.objects ↔ ∃ r, h.cell? r = some c := by
  rw [objects, Multiset.mem_coe, List.reduceOption_mem_iff, Array.mem_toList_iff,
    Array.mem_iff_getElem]
  constructor
  · rintro ⟨i, hi, he⟩
    exact ⟨⟨i⟩, by rw [cell?, Array.getElem?_eq_getElem hi, he]; rfl⟩
  · rintro ⟨r, hr⟩
    have hs := lt_size_of_cell? hr
    rw [cell?, Array.getElem?_eq_getElem hs] at hr
    exact ⟨r.index, hs, hr⟩

theorem mem_inner_iff : r ∈ h.inner ↔ ∃ p v, h.value? p = some v ∧ r ∈ v.refs := by
  simp only [inner, Multiset.mem_bind, Multiset.mem_coe, mem_objects_iff]
  constructor
  · rintro ⟨c, ⟨p, hp⟩, hr⟩
    exact ⟨p, c.value, value?_of_cell? hp, hr⟩
  · rintro ⟨p, v, hp, hr⟩
    obtain ⟨c, hc, rfl⟩ := exists_cell?_of_value? hp
    exact ⟨c, ⟨p, hc⟩, hr⟩

theorem mem_kept_iff : r ∈ h.kept ↔ h.noneRef = some r ∨ ∃ t, (t, r) ∈ h.typeRefs := by
  simp [kept]

theorem card_objects : h.objects.card = h.liveCells := by
  rw [objects, liveCells, Multiset.coe_card, ← Array.countP_toList, List.countP_eq_length_filter,
    List.reduceOption_length_eq]

/-! ### Replacing an object -/

theorem cell?_replace (hr : h.Live r) (x : Option Cell) (r' : Ref) :
    (h.replace r x).cell? r' = if r' = r then x else h.cell? r' := by
  have hs := hr.lt_size
  rcases eq_or_ne r' r with rfl | hne
  · rw [if_pos rfl, cell?, replace, Array.getElem?_setIfInBounds_self_of_lt hs, Option.join_some]
  · have hi : r.index ≠ r'.index := fun hi => hne (by cases r; cases r'; exact congrArg _ hi.symm)
    rw [if_neg hne, cell?, replace, Array.getElem?_setIfInBounds_ne hi, cell?]

theorem value?_replace (hr : h.Live r) (x : Option Cell) (r' : Ref) :
    (h.replace r x).value? r' = if r' = r then x.map (·.value) else h.value? r' := by
  rw [value?, cell?_replace hr, apply_ite (Option.map _)]
  rfl

theorem value?_replace_cases (hr : h.Live r) {x : Option Cell} {r' : Ref} {v : Value}
    (hv : (h.replace r x).value? r' = some v) :
    (r' = r ∧ ∃ c ∈ x, c.value = v) ∨ r' ≠ r ∧ h.value? r' = some v := by
  rw [value?_replace hr] at hv
  split_ifs at hv with hr'
  · exact .inl ⟨hr', Option.map_eq_some_iff.1 hv⟩
  · exact .inr ⟨hr', hv⟩

theorem count_replace (hr : h.Live r) (x : Option Cell) (r' : Ref) :
    (h.replace r x).count r' = if r' = r then (x.map (·.count)).getD 0 else h.count r' := by
  rw [count, cell?_replace hr]
  split_ifs
  · cases x <;> rfl
  · rfl

theorem replace_self (hc : h.cell? r = some c) : h.replace r (some c) = h := by
  have hs := lt_size_of_cell? hc
  rw [cell?, Array.getElem?_eq_getElem hs, Option.join_some] at hc
  have he : h.cells.setIfInBounds r.index (some c) = h.cells := by
    rw [← hc, Array.setIfInBounds, dif_pos hs, Array.set_getElem_self]
  rw [replace, he]

/-- The objects beside one stay when something else takes its place. -/
theorem exists_objects_replace (hc : h.cell? r = some c) : ∃ rest : Multiset Cell,
    h.objects = c ::ₘ rest ∧ ∀ x : Option Cell, (h.replace r x).objects = ↑x.toList + rest := by
  have hs : r.index < h.cells.toList.length := by simpa using lt_size_of_cell? hc
  have hx : ∀ x : Option Cell, (h.replace r x).objects = ↑x.toList +
      ↑(h.cells.toList.take r.index ++ h.cells.toList.drop (r.index + 1)).reduceOption := by
    intro x
    rw [objects, replace, Array.toList_setIfInBounds, List.set_eq_take_append_cons_drop, if_pos hs,
      List.reduceOption_append, List.reduceOption_append, Multiset.coe_add, Multiset.coe_eq_coe]
    have hd : (x :: h.cells.toList.drop (r.index + 1)).reduceOption =
        x.toList ++ (h.cells.toList.drop (r.index + 1)).reduceOption := by cases x <;> rfl
    rw [hd]
    exact List.perm_append_comm_assoc _ _ _
  refine ⟨_, ?_, hx⟩
  conv_lhs => rw [← replace_self hc]
  exact (hx (some c)).trans (Multiset.singleton_add _ _)

theorem inner_replace (hc : h.cell? r = some c) (x : Option Cell) :
    (h.replace r x).inner + ↑c.value.refs = ↑(x.toList.flatMap (·.value.refs)) + h.inner := by
  obtain ⟨rest, ho, hx⟩ := exists_objects_replace hc
  rw [inner, inner, ho, hx, Multiset.add_bind, Multiset.cons_bind, Multiset.coe_bind]
  rw [Multiset.add_assoc, Multiset.add_comm (rest.bind _)]

theorem sum_count_replace (hc : h.cell? r = some c) (x : Option Cell) :
    ((h.replace r x).objects.map (·.count)).sum + c.count =
      (x.map (·.count)).getD 0 + (h.objects.map (·.count)).sum := by
  obtain ⟨rest, ho, hx⟩ := exists_objects_replace hc
  rw [ho, hx, Multiset.map_add, Multiset.sum_add, Multiset.map_cons, Multiset.sum_cons]
  cases x
  · simp [Nat.add_comm]
  · simp [Nat.add_comm, Nat.add_left_comm]

theorem card_objects_replace (hc : h.cell? r = some c) (x : Option Cell) :
    (h.replace r x).objects.card + 1 = x.toList.length + h.objects.card := by
  obtain ⟨rest, ho, hx⟩ := exists_objects_replace hc
  rw [ho, hx, Multiset.card_add, Multiset.card_cons, Multiset.coe_card, Nat.add_assoc]

theorem modify_eq_replace (hc : h.cell? r = some c) (f : Cell → Cell) :
    h.cells.modify r.index (·.map f) = (h.replace r (some (f c))).cells := by
  have hs := lt_size_of_cell? hc
  rw [cell?, Array.getElem?_eq_getElem hs, Option.join_some] at hc
  refine Array.ext_getElem? fun i => ?_
  rw [Array.getElem?_modify, replace, Array.getElem?_setIfInBounds]
  split
  · next heq =>
    subst heq
    rw [Array.getElem?_eq_getElem hs, hc]
    rfl
  · rfl

theorem retain_eq (hc : h.cell? r = some c) :
    h.retain r = { h.replace r (some { c with count := c.count + 1 }) with
      stats := { h.stats with references := h.stats.references + 1 } } := by
  rw [retain, modify_eq_replace hc]
  rfl

theorem setPayload_eq (hc : h.cell? r = some c) (p : Payload) :
    h.setPayload r p = h.replace r (some { c with value := { c.value with payload := p } }) := by
  rw [setPayload, modify_eq_replace hc]
  rfl

theorem forget_of_freed (hc : h.cell? r = some c) (h1 : c.count = 1)
    (hf : c.value.type.isFreed = true) :
    h.forget r = (c.value.refs, { h.replace r none with
      stats := { h.stats with
        references := h.stats.references - 1
        deallocations := h.stats.deallocations + 1 }
      freedTags := h.freedTags ++ c.value.tag?.toList }) := by
  have hs := lt_size_of_cell? hc
  rw [cell?, Array.getElem?_eq_getElem hs, Option.join_some] at hc
  rw [forget, dif_pos hs]
  simp only [hc, h1, hf, and_self, if_true, replace, Array.setIfInBounds, hs, dif_pos]

theorem forget_of_not_freed (hc : h.cell? r = some c)
    (hn : ¬(c.count = 1 ∧ c.value.type.isFreed = true)) :
    h.forget r = ([], { h.replace r (some { c with count := c.count - 1 }) with
      stats := { h.stats with references := h.stats.references - 1 } }) := by
  have hs := lt_size_of_cell? hc
  rw [cell?, Array.getElem?_eq_getElem hs, Option.join_some] at hc
  rw [forget, dif_pos hs]
  simp only [hc, hn, if_false, replace, Array.setIfInBounds, hs, dif_pos]

/-! ### Forgetting references -/

theorem forget_of_not_live (hr : ¬h.Live r) : h.forget r = ([], h) := by
  rw [forget]
  split
  · next hs =>
    split
    · next c hc => exact absurd ⟨c, by rw [cell?, Array.getElem?_eq_getElem hs, hc]; rfl⟩ hr
    · rfl
  · rfl

theorem value?_of_forget {p : Ref} {v : Value} (hv : (h.forget r).2.value? p = some v) :
    h.value? p = some v := by
  by_cases hr : h.Live r
  · obtain ⟨c, hc⟩ := hr
    by_cases hf : c.count = 1 ∧ c.value.type.isFreed = true
    · rw [forget_of_freed hc hf.1 hf.2] at hv
      change (h.replace r none).value? p = some v at hv
      rw [value?_replace ⟨c, hc⟩] at hv
      split_ifs at hv
      · cases hv
      · exact hv
    · rw [forget_of_not_freed hc hf] at hv
      change (h.replace r (some { c with count := c.count - 1 })).value? p = some v at hv
      rw [value?_replace ⟨c, hc⟩] at hv
      split_ifs at hv with hp
      · rw [hp, value?_of_cell? hc]
        exact hv
      · exact hv
  · rwa [forget_of_not_live hr] at hv

theorem cell?_forget_of_ne {p : Ref} (hp : p ≠ r) : (h.forget r).2.cell? p = h.cell? p := by
  by_cases hr : h.Live r
  · obtain ⟨c, hc⟩ := hr
    by_cases hf : c.count = 1 ∧ c.value.type.isFreed = true
    · rw [forget_of_freed hc hf.1 hf.2]
      show (h.replace r none).cell? p = _
      rw [cell?_replace ⟨c, hc⟩, if_neg hp]
    · rw [forget_of_not_freed hc hf]
      show (h.replace r (some { c with count := c.count - 1 })).cell? p = _
      rw [cell?_replace ⟨c, hc⟩, if_neg hp]
  · rw [forget_of_not_live hr]

theorem value?_of_releaseAll {rs : List Ref} {p : Ref} {v : Value}
    (hv : (releaseAll rs h).value? p = some v) : h.value? p = some v := by
  induction rs, h using releaseAll.induct with
  | case1 h => rwa [releaseAll] at hv
  | case2 h r rs ih =>
    rw [releaseAll] at hv
    exact value?_of_forget (ih hv)

/-! ### Making an object -/

theorem cell?_push (v : Value) (r : Ref) :
    (h.push v).cell? r = if r.index = h.cells.size then some ⟨v, 1⟩ else h.cell? r := by
  rw [cell?, push, Array.getElem?_push]
  split <;> rfl

theorem count_push (v : Value) (r : Ref) :
    (h.push v).count r = if r = ⟨h.cells.size⟩ then 1 else h.count r := by
  have hr : r = ⟨h.cells.size⟩ ↔ r.index = h.cells.size :=
    ⟨congrArg Ref.index, congrArg Ref.mk⟩
  rw [count, cell?_push, count]
  simp only [hr]
  split_ifs <;> rfl

theorem value?_push_self (h : Heap) (v : Value) : (h.push v).value? ⟨h.cells.size⟩ = some v := by
  rw [value?, cell?_push, if_pos rfl]
  rfl

theorem value?_push_of_live (hr : h.Live r) (v : Value) : (h.push v).value? r = h.value? r := by
  rw [value?, cell?_push, if_neg hr.lt_size.ne, value?]

theorem value?_push_cases {v w : Value} (hw : (h.push v).value? r = some w) :
    r = ⟨h.cells.size⟩ ∧ w = v ∨ h.value? r = some w := by
  rw [value?, cell?_push] at hw
  split at hw
  · next hr => exact .inl ⟨congrArg Ref.mk hr, (Option.some.inj hw).symm⟩
  · exact .inr hw

theorem objects_push (v : Value) : (h.push v).objects = ⟨v, 1⟩ ::ₘ h.objects := by
  rw [objects, push, Array.toList_push, List.reduceOption_append, ← Multiset.coe_add, add_comm]
  rfl

theorem inner_push (v : Value) : (h.push v).inner = ↑v.refs + h.inner := by
  rw [inner, objects_push, Multiset.cons_bind]
  rfl

theorem sum_count_push (v : Value) :
    ((h.push v).objects.map (·.count)).sum = (h.objects.map (·.count)).sum + 1 := by
  rw [objects_push, Multiset.map_cons, Multiset.sum_cons, Nat.add_comm]

theorem card_objects_push (v : Value) : (h.push v).objects.card = h.objects.card + 1 := by
  rw [objects_push, Multiset.card_cons]

/-- A reference more changes no value. -/
theorem value?_retain (h : Heap) (r : Ref) : (h.retain r).value? = h.value? := by
  funext x
  rw [value?, value?, cell?, cell?, retain, Array.getElem?_modify]
  split
  · rcases h.cells[x.index]? with _ | _ | _ <;> rfl
  · rfl

theorem live_iff_value? : h.Live r ↔ ∃ v, h.value? r = some v := by
  constructor
  · rintro ⟨c, hc⟩
    exact ⟨c.value, value?_of_cell? hc⟩
  · rintro ⟨v, hv⟩
    exact live_of_value? hv

theorem Live.retain {x : Ref} (hx : h.Live x) (r : Ref) : (h.retain r).Live x := by
  rw [live_iff_value?, value?_retain]
  exact live_iff_value?.1 hx

theorem value?_foldl_retain (rs : List Ref) (h : Heap) :
    (rs.foldl retain h).value? = h.value? := by
  induction rs generalizing h with
  | nil => rfl
  | cons r rs ih => exact (ih (h.retain r)).trans (value?_retain h r)

theorem value?_setPayload {v : Value} (hv : h.value? r = some v) (p : Payload) (x : Ref) :
    (h.setPayload r p).value? x =
      if x = r then some { v with payload := p } else h.value? x := by
  obtain ⟨c, hc, rfl⟩ := exists_cell?_of_value? hv
  rw [setPayload_eq hc, value?_replace ⟨c, hc⟩]
  rfl

theorem size_foldl_retain (rs : List Ref) (h : Heap) :
    (rs.foldl retain h).cells.size = h.cells.size := by
  induction rs generalizing h with
  | nil => rfl
  | cons r rs ih => exact (ih (h.retain r)).trans Array.size_modify

theorem alloc_eq (h : Heap) (v : Value) :
    h.alloc v = (⟨h.cells.size⟩, (v.refs.foldl retain h).push v) := by
  rw [alloc, size_foldl_retain]
  rfl

/-! ## Changes of a heap -/

/-- An elementary change of a heap: no count moves by more than one, an object
    is freed exactly where its count goes from 1 to 0 and its type is freed, and
    what was freed stays so. -/
structure Change (h h' : Heap) : Prop where
  size_le : h.cells.size ≤ h'.cells.size
  count_le : ∀ r, h'.count r ≤ h.count r + 1
  le_count : ∀ r, h.count r ≤ h'.count r + 1
  type_eq : ∀ r v v', h.value? r = some v → h'.value? r = some v' → v'.type = v.type
  freed_iff : ∀ r v, h.value? r = some v →
    (¬h'.Live r ↔ h.count r = 1 ∧ h'.count r = 0 ∧ v.type.isFreed = true)
  stays_freed : ∀ r, r.index < h.cells.size → ¬h.Live r → ¬h'.Live r

/-- How one object changes, or comes or goes. -/
inductive CellChange : Option Cell → Option Cell → Prop
  | same (x : Option Cell) : CellChange x x
  | count {c c' : Cell} (htype : c'.value.type = c.value.type)
    (hle : c'.count ≤ c.count + 1) (hge : c.count ≤ c'.count + 1)
    (hkeep : c.count = 1 → c'.count = 0 → c.value.type.isFreed = false) :
    CellChange (some c) (some c')
  | free {c : Cell} (h1 : c.count = 1) (hf : c.value.type.isFreed = true) :
    CellChange (some c) none
  | make (v : Value) : CellChange none (some ⟨v, 1⟩)

namespace CellChange

variable {x y : Option Cell} {c c' : Cell}

theorem count_le (h : CellChange x y) :
    (y.map (·.count)).getD 0 ≤ (x.map (·.count)).getD 0 + 1 := by
  cases h with
  | same => omega
  | count _ hle => exact hle
  | free => exact Nat.zero_le _
  | make => exact Nat.le_refl 1

theorem le_count (h : CellChange x y) :
    (x.map (·.count)).getD 0 ≤ (y.map (·.count)).getD 0 + 1 := by
  cases h with
  | same => omega
  | count _ _ hge => exact hge
  | free h1 => exact h1.le
  | make => exact Nat.zero_le _

theorem type_eq (h : CellChange (some c) (some c')) : c'.value.type = c.value.type := by
  cases h with
  | same => rfl
  | count htype => exact htype

theorem eq_none_iff (h : CellChange (some c) y) : y = none ↔
    c.count = 1 ∧ (y.map (·.count)).getD 0 = 0 ∧ c.value.type.isFreed = true := by
  cases h with
  | same =>
    refine iff_of_false (by simp) fun h => ?_
    simp [h.1] at h
  | count _ _ _ hkeep =>
    refine iff_of_false (by simp) fun ⟨h1, h0, hf⟩ => ?_
    rw [hkeep h1 h0] at hf
    cases hf
  | free h1 hf => exact iff_of_true rfl ⟨h1, rfl, hf⟩

end CellChange

theorem count_eq_getD (h : Heap) (r : Ref) :
    h.count r = ((h.cell? r).map (·.count)).getD 0 := by
  rw [count]
  cases h.cell? r <;> rfl

theorem not_live_iff : ¬h.Live r ↔ h.cell? r = none := by
  rw [Live, Option.eq_none_iff_forall_ne_some, not_exists]

/-- A change is elementary if that of each object is. -/
theorem Change.of_cells {h' : Heap} (hsize : h.cells.size ≤ h'.cells.size)
    (hcells : ∀ r, CellChange (h.cell? r) (h'.cell? r))
    (hgone : ∀ r, r.index < h.cells.size → ¬h.Live r → ¬h'.Live r) : h.Change h' := by
  refine ⟨hsize, fun r => ?_, fun r => ?_, fun r v v' hv hv' => ?_, fun r v hv => ?_, hgone⟩
  · rw [count_eq_getD, count_eq_getD]
    exact (hcells r).count_le
  · rw [count_eq_getD, count_eq_getD]
    exact (hcells r).le_count
  · obtain ⟨c, hc, rfl⟩ := exists_cell?_of_value? hv
    obtain ⟨c', hc', rfl⟩ := exists_cell?_of_value? hv'
    have hr := hcells r
    rw [hc, hc'] at hr
    exact hr.type_eq
  · obtain ⟨c, hc, rfl⟩ := exists_cell?_of_value? hv
    have hr := hcells r
    rw [hc] at hr
    rw [not_live_iff, count_of_cell? hc, count_eq_getD]
    exact hr.eq_none_iff

/-- A change that leaves all objects as they are. -/
theorem Change.of_cells_eq {h' : Heap} (hh : h'.cells = h.cells) : h.Change h' := by
  have hcell : h'.cell? = h.cell? := by
    funext r
    rw [cell?, cell?, hh]
  refine .of_cells (by rw [hh]) (fun r => hcell ▸ .same _) fun r _ hr => ?_
  rwa [Live, hcell]

/-- A change of one object. -/
theorem Change.of_replace {h' : Heap} {x : Option Cell} (hc : h.cell? r = some c)
    (hh : h'.cells = (h.replace r x).cells) (hx : CellChange (some c) x) : h.Change h' := by
  have hcell : ∀ r', h'.cell? r' = if r' = r then x else h.cell? r' := fun r' => by
    rw [← cell?_replace ⟨c, hc⟩, cell?, cell?, hh]
  refine .of_cells (by rw [hh, replace, Array.size_setIfInBounds]) (fun r' => ?_)
    fun r' _ hr => ?_
  · rw [hcell]
    split_ifs with hr
    · rwa [hr, hc]
    · exact .same _
  · have hne : r' ≠ r := by rintro rfl; exact hr ⟨c, hc⟩
    rwa [Live, hcell, if_neg hne]

/-- A change of the entries of a dictionary. -/
theorem Change.setDict {entries : NameMap Ref} (hd : h.value? r = some (.dict entries))
    (entries' : NameMap Ref) : h.Change (h.setPayload r (.dict entries')) := by
  obtain ⟨c, hc, hv⟩ := exists_cell?_of_value? hd
  refine .of_replace hc (by rw [setPayload_eq hc]) ?_
  refine .count rfl (Nat.le_succ _) (Nat.le_succ _) fun h1 h0 => ?_
  cases h1.symm.trans h0

/-- A change that makes an object. -/
theorem Change.push (h : Heap) (v : Value) : h.Change (h.push v) := by
  refine .of_cells (by rw [Heap.push, Array.size_push]; omega) (fun r => ?_) fun r hlt hr => ?_
  · rw [cell?_push]
    split_ifs with hr
    · rw [cell?, Array.getElem?_eq_none hr.ge, Option.join_none]
      exact .make v
    · exact .same _
  · rwa [Live, cell?_push, if_neg hlt.ne]

end Heap

end ScriptCore
