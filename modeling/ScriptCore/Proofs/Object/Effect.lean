import ScriptCore.Proofs.Object.Account

/-!
# Effects

What operations do to a heap. Apart from stores, removals and releases, they build what they
answer with: they make and free some objects in between, they may have None or the object of a
type made, and they come by references to objects that are there, or make new ones that take
over such references.

* `Heap.spent`: the heap after objects were made and freed.
* `Heap.withNone`, `Heap.withType`: the heap with None, or with the object of a type.
* `Heap.write`: the heap after a store or a removal.
* `Heap.Obtained`: the references that an operation comes by; those to the attributes of a
  member are not among them.
* `Heap.Builds`: what is built in the end.
-/

namespace ScriptCore

open Object

namespace Heap

variable {h : Heap} {r x : Ref} {c : Cell} {v : Value}

/-! ## Objects made and freed -/

/-- The heap after `n` objects were made and freed. -/
def spent (h : Heap) (n : Nat) : Heap :=
  { h with
    cells := h.cells ++ Array.replicate n none
    stats := { h.stats with
      allocations := h.stats.allocations + n
      deallocations := h.stats.deallocations + n } }

@[simp] theorem spent_zero (h : Heap) : h.spent 0 = h := by
  simp [spent]

theorem spent_spent (h : Heap) (m n : Nat) : (h.spent m).spent n = h.spent (m + n) := by
  simp [spent, Nat.add_assoc]

@[simp] theorem cell?_spent (h : Heap) (n : Nat) : (h.spent n).cell? = h.cell? := by
  funext r
  rw [cell?, cell?, spent, Array.getElem?_append]
  split
  · rfl
  · next hr =>
    rw [Array.getElem?_eq_none (Nat.le_of_not_lt hr), Array.getElem?_replicate]
    split <;> rfl

@[simp] theorem value?_spent (h : Heap) (n : Nat) : (h.spent n).value? = h.value? := by
  funext r
  rw [value?, cell?_spent, value?]

@[simp] theorem size_spent (h : Heap) (n : Nat) : (h.spent n).cells.size = h.cells.size + n := by
  simp [spent]

theorem forget_push_string (h : Heap) (text : Bytes) :
    (h.push (.string text)).forget ⟨h.cells.size⟩ = ([], h.spent 1) := by
  have hc : (h.push (.string text)).cell? ⟨h.cells.size⟩ = some ⟨.string text, 1⟩ := by
    rw [cell?_push, if_pos rfl]
  rw [forget_of_freed hc rfl rfl]
  simp only [replace, push, spent, Payload.refs, Payload.tag?, Option.toList_none, List.append_nil,
    Nat.add_sub_cancel]
  congr 2
  refine Array.ext_getElem? fun i => ?_
  rw [Array.getElem?_setIfInBounds, Array.getElem?_push]
  grind

/-- A string that is made and released is one of the objects made and freed. -/
theorem release_alloc_string (h : Heap) (text : Bytes) :
    (h.alloc (.string text)).2.release (h.alloc (.string text)).1 = h.spent 1 := by
  have halloc : h.alloc (.string text) = (⟨h.cells.size⟩, h.push (.string text)) := alloc_eq h _
  rw [halloc, release, releaseAll, forget_push_string]
  exact releaseAll.eq_1 _

/-! ## References taken and given up again -/

theorem cell?_retain (hr : h.Live r) (x : Ref) : (h.retain r).cell? x =
    if x = r then (h.cell? x).map fun c => { c with count := c.count + 1 } else h.cell? x := by
  obtain ⟨c, hc⟩ := hr
  rw [retain_eq hc]
  show (h.replace r _).cell? x = _
  rw [cell?_replace ⟨c, hc⟩]
  split
  · next hx => rw [hx, hc, Option.map_some]
  · rfl

theorem count_retain (hr : h.Live r) (x : Ref) :
    (h.retain r).count x = h.count x + if x = r then 1 else 0 := by
  rw [count_eq_getD, count_eq_getD, cell?_retain hr]
  split
  · next hx =>
    obtain ⟨c, hc⟩ := hr
    rw [hx, hc]
    rfl
  · rfl

theorem retain_comm (h : Heap) (r x : Ref) : (h.retain r).retain x = (h.retain x).retain r := by
  simp only [retain]
  congr 1
  refine Array.ext_getElem? fun i => ?_
  simp only [Array.getElem?_modify]
  split <;> split <;> rfl

/-- A reference that is taken while an object is made, and given up again. -/
theorem release_push_retain (hc : h.cell? r = some c) (hpos : 0 < c.count) (v : Value) :
    ((h.retain r).push v).release r = h.push v := by
  have hs := lt_size_of_cell? hc
  have hc' : ((h.retain r).push v).cell? r = some { c with count := c.count + 1 } := by
    have hne : r.index ≠ (h.retain r).cells.size := by
      rw [retain, Array.size_modify]
      exact hs.ne
    rw [cell?_push, if_neg hne, cell?_retain ⟨c, hc⟩, if_pos rfl, hc, Option.map_some]
  have hcount : ¬(c.count + 1 = 1 ∧ c.value.type.isFreed = true) := fun hf => by omega
  rw [release, releaseAll, forget_of_not_freed hc' hcount]
  show releaseAll [] _ = _
  rw [releaseAll, retain_eq hc]
  rw [cell?, Array.getElem?_eq_getElem hs, Option.join_some] at hc
  simp only [replace, push, Nat.add_sub_cancel]
  congr 1
  obtain ⟨w, n⟩ := c
  refine Array.ext_getElem? fun i => ?_
  simp only [Array.getElem?_setIfInBounds, Array.getElem?_push, Array.size_setIfInBounds,
    Array.size_push]
  grind

/-! ## Objects made on demand -/

/-- The heap with None in it. -/
def withNone (h : Heap) : Heap :=
  match h.noneRef with
  | some _ => h
  | none => { h.push .none with noneRef := some ⟨h.cells.size⟩ }

/-- The heap with the object of a type in it. -/
def withType (h : Heap) (t : ObjectType) : Heap :=
  match h.typeRefs.lookup t with
  | some _ => h
  | none => { h.push (.typeObject t) with typeRefs := (t, ⟨h.cells.size⟩) :: h.typeRefs }

theorem exists_shareNone_eq (h : Heap) :
    ∃ r, r ∈ h.withNone.kept ∧ h.shareNone = (r, h.withNone.retain r) := by
  cases hn : h.noneRef with
  | some r =>
    have hw : h.withNone = h := by rw [withNone, hn]
    rw [hw, shareNone, hn]
    exact ⟨r, mem_kept_iff.2 (.inl hn), rfl⟩
  | none =>
    have hw : h.withNone = { h.push .none with noneRef := some ⟨h.cells.size⟩ } := by
      rw [withNone, hn]
    have halloc : h.alloc .none = (⟨h.cells.size⟩, h.push .none) := alloc_eq h _
    rw [hw, shareNone, hn, halloc]
    exact ⟨_, mem_kept_iff.2 (.inl rfl), rfl⟩

theorem exists_shareType_eq (h : Heap) (t : ObjectType) :
    ∃ r, r ∈ (h.withType t).kept ∧ h.shareType t = (r, (h.withType t).retain r) := by
  cases ht : h.typeRefs.lookup t with
  | some r =>
    have hw : h.withType t = h := by rw [withType, ht]
    obtain ⟨l₁, l₂, hl, -⟩ := List.lookup_eq_some_iff.1 ht
    rw [hw, shareType, ht]
    exact ⟨r, mem_kept_iff.2 (.inr ⟨t, by simp [hl]⟩), rfl⟩
  | none =>
    have hw : h.withType t =
        { h.push (.typeObject t) with typeRefs := (t, ⟨h.cells.size⟩) :: h.typeRefs } := by
      rw [withType, ht]
    have halloc : h.alloc (.typeObject t) = (⟨h.cells.size⟩, h.push (.typeObject t)) :=
      alloc_eq h _
    rw [hw, shareType, ht, halloc]
    exact ⟨_, mem_kept_iff.2 (.inr ⟨t, List.mem_cons_self⟩), rfl⟩

/-! ## Stores and removals -/

/-- The heap with an object stored in a dictionary under a name, or with what is there
    removed; what was there before is released. -/
def write (h : Heap) (d : Ref) (entries : NameMap Ref) (name : String) : Option Ref → Heap
  | some x =>
    releaseAll (entries.find? name).toList ((h.retain x).setPayload d (.dict (entries.insert name x)))
  | none => releaseAll (entries.find? name).toList (h.setPayload d (.dict (entries.erase name)))

/-! ## What is built -/

/-- Whether an object is there and has a type. -/
def HasType (h : Heap) (r : Ref) (t : ObjectType) : Prop := ∃ v, h.value? r = some v ∧ v.type = t

/-- Whether a payload suits the type that comes with it, and the objects that it refers to are
    what they have to be: the methods of a class are a dictionary and its bases classes, a
    member has a class, and a dictionary of attributes, and what is bound is a function. -/
def Fits (h : Heap) : Value → Prop
  | .userClass bases methods => h.HasType methods .dict ∧
    ∀ b ∈ bases, ∃ items, h.value? b = some (.tuple items) ∧ ∀ x ∈ items, h.HasType x .userClass
  | .member c attributes => h.HasType c .userClass ∧ h.HasType attributes .dict
  | .boundMethod f _ => h.HasType f .function
  | v => v.isSuited = true

theorem Fits.isSuited {h : Heap} {v : Value} (hv : h.Fits v) : v.isSuited = true := by
  unfold Fits at hv
  split at hv
  · rfl
  · rfl
  · rfl
  · exact hv

theorem HasType.congr {h h' : Heap} {r : Ref} {t : ObjectType} (hvalue : h'.value? = h.value?) :
    h'.HasType r t ↔ h.HasType r t := by
  rw [HasType, HasType, hvalue]

theorem Fits.congr {h h' : Heap} {v : Value} (hvalue : h'.value? = h.value?) :
    h'.Fits v ↔ h.Fits v := by
  unfold Fits
  split <;> simp only [HasType.congr hvalue, hvalue]

/-- Whether all objects have payloads that suit their types. -/
def Paired (h : Heap) : Prop := ∀ r v, h.value? r = some v → v.isSuited = true

theorem HasType.exists_payload {h : Heap} {r : Ref} {t : ObjectType} (hh : h.Paired)
    (hr : h.HasType r t) : ∃ p, h.value? r = some ⟨t, p⟩ ∧ p.suits t = true := by
  obtain ⟨⟨_, p⟩, hv, rfl⟩ := hr
  exact ⟨p, hv, hh r _ hv⟩

/-- Among objects whose payloads suit their types, the payload tells the type, unless that is a
    foreign one. -/
theorem Paired.value?_of_payload? {h : Heap} {r : Ref} {v : Value} (hh : h.Paired)
    (hp : h.payload? r = some v.payload) (hs : v.isSuited = true)
    (hforeign : ∀ tag items, v.payload ≠ .foreign tag items) : h.value? r = some v := by
  obtain ⟨w, hw, hpayload⟩ := exists_value?_of_payload? hp
  have hsw := hh r w hw
  suffices hwv : w = v by rw [hw, hwv]
  cases v with
  | foreign t tag items => exact absurd rfl (hforeign tag items)
  | unsuited t q hq => exact absurd hs (Bool.eq_false_iff.1 hq)
  | _ =>
    cases w with
    | unsuited t q hq => exact absurd hsw (Bool.eq_false_iff.1 hq)
    | _ => cases hpayload <;> rfl

end Heap

namespace Object

/-- Whether a payload can be that of a new object, other than a member: a new dictionary has no
    entries. -/
def Payload.Fresh : Payload → Prop
  | member .. => False
  | dict entries => entries = .empty
  | _ => True

/-- A value that refers to nothing fits, and can be that of a new object. -/
theorem Value.fits_of_refs_eq_nil {h : Heap} {v : Value} (hs : v.isSuited = true)
    (hv : v.refs = []) : h.Fits v ∧ v.payload.Fresh := by
  cases v with
  | userClass bases methods =>
    exact absurd hv (List.append_ne_nil_of_right_ne_nil _ (List.cons_ne_nil _ _))
  | member | boundMethod => cases hv
  | dict entries =>
    obtain ⟨es, hsorted⟩ := entries
    obtain rfl := List.map_eq_nil_iff.1 hv
    exact ⟨hs, rfl⟩
  | unsuited t p hp => exact absurd hs (Bool.eq_false_iff.1 hp)
  | _ => exact ⟨hs, trivial⟩

/-- The references in a payload that operations hand out: all but that to the attributes of a
    member. -/
def Payload.offered : Payload → List Ref
  | member c _ => [c]
  | p => p.refs

theorem Payload.offered_subset (p : Payload) : p.offered ⊆ p.refs := by
  cases p with
  | member c attributes => exact List.cons_subset_cons c (List.nil_subset _)
  | _ => exact List.Subset.refl _

end Object

namespace Heap

variable {h h' : Heap} {r : Ref} {operands rs : List Ref}

/-- The references that an operation comes by: its operands, those that the heap keeps, and
    those that values offer. -/
inductive Obtained (h : Heap) (operands : List Ref) : Ref → Prop
  | operand {r : Ref} (hr : r ∈ operands) : Obtained h operands r
  | kept {r : Ref} (hr : r ∈ h.kept) : Obtained h operands r
  | offered {p r : Ref} {q : Payload} (hq : h.payload? p = some q) (hr : r ∈ q.offered) :
    Obtained h operands r

theorem Obtained.congr (hr : h.Obtained operands r)
    (hvalue : ∀ p v, h.value? p = some v → h'.value? p = some v)
    (hkept : ∀ p, p ∈ h.kept → p ∈ h'.kept) : h'.Obtained operands r := by
  cases hr with
  | operand hr => exact .operand hr
  | kept hr => exact .kept (hkept _ hr)
  | offered hq hr =>
    obtain ⟨v, hv, rfl⟩ := exists_value?_of_payload? hq
    exact .offered (payload?_of_value? (hvalue _ _ hv)) hr

theorem Obtained.mono {operands' : List Ref} (hr : h.Obtained operands r)
    (ho : operands ⊆ operands') : h.Obtained operands' r := by
  cases hr with
  | operand hr => exact .operand (ho hr)
  | kept hr => exact .kept hr
  | offered hv hr => exact .offered hv hr

theorem Obtained.retain (hr : h.Obtained operands r) (x : Ref) :
    (h.retain x).Obtained operands r :=
  hr.congr (fun p _ hv => (congrFun (h.value?_retain x) p).trans hv) fun _ hp => hp

/-- What is built on a heap: handles, each to an object that was come by, or to a new one, that
    took over the handles to what it refers to. -/
inductive Builds (h : Heap) (operands : List Ref) : List Ref → Heap → Prop
  | nothing : Builds h operands [] h
  /-- Objects are made and freed. -/
  | spent {rs : List Ref} {h' : Heap} (hb : Builds h operands rs h') (n : Nat) :
    Builds h operands rs (h'.spent n)
  | withNone {rs : List Ref} {h' : Heap} (hb : Builds h operands rs h') :
    Builds h operands rs h'.withNone
  | withType {rs : List Ref} {h' : Heap} (hb : Builds h operands rs h') (t : ObjectType) :
    Builds h operands rs (h'.withType t)
  | perm {rs rs' : List Ref} {h' : Heap} (hb : Builds h operands rs h') (hp : rs.Perm rs') :
    Builds h operands rs' h'
  | share {rs : List Ref} {h' : Heap} {r : Ref} (hb : Builds h operands rs h')
    (hr : h'.Obtained (rs ++ operands) r) : Builds h operands (r :: rs) (h'.retain r)
  | make {rs : List Ref} {h' : Heap} {v : Value} (hb : Builds h operands (v.refs ++ rs) h')
    (hv : h'.Fits v) (hfresh : v.payload.Fresh) :
    Builds h operands (⟨h'.cells.size⟩ :: rs) (h'.push v)
  /-- A member is made with a dictionary that nothing else refers to. -/
  | member {rs : List Ref} {h' : Heap} {c : Ref} (hb : Builds h operands rs h')
    (hc : h'.HasType c .userClass) (hr : h'.Obtained (rs ++ operands) c) :
    Builds h operands (⟨h'.cells.size + 1⟩ :: rs)
      (((h'.push (.dict .empty)).retain c).push (.member c ⟨h'.cells.size⟩))

theorem Builds.shareAll {xs : List Ref} (hb : h.Builds operands rs h')
    (hxs : ∀ x ∈ xs, h'.Obtained operands x) :
    h.Builds operands (xs ++ rs) (xs.foldl Heap.retain h') := by
  induction xs generalizing rs h' with
  | nil => exact hb
  | cons x xs ih =>
    obtain ⟨hx, hxs⟩ := List.forall_mem_cons.1 hxs
    have hshare := hb.share (hx.mono (List.subset_append_right rs operands))
    exact (ih hshare fun y hy => (hxs y hy).retain x).perm List.perm_middle

/-- An object is made from references that were come by. -/
theorem Builds.makeOf {v : Value} (hb : h.Builds operands rs h') (hv : h'.Fits v)
    (hfresh : v.payload.Fresh) (hrefs : ∀ x ∈ v.refs, h'.Obtained operands x) :
    h.Builds operands (⟨h'.cells.size⟩ :: rs) ((v.refs.foldl Heap.retain h').push v) := by
  have hmake := (hb.shareAll hrefs).make ((Fits.congr (value?_foldl_retain _ _)).2 hv) hfresh
  rwa [size_foldl_retain] at hmake

end Heap

end ScriptCore
