import Mathlib.Logic.Relation
import ScriptCore.Object.Session
import ScriptCore.Proofs.NameMap
import ScriptCore.Proofs.Object.Heap

/-!
# Accounts

An *account* is a heap together with the references to its objects that are
held outside: by slots, or by an operation that is under way. It changes by
elementary steps (`Account.Step`): a reference is shared, an object is made
from references that are held, a reference moves into a dictionary or out of
it, is handed over to the heap, or is forgotten; an object freed by that hands
over the references in its value.

* `Account.Balanced`: every object is counted exactly, by the references held,
  those in the values of objects, and those that the heap keeps; the totals are
  those of the objects; what is left with the count 0 is never freed; and only
  dictionaries refer to younger objects.
* `Account.Step.balanced`, `Account.Run.balanced`: steps keep an account
  balanced.
* `Account.Step.change`: a step is an elementary change of the heap.
-/

namespace ScriptCore

open Object

/-! ## Accounts -/

namespace Object

/-- A heap, and the references to its objects that are held outside. -/
structure Account where
  heap : Heap
  held : Multiset Ref

namespace Account

/-- The elementary steps of an account. -/
inductive Step : Account → Account → Prop
  /-- One more reference to an object is held. -/
  | share {h : Heap} {held : Multiset Ref} {r : Ref} (hr : h.Live r) :
    Step ⟨h, held⟩ ⟨h.retain r, r ::ₘ held⟩
  /-- An object is made, and held; it takes over the references of its value. -/
  | make {h : Heap} {held : Multiset Ref} (v : Value) :
    Step ⟨h, ↑v.refs + held⟩ ⟨h.push v, ⟨h.cells.size⟩ ::ₘ held⟩
  /-- A reference moves into a dictionary, and the one in its place out of it. -/
  | store {h : Heap} {held : Multiset Ref} {d x : Ref} {entries : NameMap Ref} (name : String)
    (hd : h.value? d = some (.dict entries)) :
    Step ⟨h, x ::ₘ held⟩
      ⟨h.setPayload d (.dict (entries.insert name x)), ↑(entries.find? name).toList + held⟩
  /-- A reference moves out of a dictionary. -/
  | remove {h : Heap} {held : Multiset Ref} {d x : Ref} {entries : NameMap Ref} {name : String}
    (hd : h.value? d = some (.dict entries)) (hx : entries.find? name = some x) :
    Step ⟨h, held⟩ ⟨h.setPayload d (.dict (entries.erase name)), x ::ₘ held⟩
  /-- The heap takes over a reference to None. -/
  | keepNone {h : Heap} {held : Multiset Ref} {r : Ref} (hn : h.noneRef = none)
    (hr : h.value? r = some .none) :
    Step ⟨h, r ::ₘ held⟩ ⟨{ h with noneRef := some r }, held⟩
  /-- The heap takes over a reference to the object of a type. -/
  | keepType {h : Heap} {held : Multiset Ref} {r : Ref} {t : ObjectType}
    (ht : h.typeRefs.lookup t = none) (hr : h.value? r = some (.typeObject t)) :
    Step ⟨h, r ::ₘ held⟩ ⟨{ h with typeRefs := (t, r) :: h.typeRefs }, held⟩
  /-- A reference is forgotten; if that frees the object, those of its value are
      held instead. -/
  | forget {h : Heap} {held : Multiset Ref} {r : Ref} (hr : 0 < h.count r) :
    Step ⟨h, r ::ₘ held⟩ ⟨(h.forget r).2, ↑(h.forget r).1 + held⟩
  /-- Tags are noted anew. -/
  | clearTags {h : Heap} {held : Multiset Ref} :
    Step ⟨h, held⟩ ⟨{ h with freedTags := [] }, held⟩

/-- Steps, one after the other. -/
abbrev Run : Account → Account → Prop := Relation.ReflTransGen Step

/-- Every step is an elementary change of the heap. -/
theorem Step.change {a b : Account} (hs : a.Step b) : a.heap.Change b.heap := by
  cases hs with
  | share hr =>
    obtain ⟨c, hc⟩ := hr
    refine .of_replace hc (by rw [Heap.retain_eq hc]) ?_
    exact .count rfl (Nat.le_refl _) (Nat.le_succ_of_le (Nat.le_succ _)) nofun
  | make v => exact .push _ v
  | store name hd => exact .setDict hd _
  | remove hd hx => exact .setDict hd _
  | keepNone hn hr => exact .of_cells_eq rfl
  | keepType ht hr => exact .of_cells_eq rfl
  | @forget h held r hr =>
    obtain ⟨c, hc⟩ := Heap.live_of_count_pos hr
    rw [Heap.count_of_cell? hc] at hr
    by_cases hf : c.count = 1 ∧ c.value.type.isFreed = true
    · exact .of_replace hc (by rw [Heap.forget_of_freed hc hf.1 hf.2]) (.free hf.1 hf.2)
    · refine .of_replace hc (by rw [Heap.forget_of_not_freed hc hf]) ?_
      refine .count rfl (by dsimp only; omega) (by dsimp only; omega) fun h1 _ => ?_
      rw [← Bool.not_eq_true]
      exact fun ht => hf ⟨h1, ht⟩
  | clearTags => exact .of_cells_eq rfl

/-- Steps, one after the other, each an elementary change of the heap. -/
abbrev TracedRun : Account → Account → Prop :=
  Relation.ReflTransGen fun a b => a.Step b ∧ a.heap.Change b.heap

theorem Run.traced {a b : Account} (hr : a.Run b) : a.TracedRun b :=
  Relation.ReflTransGen.mono (fun _ _ hs => ⟨hs, hs.change⟩) _ _ hr

/-- An account that is in order. -/
structure Balanced (a : Account) : Prop where
  count_eq : ∀ r, a.heap.count r = a.held.count r + a.heap.inner.count r + a.heap.kept.count r
  references_eq : a.heap.stats.references = (a.heap.objects.map (·.count)).sum
  allocations_eq : a.heap.stats.allocations = a.heap.cells.size
  deallocations_eq : a.heap.stats.deallocations + a.heap.objects.card = a.heap.cells.size
  /-- What is left with no reference to it is not freed. -/
  isFreed_of_count : ∀ r v, a.heap.value? r = some v → a.heap.count r = 0 → v.type.isFreed = false
  noneRef : ∀ r, a.heap.noneRef = some r → a.heap.value? r = some .none
  typeRefs : ∀ t r, (t, r) ∈ a.heap.typeRefs → a.heap.value? r = some (.typeObject t)
  typeRefs_nodup : (a.heap.typeRefs.map (·.1)).Nodup
  /-- Only dictionaries refer to younger objects. -/
  older : ∀ r v, a.heap.value? r = some v → (∀ entries, v ≠ .dict entries) →
    ∀ x ∈ v.refs, x.index < r.index

/-! ### Steps keep an account balanced -/

section Balanced

variable {h : Heap} {held : Multiset Ref} {r : Ref}

theorem Balanced.count_of_mem (ha : Balanced ⟨h, held⟩) (hr : r ∈ held) : 0 < h.count r := by
  have := ha.count_eq r
  have := Multiset.count_pos.2 hr
  dsimp only at *
  omega

/-- What is held leads to objects. -/
theorem Balanced.live_of_mem (ha : Balanced ⟨h, held⟩) (hr : r ∈ held) : h.Live r :=
  Heap.live_of_count_pos (ha.count_of_mem hr)

/-- What is in the value of an object leads to objects. -/
theorem Balanced.live_of_mem_refs (ha : Balanced ⟨h, held⟩) {p : Ref} {v : Value}
    (hv : h.value? p = some v) (hr : r ∈ v.refs) : h.Live r := by
  have := ha.count_eq r
  have := Multiset.count_pos.2 (Heap.mem_inner_iff.2 ⟨p, v, hv, hr⟩)
  dsimp only at *
  exact Heap.live_of_count_pos (by omega)

theorem Balanced.value?_of_mem_kept (ha : Balanced ⟨h, held⟩) (hr : r ∈ h.kept) :
    h.value? r = some .none ∨ ∃ t, h.value? r = some (.typeObject t) := by
  rcases Heap.mem_kept_iff.1 hr with hn | ⟨t, ht⟩
  · exact .inl (ha.noneRef r hn)
  · exact .inr ⟨t, ha.typeRefs t r ht⟩

/-- The heap keeps one reference to an object at most. -/
theorem Balanced.nodup_kept (ha : Balanced ⟨h, held⟩) : h.kept.Nodup := by
  rw [Heap.kept, List.nodup_append]
  refine ⟨?_, ?_, ?_⟩
  · cases h.noneRef <;> simp
  · -- the value of a type's object names the type
    refine (List.nodup_map_iff_inj_on ha.typeRefs_nodup.of_map).2 ?_
    rintro ⟨t, r⟩ ht ⟨u, q⟩ hu rfl
    have hv := (ha.typeRefs t r ht).symm.trans (ha.typeRefs u r hu)
    cases hv
    rfl
  · rintro r hr q hq rfl
    obtain ⟨⟨t, r⟩, ht, rfl⟩ := List.mem_map.1 hq
    have hv := (ha.noneRef r (Option.mem_toList.1 hr)).symm.trans (ha.typeRefs t r ht)
    cases hv

section Replace

variable {c : Cell} {x : Option Cell} {held' : Multiset Ref}

/-- The objects that are kept are not freed, and are no dictionaries. -/
theorem Balanced.value?_replace_of_kept (ha : Balanced ⟨h, held⟩) (hc : h.cell? r = some c)
    (hnone : x = none → r ∉ h.kept)
    (hsome : ∀ c' ∈ x, c'.value.type = c.value.type ∧
      (c'.value = c.value ∨ ∃ entries, c'.value = .dict entries)) {q : Ref} (hq : q ∈ h.kept) :
    (h.replace r x).value? q = h.value? q := by
  rw [Heap.value?_replace ⟨c, hc⟩]
  split_ifs with hqr
  · rw [hqr] at hq ⊢
    rw [Heap.value?_of_cell? hc]
    cases x with
    | none => exact absurd hq (hnone rfl)
    | some c' =>
      obtain ⟨htype, he | ⟨entries, he⟩⟩ := hsome c' rfl
      · rw [Option.map_some, he]
      · have hv := ha.value?_of_mem_kept hq
        rw [Heap.value?_of_cell? hc] at hv
        rw [he] at htype
        rcases hv with hv | ⟨t, hv⟩ <;>
        · rw [Option.some.inj hv] at htype
          cases htype
  · rfl

/-- What is gained by the count of an object and by the references in its value is gained by
    what is held, and lost by it. -/
theorem Balanced.count_replace (ha : Balanced ⟨h, held⟩) (hc : h.cell? r = some c) (q : Ref)
    (hcount : (if q = r then (x.map (·.count)).getD 0 else 0) + held.count q +
      c.value.refs.count q = (if q = r then c.count else 0) + held'.count q +
      (x.toList.flatMap (·.value.refs)).count q) :
    (h.replace r x).count q =
      held'.count q + (h.replace r x).inner.count q + h.kept.count q := by
  have hbefore := ha.count_eq q
  have hinner := congrArg (Multiset.count q) (Heap.inner_replace hc x)
  rw [Multiset.count_add, Multiset.count_add, Multiset.coe_count, Multiset.coe_count] at hinner
  rw [Heap.count_replace ⟨c, hc⟩]
  dsimp only at hbefore
  split_ifs at hcount ⊢ with hq
  · rw [hq, Heap.count_of_cell? hc, ← hq] at hbefore
    omega
  · omega

/-- An object changed in place, or freed. -/
theorem Balanced.replace {stats : Stats} {freedTags : List String} (ha : Balanced ⟨h, held⟩)
    (hc : h.cell? r = some c) (hnone : x = none → r ∉ h.kept)
    (hsome : ∀ c' ∈ x, c'.value.type = c.value.type ∧
      (c'.value = c.value ∨ ∃ entries, c'.value = .dict entries) ∧
      (c'.count = 0 → c.value.type.isFreed = false))
    (hcount : ∀ q, (if q = r then (x.map (·.count)).getD 0 else 0) + held.count q +
      c.value.refs.count q = (if q = r then c.count else 0) + held'.count q +
      (x.toList.flatMap (·.value.refs)).count q)
    (href : stats.references + c.count = h.stats.references + (x.map (·.count)).getD 0)
    (halloc : stats.allocations = h.stats.allocations)
    (hdealloc : stats.deallocations + x.toList.length = h.stats.deallocations + 1) :
    Balanced ⟨{ h.replace r x with stats, freedTags }, held'⟩ := by
  have hkeep : ∀ {q}, q ∈ h.kept → (h.replace r x).value? q = h.value? q :=
    ha.value?_replace_of_kept hc hnone fun c' hx =>
      ⟨(hsome c' hx).1, (hsome c' hx).2.1⟩
  refine ⟨fun q => ha.count_replace hc q (hcount q), ?_, ?_, ?_, fun q v hv h0 => ?_,
    fun q hq => ?_, fun t q hq => ?_, ha.typeRefs_nodup, fun q v hv hd y hy => ?_⟩
  · have hbefore := ha.references_eq
    have hsum := Heap.sum_count_replace hc x
    show stats.references = (((h.replace r x).objects).map (·.count)).sum
    dsimp only at hbefore
    omega
  · show stats.allocations = (h.cells.setIfInBounds r.index x).size
    rw [halloc, Array.size_setIfInBounds]
    exact ha.allocations_eq
  · have hbefore := ha.deallocations_eq
    have hcard := Heap.card_objects_replace hc x
    show stats.deallocations + (h.replace r x).objects.card =
      (h.cells.setIfInBounds r.index x).size
    rw [Array.size_setIfInBounds]
    dsimp only at hbefore
    omega
  · -- a count of zero is one that was zero, or that of `r` itself
    have h0' : (h.replace r x).count q = 0 := h0
    rw [Heap.count_replace ⟨c, hc⟩] at h0'
    rcases Heap.value?_replace_cases ⟨c, hc⟩ hv with ⟨rfl, c', hx, rfl⟩ | ⟨hq, hv⟩
    · obtain ⟨htype, -, hzero⟩ := hsome c' hx
      rw [if_pos rfl, hx] at h0'
      rw [htype]
      exact hzero h0'
    · rw [if_neg hq] at h0'
      exact ha.isFreed_of_count q v hv h0'
  · exact (hkeep (Heap.mem_kept_iff.2 (.inl hq))).trans (ha.noneRef q hq)
  · exact (hkeep (Heap.mem_kept_iff.2 (.inr ⟨t, hq⟩))).trans (ha.typeRefs t q hq)
  · -- only dictionaries are stored into, and they may refer to newer objects
    rcases Heap.value?_replace_cases ⟨c, hc⟩ hv with ⟨rfl, c', hx, rfl⟩ | ⟨_, hv⟩
    · obtain ⟨-, he | ⟨entries, he⟩, -⟩ := hsome c' hx
      · rw [he] at hd hy
        exact ha.older q _ (Heap.value?_of_cell? hc) hd y hy
      · exact absurd he (hd entries)
    · exact ha.older q v hv hd y hy

end Replace

theorem Balanced.share (ha : Balanced ⟨h, held⟩) (hr : h.Live r) :
    Balanced ⟨h.retain r, r ::ₘ held⟩ := by
  obtain ⟨c, hc⟩ := hr
  rw [Heap.retain_eq hc]
  refine ha.replace hc nofun ?_ (fun q => ?_) ?_ rfl rfl
  · rintro c' ⟨⟩
    exact ⟨rfl, .inl rfl, nofun⟩
  · rw [Multiset.count_cons, Option.toList_some, List.flatMap_singleton]
    simp only [Option.map_some, Option.getD_some]
    split_ifs <;> omega
  · simp only [Option.map_some, Option.getD_some]
    omega

/-- A dictionary changed: its entries and what is held change places. -/
theorem Balanced.setDict {entries entries' : NameMap Ref} {held' : Multiset Ref}
    (ha : Balanced ⟨h, held⟩) (hd : h.value? r = some (.dict entries))
    (hmove : (↑entries'.values + held' : Multiset Ref) = ↑entries.values + held) :
    Balanced ⟨h.setPayload r (.dict entries'), held'⟩ := by
  obtain ⟨c, hc, hv⟩ := Heap.exists_cell?_of_value? hd
  rw [Heap.setPayload_eq hc]
  refine ha.replace hc nofun ?_ (fun q => ?_) rfl rfl rfl
  · rintro c' ⟨⟩
    refine ⟨rfl, .inr ⟨_, by rw [hv]⟩, fun h0 => ?_⟩
    exact ha.isFreed_of_count r _ (Heap.value?_of_cell? hc) ((Heap.count_of_cell? hc).trans h0)
  · have hq := congrArg (Multiset.count q) hmove
    rw [Multiset.count_add, Multiset.count_add, Multiset.coe_count, Multiset.coe_count] at hq
    rw [hv, Option.toList_some, List.flatMap_singleton]
    simp only [Value.refs, Payload.refs, Option.map_some, Option.getD_some]
    omega

theorem Balanced.store {d x : Ref} {entries : NameMap Ref} (name : String)
    (ha : Balanced ⟨h, x ::ₘ held⟩) (hd : h.value? d = some (.dict entries)) :
    Balanced ⟨h.setPayload d (.dict (entries.insert name x)),
      ↑(entries.find? name).toList + held⟩ := by
  refine ha.setDict hd ?_
  rw [← Multiset.add_assoc, NameMap.values_insert, Multiset.cons_add, Multiset.add_cons]

theorem Balanced.remove {d x : Ref} {entries : NameMap Ref} {name : String}
    (ha : Balanced ⟨h, held⟩) (hd : h.value? d = some (.dict entries))
    (hx : entries.find? name = some x) :
    Balanced ⟨h.setPayload d (.dict (entries.erase name)), x ::ₘ held⟩ := by
  refine ha.setDict hd ?_
  rw [← NameMap.values_erase entries name, hx, Multiset.add_assoc]
  exact congrArg (_ + ·) (Multiset.singleton_add x held).symm

/-- What has no reference to it but one is in no value and not kept. -/
theorem Balanced.of_count_eq_one (ha : Balanced ⟨h, r ::ₘ held⟩) (h1 : h.count r = 1) :
    r ∉ held ∧ r ∉ h.inner ∧ r ∉ h.kept := by
  have := ha.count_eq r
  rw [Multiset.count_cons_self] at this
  dsimp only at this
  exact ⟨Multiset.count_eq_zero.1 (by omega), Multiset.count_eq_zero.1 (by omega),
    List.count_eq_zero.1 (by omega)⟩

theorem Balanced.references_pos (ha : Balanced ⟨h, held⟩) {c : Cell}
    (hc : h.cell? r = some c) (hpos : 0 < c.count) : 0 < h.stats.references := by
  obtain ⟨rest, ho, -⟩ := Heap.exists_objects_replace hc
  have href := ha.references_eq
  rw [ho, Multiset.map_cons, Multiset.sum_cons] at href
  dsimp only at href
  omega

/-- A reference forgotten: if that frees the object, the references of its value
    are held in place of it. -/
theorem Balanced.forget (ha : Balanced ⟨h, r ::ₘ held⟩) :
    Balanced ⟨(h.forget r).2, ↑(h.forget r).1 + held⟩ := by
  have hr := Multiset.mem_cons_self r held
  obtain ⟨c, hc⟩ := ha.live_of_mem hr
  have hpos : 0 < c.count := Heap.count_of_cell? hc ▸ ha.count_of_mem hr
  have href := ha.references_pos hc hpos
  by_cases hf : c.count = 1 ∧ c.value.type.isFreed = true
  · -- the reference forgotten was the last one, so the heap does not keep the object
    rw [Heap.forget_of_freed hc hf.1 hf.2]
    refine ha.replace hc (fun _ => ?_) nofun (fun q => ?_) ?_ rfl rfl
    · exact (ha.of_count_eq_one ((Heap.count_of_cell? hc).trans hf.1)).2.2
    · rw [Multiset.count_cons, Multiset.count_add, Multiset.coe_count]
      simp only [Option.map_none, Option.getD_none, Option.toList_none, List.flatMap_nil,
        List.count_nil]
      split_ifs <;> omega
    · simp only [Option.map_none, Option.getD_none]
      omega
  · rw [Heap.forget_of_not_freed hc hf, Multiset.coe_nil, Multiset.zero_add]
    refine ha.replace hc nofun ?_ (fun q => ?_) ?_ rfl rfl
    · rintro c' ⟨⟩
      refine ⟨rfl, .inl rfl, fun h0 => ?_⟩
      dsimp only at h0
      rw [← Bool.not_eq_true]
      exact fun ht => hf ⟨by omega, ht⟩
    · rw [Multiset.count_cons, Option.toList_some, List.flatMap_singleton]
      simp only [Option.map_some, Option.getD_some]
      split_ifs <;> omega
    · simp only [Option.map_some, Option.getD_some]
      omega

/-- An object made: it is held in place of the references of its value. -/
theorem Balanced.make (v : Value) (ha : Balanced ⟨h, ↑v.refs + held⟩) :
    Balanced ⟨h.push v, ⟨h.cells.size⟩ ::ₘ held⟩ := by
  have hnew : ¬h.Live ⟨h.cells.size⟩ := fun hl => Nat.lt_irrefl _ hl.lt_size
  have hkeep : ∀ {q w}, h.value? q = some w → (h.push v).value? q = some w := fun hw =>
    (Heap.value?_push_of_live (Heap.live_of_value? hw) v).trans hw
  refine ⟨fun q => ?_, ?_, ?_, ?_, fun q w hw h0 => ?_, fun q hq => hkeep (ha.noneRef q hq),
    fun t q hq => hkeep (ha.typeRefs t q hq), ha.typeRefs_nodup, fun q w hw hd x hx => ?_⟩
  · show (h.push v).count q = (⟨h.cells.size⟩ ::ₘ held).count q + (h.push v).inner.count q +
      h.kept.count q
    have h1 := ha.count_eq q
    rw [Multiset.count_add] at h1
    rw [Heap.count_push, Heap.inner_push, Multiset.count_add, Multiset.count_cons]
    dsimp only at h1
    -- nothing referred to the new object so far, as its number was not in use
    split_ifs with hq
    · rw [hq, Heap.count_of_not_live hnew, ← hq] at h1
      omega
    · omega
  · show h.stats.references + 1 = ((h.push v).objects.map (·.count)).sum
    rw [Heap.sum_count_push]
    exact congrArg (· + 1) ha.references_eq
  · show h.stats.allocations + 1 = (h.cells.push _).size
    rw [Array.size_push]
    exact congrArg (· + 1) ha.allocations_eq
  · show h.stats.deallocations + (h.push v).objects.card = (h.cells.push _).size
    rw [Heap.card_objects_push, Array.size_push]
    exact congrArg (· + 1) ha.deallocations_eq
  · have h0' : (h.push v).count q = 0 := h0
    rw [Heap.count_push] at h0'
    split_ifs at h0' with hq
    have hold := (Heap.value?_push_cases hw).resolve_left fun hw => hq hw.1
    exact ha.isFreed_of_count q w hold h0'
  · rcases Heap.value?_push_cases hw with ⟨rfl, rfl⟩ | hw
    · exact (ha.live_of_mem (Multiset.mem_add.2 (.inl hx))).lt_size
    · exact ha.older q w hw hd x hx

theorem Balanced.keepNone (ha : Balanced ⟨h, r ::ₘ held⟩) (hn : h.noneRef = none)
    (hr : h.value? r = some .none) : Balanced ⟨{ h with noneRef := some r }, held⟩ := by
  refine { ha with count_eq := fun q => ?_, noneRef := fun q hq => ?_ }
  · have h1 := ha.count_eq q
    rw [Multiset.count_cons, Heap.kept, hn] at h1
    show h.count q = held.count q + h.inner.count q + (r :: h.typeRefs.map (·.2)).count q
    rw [List.count_cons]
    simp only [beq_iff_eq, Option.toList_none, List.nil_append] at h1 ⊢
    rw [h1]
    simp only [eq_comm (a := q)]
    omega
  · cases hq
    exact hr

theorem Balanced.keepType {t : ObjectType} (ha : Balanced ⟨h, r ::ₘ held⟩)
    (ht : h.typeRefs.lookup t = none) (hr : h.value? r = some (.typeObject t)) :
    Balanced ⟨{ h with typeRefs := (t, r) :: h.typeRefs }, held⟩ := by
  refine { ha with count_eq := fun q => ?_, typeRefs := fun u q hq => ?_, typeRefs_nodup := ?_ }
  · have h1 := ha.count_eq q
    rw [Multiset.count_cons, Heap.kept, List.count_append] at h1
    show h.count q = held.count q + h.inner.count q +
      (h.noneRef.toList ++ r :: h.typeRefs.map (·.2)).count q
    rw [List.count_append, List.count_cons]
    simp only [beq_iff_eq] at h1 ⊢
    rw [h1]
    simp only [eq_comm (a := q)]
    omega
  · rcases List.mem_cons.1 hq with heq | hq
    · cases heq
      exact hr
    · exact ha.typeRefs u q hq
  · rw [List.map_cons, List.nodup_cons]
    refine ⟨fun hm => ?_, ha.typeRefs_nodup⟩
    obtain ⟨⟨u, q⟩, hq, rfl⟩ := List.mem_map.1 hm
    have := List.lookup_eq_none_iff.1 ht _ hq
    simp at this

end Balanced

/-- Steps keep an account balanced. -/
theorem Step.balanced {a b : Account} (hs : a.Step b) (ha : a.Balanced) : b.Balanced := by
  cases hs with
  | share hr => exact ha.share hr
  | make v => exact ha.make v
  | store name hd => exact ha.store name hd
  | remove hd hx => exact ha.remove hd hx
  | keepNone hn hr => exact ha.keepNone hn hr
  | keepType ht hr => exact ha.keepType ht hr
  | forget hr => exact ha.forget
  | clearTags => exact { ha with }

/-- Runs make objects, and give no number twice. -/
theorem Run.size_le {a b : Account} (hr : a.Run b) : a.heap.cells.size ≤ b.heap.cells.size := by
  induction hr with
  | refl => exact Nat.le_refl _
  | tail _ hs ih => exact ih.trans hs.change.size_le

/-- Runs keep an account balanced. -/
theorem Run.balanced {a b : Account} (hr : a.Run b) (ha : a.Balanced) : b.Balanced := by
  induction hr with
  | refl => exact ha
  | tail _ hs ih => exact hs.balanced ih

end Account

end Object

end ScriptCore
