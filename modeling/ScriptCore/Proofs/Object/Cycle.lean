import Mathlib.Data.Fintype.Card
import Mathlib.Data.Fintype.EquivFin
import Mathlib.Order.WellFounded
import ScriptCore.Proofs.Object.Session

/-!
# What is never freed

An object *points* to those that its value refers to. As each is counted
exactly, what no slot leads to is freed at once, unless it lies on a cycle, or
is held by what lies on one.

* `Balanced.exists_origin`: every object is reached from one that is held or
  kept, lies on a cycle, or is stranded, with no reference to it and a type that
  is not freed.
* `Balanced.onCycle_releaseAll`: releases free no object on a cycle.
* `Balanced.exists_dict`: every cycle goes through a dictionary, since all other
  objects refer to older ones only.
* `Session.live_only_through_cycles`: what this says of the calls of a session.
-/

namespace ScriptCore

open Object Relation

namespace Heap

/-- Whether the value of an object refers to another. -/
def Points (h : Heap) (p r : Ref) : Prop := ∃ v, h.value? p = some v ∧ r ∈ v.refs

/-- Whether an object is reached from another. -/
abbrev Reaches (h : Heap) : Ref → Ref → Prop := ReflTransGen h.Points

/-- Whether an object is reached from what it refers to. -/
abbrev OnCycle (h : Heap) (r : Ref) : Prop := TransGen h.Points r r

/-- Whether an object is there whose type is not freed. -/
def Unfreed (h : Heap) (r : Ref) : Prop := ∃ v, h.value? r = some v ∧ v.type.isFreed = false

/-- Whether a dictionary is reached from what it refers to. -/
def SelfReaching (h : Heap) : Prop := ∃ d entries, h.value? d = some (.dict entries) ∧ h.OnCycle d

/-- Whether all that is there is what the heap keeps, and what is not freed with
    what it holds. -/
def Exhausted (h : Heap) : Prop :=
  ∀ r, h.Live r → r ∈ h.kept ∨ ∃ p, h.Unfreed p ∧ h.Reaches p r

variable {h : Heap} {p q r : Ref}

theorem Points.live (hp : h.Points p r) : h.Live p :=
  let ⟨_, hv, _⟩ := hp
  live_of_value? hv

theorem OnCycle.live (hr : h.OnCycle r) : h.Live r :=
  let ⟨_, hp, _⟩ := TransGen.head'_iff.1 hr
  hp.live

theorem mem_inner_iff_points : r ∈ h.inner ↔ ∃ p, h.Points p r :=
  mem_inner_iff

theorem Reaches.live (hp : h.Reaches p r) (hr : h.Live r) : h.Live p := by
  cases hp using ReflTransGen.head_induction_on with
  | refl => exact hr
  | head hp _ => exact hp.live

end Heap

namespace Object

namespace Account

variable {h : Heap} {held : Multiset Ref} {p q r : Ref}

/-- What is pointed to keeps its value when another reference is forgotten. -/
theorem Balanced.value?_forget {v : Value} (ha : Balanced ⟨h, r ::ₘ held⟩) (hp : p ∈ h.inner)
    (hv : h.value? p = some v) : (h.forget r).2.value? p = some v := by
  obtain ⟨c, hc⟩ := ha.live_of_mem (Multiset.mem_cons_self r held)
  by_cases hf : c.count = 1 ∧ c.value.type.isFreed = true
  · rw [Heap.forget_of_freed hc hf.1 hf.2]
    change (h.replace r none).value? p = some v
    -- the one reference to what is freed is the one forgotten
    obtain ⟨-, hinner, -⟩ := ha.of_count_eq_one ((Heap.count_of_cell? hc).trans hf.1)
    rw [Heap.value?_replace ⟨c, hc⟩, if_neg (by rintro rfl; exact hinner hp), hv]
  · rw [Heap.forget_of_not_freed hc hf]
    change (h.replace r (some { c with count := c.count - 1 })).value? p = some v
    rw [Heap.value?_replace ⟨c, hc⟩]
    split_ifs with hpr
    · rw [hpr, Heap.value?_of_cell? hc] at hv
      exact hv
    · exact hv

theorem Balanced.transGen_forget (ha : Balanced ⟨h, r ::ₘ held⟩) (hp : p ∈ h.inner)
    (hpq : TransGen h.Points p q) : TransGen (h.forget r).2.Points p q := by
  induction hpq using TransGen.head_induction_on with
  | single hpq =>
    obtain ⟨v, hv, hq⟩ := hpq
    exact .single ⟨v, ha.value?_forget hp hv, hq⟩
  | head hpx _ ih =>
    have hx := Heap.mem_inner_iff_points.2 ⟨_, hpx⟩
    obtain ⟨v, hv, hq⟩ := hpx
    exact .head ⟨v, ha.value?_forget hp hv, hq⟩ (ih hx)

theorem Balanced.onCycle_forget (ha : Balanced ⟨h, r ::ₘ held⟩) (hq : h.OnCycle q) :
    (h.forget r).2.OnCycle q := by
  obtain ⟨p, -, hp⟩ := TransGen.tail'_iff.1 hq
  exact ha.transGen_forget (Heap.mem_inner_iff_points.2 ⟨p, hp⟩) hq

/-- Releases free no object on a cycle. -/
theorem Balanced.onCycle_releaseAll {rs : List Ref} (ha : Balanced ⟨h, ↑rs + held⟩)
    (hq : h.OnCycle q) : (Heap.releaseAll rs h).OnCycle q := by
  induction rs, h using Heap.releaseAll.induct with
  | case1 h => rwa [Heap.releaseAll]
  | case2 h r rs ih =>
    rw [Heap.releaseAll]
    rw [← Multiset.cons_coe, Multiset.cons_add] at ha
    refine ih ?_ (ha.onCycle_forget hq)
    rw [← Multiset.coe_add, Multiset.add_assoc]
    exact ha.forget

/-- Every object is reached from one that is held or kept, or lies on a cycle, or
    has no reference to it, and a type that is not freed. -/
theorem Balanced.exists_origin (ha : Balanced ⟨h, held⟩) (hr : h.Live r) :
    ∃ p, h.Reaches p r ∧
      (p ∈ held ∨ p ∈ h.kept ∨ h.OnCycle p ∨ h.Unfreed p ∧ h.count p = 0) := by
  by_contra! hno
  -- what reaches the object is finite, and there are no cycles in it
  let Origin := { p : Ref // h.Reaches p r }
  have hlive : ∀ p : Origin, h.Live p.1 := fun p => p.2.live hr
  have hfin : Finite Origin := .of_injective
    (fun p => (⟨p.1.index, (hlive p).lt_size⟩ : Fin h.cells.size)) fun p q hpq =>
      Subtype.ext (congrArg Ref.mk (Fin.mk.inj hpq))
  let Before (p q : Origin) : Prop := TransGen h.Points p.1 q.1
  have htrans : IsTrans Origin Before := ⟨fun _ _ _ => .trans⟩
  have hirrefl : Std.Irrefl Before := ⟨fun p hp => (hno p.1 p.2).2.2.1 hp⟩
  -- so there is a first one, to which nothing points
  obtain ⟨p, -, hmin⟩ := (Finite.wellFounded_of_trans_of_irrefl Before).has_min Set.univ
    ⟨⟨r, .refl⟩, trivial⟩
  obtain ⟨hheld, hkept, -, hstranded⟩ := hno p.1 p.2
  have hinner : p.1 ∉ h.inner := fun hp => by
    obtain ⟨q, hq⟩ := Heap.mem_inner_iff_points.1 hp
    exact hmin ⟨q, .head hq p.2⟩ trivial (.single hq)
  have hcount : h.count p.1 = 0 := by
    rw [ha.count_eq p.1, Multiset.count_eq_zero.2 hheld, Multiset.count_eq_zero.2 hinner,
      List.count_eq_zero.2 hkept]
  obtain ⟨c, hc⟩ := hlive p
  have hv := Heap.value?_of_cell? hc
  exact hstranded ⟨c.value, hv, ha.isFreed_of_count p.1 c.value hv hcount⟩ hcount

theorem Balanced.dict_or_lt (ha : Balanced ⟨h, held⟩) (hpq : h.Points p q) :
    (∃ entries, h.value? p = some (.dict entries)) ∨ q.index < p.index := by
  obtain ⟨v, hv, hq⟩ := hpq
  by_cases hd : ∃ entries, v = .dict entries
  · obtain ⟨entries, rfl⟩ := hd
    exact .inl ⟨entries, hv⟩
  · exact .inr (ha.older p v hv (fun entries he => hd ⟨entries, he⟩) q hq)

/-- A way along which indices do not fall goes through a dictionary. -/
theorem Balanced.exists_dict_or_lt (ha : Balanced ⟨h, held⟩) (hpq : TransGen h.Points p q) :
    (∃ d entries, h.value? d = some (.dict entries) ∧ h.Reaches p d ∧ TransGen h.Points d q) ∨
      q.index < p.index := by
  induction hpq using TransGen.head_induction_on with
  | @single p hpq =>
    rcases ha.dict_or_lt hpq with ⟨entries, hp⟩ | hlt
    · exact .inl ⟨p, entries, hp, .refl, .single hpq⟩
    · exact .inr hlt
  | @head p x hpx hxq ih =>
    rcases ha.dict_or_lt hpx with ⟨entries, hp⟩ | hlt
    · exact .inl ⟨p, entries, hp, .refl, .head hpx hxq⟩
    · rcases ih with ⟨d, entries, hd, hxd, hdq⟩ | hlt'
      · exact .inl ⟨d, entries, hd, .head hpx hxd, hdq⟩
      · exact .inr (hlt'.trans hlt)

/-- Every cycle goes through a dictionary. -/
theorem Balanced.selfReaching (ha : Balanced ⟨h, held⟩) (hq : h.OnCycle q) :
    h.SelfReaching := by
  obtain ⟨d, entries, hd, hqd, hdq⟩ | hlt := ha.exists_dict_or_lt hq
  · exact ⟨d, entries, hd, hdq.trans_left hqd⟩
  · exact absurd hlt (lt_irrefl _)

/-- Where nothing is held and no dictionary reaches itself, there are only the
    objects that are kept, and those that are not freed with what they hold. -/
theorem Balanced.exhausted (ha : Balanced ⟨h, 0⟩) (hself : ¬h.SelfReaching) : h.Exhausted := by
  intro r hr
  obtain ⟨p, hpr, hp | hp | hp | ⟨hp, -⟩⟩ := ha.exists_origin hr
  · cases Multiset.notMem_zero p hp
  · left
    rcases hpr.cases_head with rfl | ⟨x, ⟨v, hv, hx⟩, -⟩
    · exact hp
    -- None and the objects of types refer to nothing
    · rcases ha.value?_of_mem_kept hp with hv' | ⟨t, hv'⟩ <;>
      · cases hv.symm.trans hv'
        cases hx
  · exact absurd (ha.selfReaching hp) hself
  · exact .inr ⟨p, hp, hpr⟩

end Account

/-! ## Releases of slots -/

namespace Session

variable {s : Session} {names : List String}

/-- Empties slots, one after the other. -/
def releaseSlots (s : Session) (names : List String) : Session :=
  s.performAll (names.map fun name => (.release name, none))

theorem releaseSlots_cons (s : Session) (name : String) (names : List String) :
    s.releaseSlots (name :: names) = (s.perform (.release name) none).2.releaseSlots names :=
  rfl

/-- The release of a slot finds it empty, or releases what it holds. -/
theorem release_cases (s : Session) (name : String) :
    s.slots.find? name = none ∧ (s.perform (.release name) none).2 = s.cleared ∨
    ∃ r, s.slots.find? name = some r ∧ (s.perform (.release name) none).2 =
      { s with heap := Heap.releaseAll [r] s.cleared.heap, slots := s.slots.erase name } := by
  cases hr : s.slots.find? name with
  | none =>
    refine .inl ⟨rfl, ?_⟩
    simp only [perform, action, slot, hr]
    rfl
  | some r =>
    refine .inr ⟨r, rfl, ?_⟩
    simp only [perform, action, slot, hr]
    rfl

theorem onCycle_release {r : Ref} (name : String) (hs : s.account.Balanced)
    (hr : s.heap.OnCycle r) : (s.perform (.release name) none).2.heap.OnCycle r := by
  rcases s.release_cases name with ⟨-, hp⟩ | ⟨x, hx, hp⟩
  · rw [hp]
    exact hr
  · rw [hp]
    have hs' : s.cleared.account.Balanced := Account.Step.clearTags.balanced hs
    have hheld : s.cleared.account.held = ↑[x] + ↑(s.slots.erase name).values :=
      (held_eq_cons hx).trans (Multiset.singleton_add x _).symm
    rw [account, show (↑s.cleared.slots.values : Multiset Ref) = _ from hheld] at hs'
    exact hs'.onCycle_releaseAll hr

theorem onCycle_releaseSlots {r : Ref} (hhost : s.host.IsOrderly) (hs : s.account.Sound)
    (hr : s.heap.OnCycle r) : (s.releaseSlots names).heap.OnCycle r := by
  induction names generalizing s with
  | nil => exact hr
  | cons name names ih =>
    rw [releaseSlots_cons]
    have hs' := (safeRun_perform hhost hs (.release name) none).sound hs
    refine ih ?_ hs' (onCycle_release name hs.toBalanced hr)
    rwa [host_perform]

theorem value?_of_releaseSlots {r : Ref} {v : Value}
    (hv : (s.releaseSlots names).heap.value? r = some v) : s.heap.value? r = some v := by
  induction names generalizing s with
  | nil => exact hv
  | cons name names ih =>
    rw [releaseSlots_cons] at hv
    have hv' := ih hv
    rcases s.release_cases name with ⟨-, hp⟩ | ⟨x, -, hp⟩
    · rwa [hp] at hv'
    · rw [hp] at hv'
      exact Heap.value?_of_releaseAll (h := s.cleared.heap) hv'

theorem mem_slots_of_releaseSlots {e : String × Ref}
    (he : e ∈ (s.releaseSlots names).slots.entries) :
    e ∈ s.slots.entries ∧ e.1 ∉ names := by
  induction names generalizing s with
  | nil => exact ⟨he, List.not_mem_nil⟩
  | cons name names ih =>
    rw [releaseSlots_cons] at he
    obtain ⟨he', hnames⟩ := ih he
    have hname : e ∈ s.slots.entries ∧ e.1 ≠ name := by
      rcases s.release_cases name with ⟨hnone, hp⟩ | ⟨r, -, hp⟩
      · rw [hp] at he'
        have hne := List.lookup_eq_none_iff.1 hnone e he'
        exact ⟨he', fun heq => by simp [heq] at hne⟩
      · rw [hp] at he'
        simpa [NameMap.erase] using he'
    exact ⟨hname.1, by simp [hname.2, hnames]⟩

theorem values_releaseSlots (hnames : ∀ name ∈ s.slots.names, name ∈ names) :
    (s.releaseSlots names).slots.values = [] := by
  refine List.map_eq_nil_iff.2 (List.eq_nil_iff_forall_not_mem.2 fun e he => ?_)
  obtain ⟨he, hname⟩ := mem_slots_of_releaseSlots he
  exact hname (hnames _ (List.mem_map_of_mem he))

theorem onCycle_close {r : Ref} (hs : s.account.Balanced) (hr : s.heap.OnCycle r) :
    s.close.heap.OnCycle r := by
  have hs' : s.cleared.account.Balanced := Account.Step.clearTags.balanced hs
  rw [account, ← Multiset.add_zero (↑s.cleared.slots.values : Multiset Ref)] at hs'
  exact hs'.onCycle_releaseAll hr

/-- Where every slot was emptied and no dictionary reached itself before that,
    the heap is exhausted. -/
theorem exhausted_of_empty {s' : Session} (hs' : s'.account.Balanced)
    (hslots : s'.slots.values = [])
    (hvalue : ∀ r v, s'.heap.value? r = some v → s.heap.value? r = some v)
    (hself : ¬s.heap.SelfReaching) : s'.heap.Exhausted := by
  rw [account, hslots] at hs'
  have hpoints : ∀ p q, s'.heap.Points p q → s.heap.Points p q := fun p q hpq => by
    obtain ⟨v, hv, hq⟩ := hpq
    exact ⟨v, hvalue p v hv, hq⟩
  refine hs'.exhausted fun hself' => hself ?_
  obtain ⟨d, entries, hd, hcycle⟩ := hself'
  exact ⟨d, entries, hvalue d _ hd, TransGen.mono hpoints d d hcycle⟩

/-- After any calls each object is reached from one in a slot, from one that the
    heap keeps, from one on a cycle, or from one that is not freed and to which
    no reference is left. Releases of slots free no object on a cycle. If no
    dictionary reaches itself, the release of all slots, in any order, leaves only
    what the heap keeps, and what is not freed with what it holds. -/
theorem live_only_through_cycles {host : Host} (hhost : host.IsOrderly)
    (calls : List (Call × Option String)) :
    let s := (start host).performAll calls
    (∀ r, s.heap.Live r → ∃ p, s.heap.Reaches p r ∧ (p ∈ s.slots.values ∨ p ∈ s.heap.kept ∨
      s.heap.OnCycle p ∨ s.heap.Unfreed p ∧ s.heap.count p = 0)) ∧
    (∀ r, s.heap.OnCycle r →
      (∀ names, (s.releaseSlots names).heap.Live r) ∧ s.close.heap.Live r) ∧
    (¬s.heap.SelfReaching →
      (∀ names, (∀ name ∈ s.slots.names, name ∈ names) → (s.releaseSlots names).heap.Exhausted) ∧
      s.close.heap.Exhausted) := by
  intro s
  have hs : s.account.Sound := sound_performAll hhost calls
  have hhost' : s.host.IsOrderly := isOrderly_performAll hhost calls
  refine ⟨fun r hr => hs.exists_origin hr, fun r hr => ⟨fun names => ?_, ?_⟩,
    fun hself => ⟨fun names hnames => ?_, ?_⟩⟩
  · exact (onCycle_releaseSlots hhost' hs hr).live
  · exact (onCycle_close hs.toBalanced hr).live
  · exact exhausted_of_empty ((safeRun_performAll hhost' hs _).sound hs).toBalanced
      (values_releaseSlots hnames) (fun _ _ => value?_of_releaseSlots) hself
  · exact exhausted_of_empty ((run_close hs.toBalanced).balanced hs.toBalanced) rfl
      (fun _ _ => Heap.value?_of_releaseAll (h := s.cleared.heap)) hself

/-- A type whose objects stay. -/
def keeperType : ForeignType where
  name := "keeper"
  isFreed := false

/-- An integer in a dictionary, and in an object that stays. -/
def keptInteger : List (Call × Option String) :=
  [(.make .dict, some "d"), (.make (.integer 5), some "x"),
    (.binary (.dictInsert "k") "d" "x", none), (.newForeign keeperType none ["x"], some "f")]

/-- The integer stays with the object that holds it, where the dictionary is gone with its slot.
    A dictionary that holds itself is not. -/
theorem live_only_through_cycles_of_dict :
    let s := (start .basic).performAll keptInteger
    let t := (start .basic).performAll
      [(.make .dict, some "d"), (.binary (.dictInsert "k") "d" "d", none)]
    (¬s.heap.SelfReaching ∧ (s.releaseSlots ["f", "x", "d"]).heap.Exhausted ∧
      (s.releaseSlots ["f", "x", "d"]).heap.cell? ⟨0⟩ = none ∧
      (s.releaseSlots ["f", "x", "d"]).heap.cell? ⟨1⟩ = some ⟨.integer 5, 1⟩) ∧
      t.heap.OnCycle ⟨0⟩ ∧ (t.releaseSlots ["d"]).heap.Live ⟨0⟩ := by
  intro s t
  -- all that points to anything points to the integer
  have hpoints : ∀ p r, s.heap.Points p r → p ≠ ⟨1⟩ ∧ r = ⟨1⟩ := by
    rintro ⟨_ | _ | _ | n⟩ r ⟨v, hv, hr⟩
    · cases hv
      exact ⟨by decide, List.mem_singleton.1 hr⟩
    · cases hv
      cases hr
    · cases hv
      exact ⟨by decide, List.mem_singleton.1 hr⟩
    · cases hv
  have hself : ¬s.heap.SelfReaching := fun ⟨d, _, _, hd⟩ => by
    obtain ⟨_, hfirst, -⟩ := TransGen.head'_iff.1 hd
    obtain ⟨_, -, hlast⟩ := TransGen.tail'_iff.1 hd
    exact (hpoints _ _ hfirst).1 (hpoints _ _ hlast).2
  have hcycle : t.heap.OnCycle ⟨0⟩ := .single ⟨_, rfl, List.mem_singleton_self _⟩
  refine ⟨⟨hself, ?_, by cbv, by cbv⟩, hcycle, ?_⟩
  · exact ((live_only_through_cycles Host.isOrderly_basic _).2.2 hself).1 _ (by decide)
  · exact ((live_only_through_cycles Host.isOrderly_basic _).2.1 _ hcycle).1 _

end Session

end Object

end ScriptCore
