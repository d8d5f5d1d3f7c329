import ScriptCore.Proofs.Object.Session

/-!
# Looking up a name in a class

The bases of a class are older than the class, so no class comes among its own bases, whatever
the dictionaries of methods hold. The classes in which a name is looked up thus have an order:
the class itself comes first, then each of its bases, with its own bases before the next.

* `Heap.bases?`, `Heap.Inherits`: the bases of a class.
* `Heap.Lineage`: classes in the order of look-up.
* `Account.Sound.classLookup_eq`: a look-up finds what the first class in this order has, among
  those that have something.
* `Session.lookup_finds_first`: this holds after any calls.
-/

namespace ScriptCore

open Object

namespace Heap

variable {h : Heap} {c b : Ref} {cs ds order order' : List Ref} {name : String}

/-! ## Bases -/

/-- The bases of a class. -/
def bases? (h : Heap) (c : Ref) : Option (List Ref) :=
  match h.value? c with
  | some (.userClass none _) => some []
  | some (.userClass (some b) _) => match h.value? b with
    | some (.tuple items) => some items
    | _ => none
  | _ => none

/-- Whether a class is among the bases of another. -/
def Inherits (h : Heap) (c b : Ref) : Prop := ∃ items, h.bases? c = some items ∧ b ∈ items

/-- What a class has under a name among its own methods. -/
def method? (h : Heap) (name : String) (c : Ref) : Option Ref :=
  match h.value? c with
  | some (.userClass _ methods) => match h.value? methods with
    | some (.dict entries) => entries.find? name
    | _ => none
  | _ => none

/-- The order in which classes are looked through: each comes before its bases, and these come
    before the classes after it. -/
inductive Lineage (h : Heap) : List Ref → List Ref → Prop
  | nil : Lineage h [] []
  | cons {c : Ref} {items cs order : List Ref} (hc : h.bases? c = some items)
    (ho : Lineage h (items ++ cs) order) : Lineage h (c :: cs) (c :: order)

theorem Lineage.unique (ho : h.Lineage cs order) (ho' : h.Lineage cs order') : order' = order := by
  induction ho generalizing order' with
  | nil => cases ho'; rfl
  | cons hc _ ih =>
    cases ho' with
    | cons hc' ho' =>
      cases hc.symm.trans hc'
      rw [ih ho']

theorem Lineage.append (ho : h.Lineage cs order) (ho' : h.Lineage ds order') :
    h.Lineage (cs ++ ds) (order ++ order') := by
  induction ho with
  | nil => exact ho'
  | cons hc _ ih => exact .cons hc (List.append_assoc _ _ _ ▸ ih)

theorem exists_lineage_of_forall (hcs : ∀ c ∈ cs, ∃ order, h.Lineage [c] order) :
    ∃ order, h.Lineage cs order := by
  induction cs with
  | nil => exact ⟨[], .nil⟩
  | cons c cs ih =>
    obtain ⟨hc, hcs⟩ := List.forall_mem_cons.1 hcs
    obtain ⟨order, ho⟩ := hc
    obtain ⟨order', ho'⟩ := ih hcs
    exact ⟨order ++ order', ho.append ho'⟩

theorem hasType_of_bases? {items : List Ref} (hc : h.bases? c = some items) :
    h.HasType c .userClass := by
  rw [bases?] at hc
  split at hc
  · next hv => exact ⟨_, hv, rfl⟩
  · next hv => exact ⟨_, hv, rfl⟩
  · cases hc

theorem Lineage.hasType (ho : h.Lineage cs order) (hc : c ∈ order) : h.HasType c .userClass := by
  induction ho with
  | nil => cases hc
  | cons hbases _ ih =>
    rcases List.mem_cons.1 hc with rfl | hc
    · exact hasType_of_bases? hbases
    · exact ih hc

section Value

variable {h' : Heap}
  (hvalue : ∀ r v, h'.value? r = some v → (∀ entries, v ≠ .dict entries) → h.value? r = some v)

include hvalue

/-- The bases of classes do not depend on dictionaries. -/
theorem bases?_of_value? {items : List Ref} (hc : h'.bases? c = some items) :
    h.bases? c = some items := by
  rw [bases?] at hc ⊢
  split at hc
  · next hv => rwa [hvalue _ _ hv nofun]
  · next hv =>
    rw [hvalue _ _ hv nofun]
    split at hc
    · next ht => simpa only [hvalue _ _ ht nofun] using hc
    · cases hc
  · cases hc

theorem Lineage.of_value? (ho : h'.Lineage cs order) : h.Lineage cs order := by
  induction ho with
  | nil => exact .nil
  | cons hc _ ih => exact .cons (bases?_of_value? hvalue hc) ih

end Value

/-! ## The first find -/

theorem findFirst_append (f : Ref → Except Error (Option Ref)) (cs ds : List Ref) :
    findFirst f (cs ++ ds) = match findFirst f cs with
      | .ok none => findFirst f ds
      | result => result := by
  induction cs with
  | nil => rfl
  | cons c cs ih =>
    rw [List.cons_append, findFirst, findFirst, ih]
    rcases f c with _ | _ | _ <;> rfl

theorem findFirst_congr {f g : Ref → Except Error (Option Ref)} (hfg : ∀ c ∈ cs, f c = g c) :
    findFirst f cs = findFirst g cs := by
  induction cs with
  | nil => rfl
  | cons c cs ih =>
    obtain ⟨hc, hcs⟩ := List.forall_mem_cons.1 hfg
    rw [findFirst, findFirst, hc, ih hcs]

end Heap

namespace Object.Account

variable {h : Heap} {held : Multiset Ref} {c b : Ref} {cs order : List Ref} {name : String}

/-! ## Classes are younger than their bases -/

/-- A class has bases, which are classes and were made before it. -/
theorem Sound.exists_bases (ha : Sound ⟨h, held⟩) (hc : h.HasType c .userClass) :
    ∃ items, h.bases? c = some items ∧ ∀ b ∈ items, h.HasType b .userClass ∧ b.index < c.index := by
  obtain ⟨v, hv, ht⟩ := hc
  cases v with
  | userClass bases methods =>
    rw [Heap.bases?, hv]
    cases bases with
    | none => exact ⟨[], rfl, nofun⟩
    | some t =>
      obtain ⟨items, htuple, hclasses⟩ := (ha.fits c _ hv).2 t rfl
      refine ⟨items, by dsimp only; rw [htuple], fun b hb => ⟨hclasses b hb, ?_⟩⟩
      -- the tuple was made before the class, and its items before the tuple
      have hitem : b.index < t.index := ha.older t _ htuple nofun b hb
      exact hitem.trans (ha.older c _ hv nofun t List.mem_cons_self)
  | unsuited t p hp => exact absurd (ha.fits c _ hv).isSuited (Bool.eq_false_iff.1 hp)
  | _ => cases ht

theorem Sound.lt_of_inherits (ha : Sound ⟨h, held⟩) (hcb : h.Inherits c b) :
    h.HasType b .userClass ∧ b.index < c.index := by
  obtain ⟨items, hitems, hb⟩ := hcb
  obtain ⟨items', hitems', hall⟩ := ha.exists_bases (Heap.hasType_of_bases? hitems)
  cases hitems.symm.trans hitems'
  exact hall b hb

/-- No class comes among its own bases. -/
theorem Sound.not_transGen_inherits (ha : Sound ⟨h, held⟩) :
    ¬Relation.TransGen h.Inherits c c := by
  intro hc
  have hlt : ∀ {p q}, Relation.TransGen h.Inherits p q → q.index < p.index := fun hpq => by
    induction hpq with
    | single hpq => exact (ha.lt_of_inherits hpq).2
    | tail _ hq ih => exact (ha.lt_of_inherits hq).2.trans ih
  exact Nat.lt_irrefl _ (hlt hc)

/-- The classes in which a name is looked up have an order, as each has fewer objects before it
    than those that have it among their bases. -/
theorem Sound.exists_lineage (ha : Sound ⟨h, held⟩) (hc : h.HasType c .userClass) :
    ∃ order, h.Lineage [c] order := by
  induction hn : c.index using Nat.strong_induction_on generalizing c with
  | _ n ih =>
    obtain ⟨items, hitems, hbases⟩ := ha.exists_bases hc
    obtain ⟨order, ho⟩ := Heap.exists_lineage_of_forall fun b hb =>
      ih b.index (hn ▸ (hbases b hb).2) (hbases b hb).1 rfl
    exact ⟨c :: order, .cons hitems ((List.append_nil items).symm ▸ ho)⟩

/-! ## Look-up -/

/-- A class looks into its own methods, and then into its bases. -/
theorem Sound.classLookupTo_succ (ha : Sound ⟨h, held⟩) {items : List Ref}
    (hitems : h.bases? c = some items) (n : Nat) :
    h.classLookupTo name (n + 1) c = match h.method? name c with
      | some r => .ok (some r)
      | none => Heap.findFirst (h.classLookupTo name n) items := by
  have hdict : ∀ {bases methods}, h.value? c = some (.userClass bases methods) →
      ∃ entries, h.value? methods = some (.dict entries) := fun hv =>
    (ha.fits c _ hv).1.exists_entries ha.paired
  rw [Heap.bases?] at hitems
  rw [Heap.classLookupTo, Heap.method?]
  split at hitems
  · next hv =>
    obtain ⟨entries, hd⟩ := hdict hv
    cases hitems
    simp only [Heap.payload?_of_value? hv, Heap.payload?_of_value? hd, hv, hd]
    cases entries.find? name <;> rfl
  · next t _ hv =>
    obtain ⟨entries, hd⟩ := hdict hv
    split at hitems
    · next htuple =>
      cases hitems
      simp only [Heap.payload?_of_value? hv, Heap.payload?_of_value? hd, hv, hd]
      cases entries.find? name with
      | some r => rfl
      | none => simp only [Heap.payload?_of_value? htuple]
    · cases hitems
  · cases hitems

/-- More steps than there are objects before the class make no difference. -/
theorem Sound.classLookupTo_congr (ha : Sound ⟨h, held⟩) (hc : h.HasType c .userClass) {m n : Nat}
    (hm : c.index < m) (hn : c.index < n) :
    h.classLookupTo name m c = h.classLookupTo name n c := by
  induction m generalizing c n with
  | zero => cases hm
  | succ m ih =>
    cases n with
    | zero => cases hn
    | succ n =>
      obtain ⟨items, hitems, hbases⟩ := ha.exists_bases hc
      rw [ha.classLookupTo_succ hitems, ha.classLookupTo_succ hitems, Heap.findFirst_congr]
      intro b hb
      obtain ⟨hb, hlt⟩ := hbases b hb
      exact ih hb (by omega) (by omega)

theorem Sound.classLookup_succ (ha : Sound ⟨h, held⟩) {items : List Ref}
    (hc : h.HasType c .userClass) (hitems : h.bases? c = some items) :
    h.classLookup c name = match h.method? name c with
      | some r => .ok (some r)
      | none => Heap.findFirst (fun b => h.classLookup b name) items := by
  rw [Heap.classLookup, Heap.depth, ha.classLookupTo_succ hitems, Heap.findFirst_congr]
  intro b hb
  obtain ⟨hb, hlt⟩ := ha.lt_of_inherits ⟨items, hitems, hb⟩
  exact ha.classLookupTo_congr hb (hlt.trans hc.live.lt_size) (Nat.lt_succ_of_lt hb.live.lt_size)

theorem Sound.findFirst_classLookup (ha : Sound ⟨h, held⟩) (name : String) (ho : h.Lineage cs order)
    (hcs : ∀ c ∈ cs, h.HasType c .userClass) :
    Heap.findFirst (fun b => h.classLookup b name) cs =
      .ok (order.findSome? (h.method? name)) := by
  induction ho with
  | nil => rfl
  | @cons c items cs order hc _ ih =>
    obtain ⟨hclass, hcs⟩ := List.forall_mem_cons.1 hcs
    have hbases : ∀ b ∈ items, h.HasType b .userClass := fun b hb =>
      (ha.lt_of_inherits ⟨items, hc, hb⟩).1
    have hrest := ih (List.forall_mem_append.2 ⟨hbases, hcs⟩)
    rw [Heap.findFirst_append] at hrest
    rw [Heap.findFirst, ha.classLookup_succ hclass hc, List.findSome?_cons]
    -- where the class has nothing, its bases and the classes after it are one list
    cases h.method? name c with
    | some r => rfl
    | none => exact hrest

/-- A look-up finds what the first class in the order has, among those that have something. -/
theorem Sound.classLookup_eq (ha : Sound ⟨h, held⟩) (name : String) (ho : h.Lineage [c] order)
    (hc : h.HasType c .userClass) :
    h.classLookup c name = .ok (order.findSome? (h.method? name)) := by
  have hfirst := ha.findFirst_classLookup name ho (List.forall_mem_singleton.2 hc)
  rw [Heap.findFirst, Heap.findFirst] at hfirst
  split at hfirst
  · next hc => exact hc.trans hfirst
  · exact hfirst

end Object.Account

/-! ## Classes after any calls -/

namespace Object.Session

open ScriptCore.Object.Action

/-- After any calls, classes come after their bases, and none among its own. A look-up of a
    name looks through the class and its bases in their order, and finds the object that the
    first of them has under the name that has one; where none has, it finds nothing, and the
    attribute of the class is not known. -/
theorem lookup_finds_first {host : Host} (hhost : host.IsOrderly)
    (calls : List (Call × Option String)) :
    let h := ((start host).performAll calls).heap
    (∀ c b, h.Inherits c b → b.index < c.index) ∧
    (∀ c, ¬Relation.TransGen h.Inherits c c) ∧
    ∀ c, h.HasType c .userClass → ∃ order, (∀ cs, h.Lineage [c] cs ↔ cs = order) ∧
      ∀ name, match order.findSome? (h.method? name) with
        | some r =>
          (classLookup c name).perform h = (.ok (some r), h.retain r) ∧
          (classAttribute c name).perform h = (.ok r, h.retain r)
        | none =>
          (classLookup c name).perform h = (.ok none, h) ∧
          (classAttribute c name).perform h = (.error (.unknownName name), h) := by
  intro h
  have hs : Account.Sound ⟨h, _⟩ := sound_performAll hhost calls
  refine ⟨fun c b hcb => (hs.lt_of_inherits hcb).2, fun c => hs.not_transGen_inherits,
    fun c hc => ?_⟩
  obtain ⟨order, ho⟩ := hs.exists_lineage hc
  refine ⟨order, fun cs => ⟨fun hcs => ho.unique hcs, fun hcs => hcs ▸ ho⟩, fun name => ?_⟩
  have hlookup : (ofHeap (·.classLookup c name)).perform h =
      (.ok (order.findSome? (h.method? name)), h) := by
    rw [perform_ofHeap, hs.classLookup_eq name ho hc]
  rw [classLookup, classAttribute, perform_bind_of_ok hlookup, perform_bind_of_ok hlookup]
  split
  · next hr => rw [hr]; exact ⟨rfl, rfl⟩
  · next hr => rw [hr]; exact ⟨rfl, rfl⟩

/-- A class with two bases that have one base in common: what that one has is found before what
    the second base has. -/
theorem lookup_finds_first_of_diamond :
    let calls := [(.make (.integer 1), some "x"), (.make .dict, some "a"),
      (.binary (.dictInsert "m") "a" "x", none), (.newClass none "a", some "A"),
      (.newTuple ["A"], some "t"), (.make .dict, some "b"), (.newClass (some "t") "b", some "B"),
      (.make (.integer 2), some "y"), (.make .dict, some "c"),
      (.binary (.dictInsert "m") "c" "y", none), (.newClass (some "t") "c", some "C"),
      (.newTuple ["B", "C"], some "u"), (.newClass (some "u") "b", some "D")]
    let h := ((start .basic).performAll calls).heap
    h.HasType ⟨10⟩ .userClass ∧ (classAttribute ⟨10⟩ "m").perform h = (.ok ⟨0⟩, h.retain ⟨0⟩) := by
  intro calls h
  have hclass : h.HasType ⟨10⟩ .userClass := ⟨_, rfl, rfl⟩
  have horder : h.Lineage [⟨10⟩] [⟨10⟩, ⟨5⟩, ⟨2⟩, ⟨8⟩, ⟨2⟩] :=
    .cons rfl (.cons rfl (.cons rfl (.cons rfl (.cons rfl .nil))))
  obtain ⟨order, hunique, hfirst⟩ := (lookup_finds_first Host.isOrderly_basic calls).2.2 ⟨10⟩ hclass
  obtain rfl := (hunique _).1 horder
  exact ⟨hclass, (hfirst "m").2⟩

end Object.Session

end ScriptCore
