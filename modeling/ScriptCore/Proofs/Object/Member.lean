import Mathlib
import ScriptCore.Proofs.Object.Entry
import ScriptCore.Proofs.Object.Lookup

/-!
# Attributes of members

A member has attributes of its own, in a dictionary to which nothing else refers, so that only
stores to the member itself change them. A name that is not there is looked up in the class,
and what is found is bound to the member if it is a function.

* `Heap.attributeOf`, `Attribute.answer`: what the attribute of a member is, and what a look-up
  answers and does for it.
* `Session.lastStored`: what calls last stored under a name on a member, and did not remove.
* `Session.AttributesKept`, `Session.Independent`: what holds of the attributes of members, and
  what a store to one of them leaves as it is.
* `Session.attributes_of_members`: this holds after any calls.
-/

namespace ScriptCore

open Object

namespace Object

/-- The attribute of a member under a name: an object of its own, or a function of its class
    that is to be bound to it, or none. -/
inductive Attribute
  | own (x : Ref)
  | bound (f : Ref)
  | missing

/-- What a look-up of an attribute answers and does. -/
def Attribute.answer (h : Heap) (m : Ref) (name : String) : Attribute → Except Error Ref × Heap
  | own x => (.ok x, h.retain x)
  | bound f => (.ok ⟨h.cells.size⟩, ((h.retain f).retain m).push (.boundMethod f m))
  | missing => (.error (.unknownName name), h)

end Object

namespace Heap

variable {h h' : Heap} {m c d : Ref} {name : String}

/-- What a member has under a name of its own. -/
def ownAttribute? (h : Heap) (m : Ref) (name : String) : Option Ref :=
  match h.value? m with
  | some (.member _ attributes) => match h.value? attributes with
    | some (.dict entries) => entries.find? name
    | _ => none
  | _ => none

/-- What is found in a class, as an attribute of a member. -/
def inherited (h : Heap) : Option Ref → Attribute
  | some f => match h.value? f with
    | some (.function ..) => .bound f
    | _ => .missing
  | none => .missing

/-- The attribute of a member under a name: its own, or else that of its class. -/
def attributeOf (h : Heap) (m : Ref) (name : String) : Attribute :=
  match h.ownAttribute? m name, h.value? m with
  | some x, _ => .own x
  | none, some (.member c _) => match h.classLookup c name with
    | .ok found => h.inherited found
    | .error _ => .missing
  | none, _ => .missing

theorem ownAttribute?_eq {entries : NameMap Ref} (hm : h.value? m = some (.member c d))
    (hd : h.value? d = some (.dict entries)) :
    h.ownAttribute? m name = entries.find? name := by
  rw [ownAttribute?, hm]
  dsimp only
  rw [hd]

theorem ownAttribute?_of_not_live (hm : ¬h.Live m) : h.ownAttribute? m name = none := by
  rw [ownAttribute?]
  split
  · next hv => exact absurd (live_of_value? hv) hm
  · rfl

/-- A member is made with an empty dictionary. -/
theorem Made.member (hm : h.Made (.member c d)) : h.value? d = some (.dict .empty) := by
  obtain hfresh | ⟨_, _, heq, hd⟩ := hm
  · exact hfresh.elim
  · cases heq
    exact hd

end Heap

/-! ## Looking up an attribute -/

namespace Object.Account

open ScriptCore.Object.Action

variable {h : Heap} {held : Multiset Ref} {m c d : Ref} {order : List Ref} {name : String}

theorem Sound.exists_attributes (ha : Sound ⟨h, held⟩) (hm : h.value? m = some (.member c d)) :
    ∃ entries, h.value? d = some (.dict entries) :=
  (ha.fits m _ hm).2.exists_entries ha.paired

/-- A look-up in a class finds an object, or nothing. -/
theorem Sound.exists_classLookup_eq (ha : Sound ⟨h, held⟩) (hc : h.HasType c .userClass)
    (name : String) : ∃ found, h.classLookup c name = .ok found ∧
      ∀ f ∈ found, ∃ v, h.value? f = some v := by
  obtain ⟨order, ho⟩ := ha.exists_lineage hc
  have hlookup := ha.classLookup_eq name ho hc
  refine ⟨_, hlookup, fun f hf => ?_⟩
  rw [Option.mem_def.1 hf] at hlookup
  have hobtained : h.Obtained [] f := obtained_of_classLookupTo hlookup
  exact Heap.live_iff_value?.1
    (ha.live_of_obtained (fun _ hr => absurd hr List.not_mem_nil) hobtained)

theorem Sound.perform_memberAttribute (ha : Sound ⟨h, held⟩)
    (hm : h.value? m = some (.member c d)) :
    (memberAttribute m name).perform h = (h.attributeOf m name).answer h m name := by
  obtain ⟨entries, hd⟩ := ha.exists_attributes hm
  rw [memberAttribute, perform_bind_of_ok (perform_member hm)]
  dsimp only
  rw [perform_bind_of_ok (perform_entries hd), Heap.attributeOf, Heap.ownAttribute?_eq hm hd, hm]
  cases entries.find? name with
  | some x => rfl
  | none =>
    obtain ⟨found, hlookup, hlive⟩ := ha.exists_classLookup_eq (ha.fits m _ hm).1 name
    have hfound : (ofHeap (·.classLookup c name)).perform h = (.ok found, h) := by
      rw [perform_ofHeap, hlookup]
    dsimp only
    rw [perform_bind_of_ok hfound, hlookup]
    cases found with
    | none => rfl
    | some f =>
      obtain ⟨v, hv⟩ := hlive f rfl
      dsimp only
      rw [perform_typeOf_bind hv, Heap.inherited, hv]
      cases v with
      | function code globals =>
        show (newBoundMethod f m).perform h = _
        rw [newBoundMethod, perform_typeOf_bind hv]
        exact perform_alloc _ h
      | unsuited t p hp => exact absurd (ha.fits f _ hv).isSuited (Bool.eq_false_iff.1 hp)
      | _ => rfl

end Object.Account

/-! ## What calls assign -/

namespace Object.Session

open ScriptCore.Object.Action

variable {s : Session} {c : Call} {m cls d r : Ref} {name : String} {last : Option Ref}
  {result : Except Error (Outcome Ref)} {h : Heap}

/-- What is under a name of a member after a call, given what was there before, as far as the
    call assigns to it. -/
def assign (s : Session) (m : Ref) (name : String) (c : Call) (last : Option Ref) : Option Ref :=
  match s.assignment? c with
  | some a => if a.member = m ∧ a.name = name then a.content else last
  | none => last

/-- What calls last stored under a name on a member, if they did not remove it since; `last` is
    what was there before. -/
def lastStored (m : Ref) (name : String) :
    Session → List (Call × Option String) → Option Ref → Option Ref
  | _, [], last => last
  | s, (c, target) :: calls, last =>
    lastStored m name (s.perform c target).2 calls (s.assign m name c last)

/-- A call can only assign to what a slot holds. -/
theorem assign_of_not_mem (hm : m ∉ s.slots.values) : s.assign m name c last = last := by
  rw [assign]
  split
  · next a ha =>
    obtain ⟨f, slot, x, -, -, hslot, -⟩ := exists_of_assignment? ha
    have hmem := NameMap.mem_values_of_find? hslot
    rw [if_neg]
    rintro ⟨rfl, -⟩
    exact hm hmem
  · rfl

/-- A call that assigns to a member stores among its attributes. -/
theorem store?_of_assign (hs : s.account.Sound) (hm : s.heap.value? m = some (.member cls d))
    {a : Assignment} (ha : s.assignment? c = some a) (ham : a.member = m) :
    s.store? c = some ⟨d, a.name, a.content⟩ := by
  obtain ⟨entries, hd⟩ := Account.Sound.exists_attributes hs hm
  rw [store?_of_assignment? ha, ham, Heap.memberStore?, hm]
  dsimp only
  rw [Heap.store?, hd]

/-- A store changes the attributes of a member only where it is an assignment to the member. -/
theorem exists_assignment_of_store? (hs : s.account.Sound)
    (hm : s.heap.value? m = some (.member cls d)) {w : Store} (hw : s.store? c = some w)
    (hd : w.dict = d) :
    ∃ a, s.assignment? c = some a ∧ a.member = m ∧ a.name = w.name ∧ a.content = w.content := by
  subst hd
  rcases (of_store? hw).2.1 with hdict | ⟨a, ha, -, hstore⟩
  · exact absurd ⟨m, cls, hm⟩ (Account.Sound.not_isAttributes_of_mem hs hdict)
  · obtain ⟨⟨cls', hm'⟩, hname, hcontent⟩ := Heap.of_memberStore? hstore
    refine ⟨a, ha, ?_, hname.symm, hcontent.symm⟩
    exact Account.Sound.eq_of_mem_refs hs hm hm' (List.mem_cons_of_mem _ List.mem_cons_self)

/-- What a call assigns to a member is what it stores among its attributes. -/
theorem assign_eq_keep (hs : s.account.Sound) (hm : s.heap.value? m = some (.member cls d)) :
    s.assign m name c last = s.keep d name c last := by
  rw [assign, keep]
  cases hw : s.store? c with
  | none =>
    split
    · next a ha =>
      refine if_neg ?_
      rintro ⟨ham, -⟩
      cases hw.symm.trans (store?_of_assign hs hm ha ham)
    · rfl
  | some w =>
    dsimp only
    by_cases hd : w.dict = d
    · obtain ⟨a, ha, ham, hname, hcontent⟩ := exists_assignment_of_store? hs hm hw hd
      rw [ha]
      simp only [ham, hname, hcontent, hd, true_and]
    · rw [if_neg fun heq => hd heq.1]
      split
      · next a ha =>
        refine if_neg ?_
        rintro ⟨ham, -⟩
        cases hw.symm.trans (store?_of_assign hs hm ha ham)
        exact hd rfl
      · rfl

/-! ## What becomes of attributes -/

/-- A member that a call makes has no attributes of its own. -/
theorem Effect.ownAttribute?_of_not_live (he : s.Effect c (result, h)) (hm₀ : ¬s.heap.Live m)
    (hm : h.value? m = some (.member cls d)) : h.ownAttribute? m name = none := by
  have hlive : s.heap.value? m ≠ some (.member cls d) := fun hv => hm₀ (Heap.live_of_value? hv)
  cases he with
  | fails => exact absurd ((congrFun (s.heap.value?_spent _) m).symm.trans hm) hlive
  | gives _ _ _ hbuilds =>
    rcases hbuilds.value?_cases hm with hm' | hmade
    · exact absurd hm' hlive
    · rw [Heap.ownAttribute?_eq hm hmade.member]
      rfl
  | refuses => exact absurd hm hlive
  | writes _ hdict =>
    rcases Heap.value?_of_write hdict hm with ⟨-, es, heq, -⟩ | ⟨-, hm'⟩
    · cases heq
    · exact absurd hm' hlive
  | releases => exact absurd (Heap.value?_of_releaseAll hm) hlive

/-- A call leaves the attributes of a member as they are, but for what it assigns. -/
theorem ownAttribute?_perform {target : Option String} (hhost : s.host.IsOrderly)
    (hs : s.account.Sound)
    (hm : (s.perform c target).2.heap.value? m = some (.member cls d)) :
    (s.perform c target).2.heap.ownAttribute? m name =
      s.assign m name c (s.heap.ownAttribute? m name) := by
  have hs' := (safeRun_perform hhost hs c target).sound hs
  obtain ⟨entries, hd⟩ := Account.Sound.exists_attributes hs' hm
  -- the member was there before the call, or it is one that the call made
  by_cases hlive : s.heap.Live m
  · have hm₀ : s.heap.value? m = some (.member cls d) :=
      (value?_before hhost hs hm nofun).resolve_right hlive.lt_size.not_ge
    obtain ⟨entries₀, hd₀⟩ := Account.Sound.exists_attributes hs hm₀
    rw [Heap.ownAttribute?_eq hm hd, Heap.ownAttribute?_eq hm₀ hd₀, assign_eq_keep hs hm₀,
      ← Heap.under?_eq hd₀]
    exact find?_perform hhost hs hd
  · obtain ⟨result, h, he, hvalue⟩ := exists_effect hhost hs c target
    have hm' := hvalue m _ hm
    rw [Heap.ownAttribute?_of_not_live hlive,
      assign_of_not_mem fun hmem => hlive (hs.toBalanced.live_of_mem hmem),
      Heap.ownAttribute?_eq hm hd, ← Heap.ownAttribute?_eq hm' (hvalue d _ hd)]
    exact he.ownAttribute?_of_not_live hlive hm'

/-- The attributes of a member after calls are what these last stored. -/
theorem ownAttribute?_performAll (hhost : s.host.IsOrderly) (hs : s.account.Sound)
    {calls : List (Call × Option String)}
    (hlast : ∀ cls d, s.heap.value? m = some (.member cls d) →
      s.heap.ownAttribute? m name = last)
    (hnone : s.heap.cells.size ≤ m.index → last = none)
    (hm : (s.performAll calls).heap.value? m = some (.member cls d)) :
    (s.performAll calls).heap.ownAttribute? m name = lastStored m name s calls last := by
  induction calls generalizing s last with
  | nil => exact hlast cls d hm
  | cons call calls ih =>
    obtain ⟨c, target⟩ := call
    have hrun := safeRun_perform hhost hs c target
    have hhost' : (s.perform c target).2.host.IsOrderly := (s.host_perform c target).symm ▸ hhost
    refine ih hhost' (hrun.sound hs) (fun cls' d' hm' => ?_) (fun hsize => ?_) hm
    · rw [ownAttribute?_perform hhost hs hm']
      congr 1
      rcases value?_before hhost hs hm' nofun with hm₀ | hsize
      · exact hlast _ _ hm₀
      · rw [hnone hsize, Heap.ownAttribute?_of_not_live fun hl => hl.lt_size.not_ge hsize]
    · -- a member that was not made yet is in no slot
      have hsize' : s.heap.cells.size ≤ m.index := hrun.run.size_le.trans hsize
      rw [assign_of_not_mem fun hmem => (hs.toBalanced.live_of_mem hmem).lt_size.not_ge hsize',
        hnone hsize']

/-! ## What an assignment leaves as it is -/

/-- An assignment changes no value but that of the dictionary of its member. -/
theorem value?_of_assignment {a : Assignment} {target : Option String} {v : Value}
    (hhost : s.host.IsOrderly) (hs : s.account.Sound) (ha : s.assignment? c = some a)
    (hv : (s.perform c target).2.heap.value? r = some v) :
    s.heap.value? r = some v ∨
      (∃ cls, s.heap.value? a.member = some (.member cls r)) ∧ ∃ entries, v = .dict entries := by
  obtain ⟨result, h, he, hvalue⟩ := exists_effect hhost hs c target
  replace hv := hvalue r v hv
  cases he with
  | fails => exact .inl (by rwa [Heap.value?_spent] at hv)
  | gives _ hassignment => cases ha.symm.trans hassignment
  | refuses => exact .inl hv
  | writes hstore hd =>
    rcases Heap.value?_of_write hd hv with ⟨rfl, entries, rfl, -⟩ | ⟨-, hv'⟩
    · have hmember := (store?_of_assignment? ha).symm.trans hstore
      exact .inr ⟨(Heap.of_memberStore? hmember).1, entries, rfl⟩
    · exact .inl hv'
  | releases hc =>
    subst hc
    cases ha

section Assignment

variable {a : Assignment} {target : Option String} {k : Ref}

theorem value?_of_assignment_of_ne {v : Value} (hhost : s.host.IsOrderly) (hs : s.account.Sound)
    (ha : s.assignment? c = some a) (hv : (s.perform c target).2.heap.value? r = some v)
    (hdict : ∀ entries, v ≠ .dict entries) : s.heap.value? r = some v := by
  rcases value?_of_assignment hhost hs ha hv with hv' | ⟨-, entries, heq⟩
  · exact hv'
  · exact absurd heq (hdict entries)

/-- The methods of a class are not the attributes of a member. -/
theorem method?_of_assignment (hhost : s.host.IsOrderly) (hs : s.account.Sound)
    (ha : s.assignment? c = some a)
    (hk : (s.perform c target).2.heap.HasType k .userClass) :
    (s.perform c target).2.heap.method? name k = s.heap.method? name k := by
  have hs' := (safeRun_perform hhost hs c target).sound hs
  obtain ⟨v, hv, ht⟩ := hk
  cases v with
  | userClass bases methods =>
    have hv₀ := value?_of_assignment_of_ne hhost hs ha hv nofun
    obtain ⟨⟨w, hw, -⟩, -⟩ := hs'.fits k _ hv
    change (s.perform c target).2.heap.value? methods = some w at hw
    -- were the methods the attributes of a member, the class would be that member
    have hw₀ : s.heap.value? methods = some w := by
      rcases value?_of_assignment hhost hs ha hw with hw₀ | ⟨⟨cls, hm⟩, -⟩
      · exact hw₀
      · obtain rfl := Account.Sound.eq_of_mem_refs hs hm hv₀
          (List.mem_append_right _ List.mem_cons_self)
        cases hv₀.symm.trans hm
    rw [Heap.method?, Heap.method?, hv, hv₀]
    dsimp only
    rw [hw, hw₀]
  | unsuited t p hp => exact absurd (hs'.fits k _ hv).isSuited (Bool.eq_false_iff.1 hp)
  | _ => cases ht

theorem classLookup_of_assignment (hhost : s.host.IsOrderly) (hs : s.account.Sound)
    (ha : s.assignment? c = some a)
    (hk : (s.perform c target).2.heap.HasType k .userClass) :
    (s.perform c target).2.heap.classLookup k name = s.heap.classLookup k name := by
  have hs' := (safeRun_perform hhost hs c target).sound hs
  obtain ⟨order, ho⟩ := Account.Sound.exists_lineage hs' hk
  have ho₀ : s.heap.Lineage [k] order :=
    ho.of_value? fun _ _ => value?_of_assignment_of_ne hhost hs ha
  have hk₀ : s.heap.HasType k .userClass := by
    cases ho₀ with
    | cons hbases _ => exact Heap.hasType_of_bases? hbases
  have hfirst : order.findSome? ((s.perform c target).2.heap.method? name) =
      order.findSome? (s.heap.method? name) := by
    have hmethod : ∀ k ∈ order,
        (s.perform c target).2.heap.method? name k = s.heap.method? name k := fun _ hk =>
      method?_of_assignment hhost hs ha (ho.hasType hk)
    have hmethods := congrArg (List.findSome? id) (List.map_congr_left hmethod)
    rwa [List.findSome?_map, List.findSome?_map] at hmethods
  rw [Account.Sound.classLookup_eq hs name ho₀ hk₀, ← hfirst]
  exact Account.Sound.classLookup_eq hs' name ho hk

/-- What is found is a function before an assignment and after it, or neither time. -/
theorem inherited_of_assignment {found : Option Ref} (hhost : s.host.IsOrderly)
    (hs : s.account.Sound) (ha : s.assignment? c = some a)
    (hlive : ∀ f ∈ found, ∃ v, (s.perform c target).2.heap.value? f = some v) :
    (s.perform c target).2.heap.inherited found = s.heap.inherited found := by
  cases found with
  | none => rfl
  | some f =>
    obtain ⟨v, hv⟩ := hlive f rfl
    rw [Heap.inherited, Heap.inherited, hv]
    rcases value?_of_assignment hhost hs ha hv with hv₀ | ⟨⟨cls, hm⟩, entries, rfl⟩
    · rw [hv₀]
    · obtain ⟨entries₀, hf⟩ := Account.Sound.exists_attributes hs hm
      change s.heap.value? f = some (.dict entries₀) at hf
      rw [hf]

theorem attributeOf_of_assignment (hhost : s.host.IsOrderly) (hs : s.account.Sound)
    (ha : s.assignment? c = some a)
    (hm : (s.perform c target).2.heap.value? m = some (.member cls d))
    (hne : m ≠ a.member ∨ name ≠ a.name) :
    (s.perform c target).2.heap.attributeOf m name = s.heap.attributeOf m name := by
  have hs' := (safeRun_perform hhost hs c target).sound hs
  have hm₀ := value?_of_assignment_of_ne hhost hs ha hm nofun
  have hcls := (hs'.fits m _ hm).1
  have hown : (s.perform c target).2.heap.ownAttribute? m name = s.heap.ownAttribute? m name := by
    rw [ownAttribute?_perform hhost hs hm, assign, ha]
    refine if_neg ?_
    rintro ⟨rfl, rfl⟩
    exact hne.elim (· rfl) (· rfl)
  obtain ⟨found, hfound, hlive⟩ := Account.Sound.exists_classLookup_eq hs' hcls name
  have hfound₀ := (classLookup_of_assignment hhost hs ha hcls).symm.trans hfound
  change (s.perform c target).2.heap.classLookup cls name = .ok found at hfound
  rw [Heap.attributeOf, Heap.attributeOf, hm, hm₀, hown]
  cases s.heap.ownAttribute? m name with
  | some x => rfl
  | none =>
    dsimp only
    rw [hfound, hfound₀]
    exact inherited_of_assignment hhost hs ha hlive

end Assignment

/-! ## Members after any calls -/

/-- What holds of the members of a session, where `last` is what was last stored under a name on
    a member, and not removed since. -/
structure AttributesKept (s : Session) (last : Ref → String → Option Ref) : Prop where
  /-- There is one reference to the dictionary of a member's attributes. -/
  count_eq_one : ∀ m c d, s.heap.value? m = some (.member c d) → s.heap.count d = 1
  /-- That reference is the one in the member. -/
  eq_of_mem_refs : ∀ m c d, s.heap.value? m = some (.member c d) →
    d ∉ s.slots.values ∧ d ∉ s.heap.kept ∧ ∀ p v, s.heap.value? p = some v → d ∈ v.refs → p = m
  /-- What was last stored comes first, and then the first find in the class and its bases. -/
  attributeOf_eq : ∀ m c d, s.heap.value? m = some (.member c d) →
    ∃ order, s.heap.Lineage [c] order ∧ ∀ name, s.heap.attributeOf m name = match last m name with
      | some x => .own x
      | none => s.heap.inherited (order.findSome? (s.heap.method? name))
  perform_getAttribute : ∀ m c d name, s.heap.value? m = some (.member c d) →
    (memberAttribute m name).perform s.heap = (s.heap.attributeOf m name).answer s.heap m name ∧
    (getAttribute m name).perform s.heap = (s.heap.attributeOf m name).answer s.heap m name
  /-- A bound method is a new object, and has the function and the member. -/
  perform_boundMethod : ∀ m c d name f, s.heap.value? m = some (.member c d) →
    s.heap.attributeOf m name = .bound f → ¬s.heap.Live ⟨s.heap.cells.size⟩ ∧
      (boundMethod ⟨s.heap.cells.size⟩).perform ((Attribute.bound f).answer s.heap m name).2 =
        (.ok (f, m), ((Attribute.bound f).answer s.heap m name).2)
  perform_remove : ∀ m c d name, s.heap.value? m = some (.member c d) → last m name = none →
    (setMemberAttribute m name none).perform s.heap = (.error (.unknownName name), s.heap) ∧
    (setAttribute m name none).perform s.heap = (.error (.unknownName name), s.heap)

/-- What an assignment leaves as it is: the other attributes of the member, those of all other
    members, and what is looked up in classes. -/
structure Independent (s s' : Session) (a : Assignment) : Prop where
  attributeOf_eq : ∀ m c d name, s'.heap.value? m = some (.member c d) →
    m ≠ a.member ∨ name ≠ a.name → s'.heap.attributeOf m name = s.heap.attributeOf m name
  classLookup_eq : ∀ k name, s'.heap.HasType k .userClass →
    s'.heap.classLookup k name = s.heap.classLookup k name

theorem perform_getAttribute_of_member (hm : s.heap.value? m = some (.member cls d)) :
    (getAttribute m name).perform s.heap = (memberAttribute m name).perform s.heap := by
  rw [getAttribute, perform_typeOf_bind hm]

theorem perform_boundMethod_answer (h : Heap) (f m : Ref) (name : String) :
    (boundMethod ⟨h.cells.size⟩).perform ((Attribute.bound f).answer h m name).2 =
      (.ok (f, m), ((Attribute.bound f).answer h m name).2) := by
  have hsize : ((h.retain f).retain m).cells.size = h.cells.size := Heap.size_foldl_retain [f, m] h
  have hv := ((h.retain f).retain m).value?_push_self (.boundMethod f m)
  rw [hsize] at hv
  exact perform_payload_bind hv

/-- Nothing can be removed that is not there. -/
theorem perform_remove_of_none (hs : s.account.Sound)
    (hm : s.heap.value? m = some (.member cls d)) (hnone : s.heap.ownAttribute? m name = none) :
    (setMemberAttribute m name none).perform s.heap = (.error (.unknownName name), s.heap) ∧
      (setAttribute m name none).perform s.heap = (.error (.unknownName name), s.heap) := by
  obtain ⟨entries, hd⟩ := Account.Sound.exists_attributes hs hm
  have hassign :
      (dictAssign d name none).perform s.heap = (.error (.unknownName name), s.heap) := by
    rw [perform_dictAssign name none hd, if_pos ⟨rfl, Heap.ownAttribute?_eq hm hd ▸ hnone⟩]
  rw [perform_setMemberAttribute name none hm, perform_setAttribute name none hm]
  exact ⟨hassign, hassign⟩

theorem attributesKept (hs : s.account.Sound) {last : Ref → String → Option Ref}
    (hlast : ∀ m c d name, s.heap.value? m = some (.member c d) →
      s.heap.ownAttribute? m name = last m name) : s.AttributesKept last where
  count_eq_one := hs.alone
  eq_of_mem_refs m c d hm := by
    obtain ⟨hslots, -, hkept⟩ := Account.Sound.count_attributes hs hm
    exact ⟨Multiset.count_eq_zero.1 hslots, List.count_eq_zero.1 hkept,
      fun p v => Account.Sound.eq_of_mem_refs hs hm⟩
  attributeOf_eq m c d hm := by
    have hc := (hs.fits m _ hm).1
    obtain ⟨order, ho⟩ := Account.Sound.exists_lineage hs hc
    refine ⟨order, ho, fun name => ?_⟩
    have hlookup := Account.Sound.classLookup_eq hs name ho hc
    change s.heap.classLookup c name = _ at hlookup
    rw [Heap.attributeOf, hlast m c d name hm]
    cases last m name with
    | some x => rfl
    | none =>
      rw [hm]
      dsimp only
      rw [hlookup]
  perform_getAttribute m c d name hm :=
    have hp := Account.Sound.perform_memberAttribute hs hm
    ⟨hp, (perform_getAttribute_of_member hm).trans hp⟩
  perform_boundMethod m c d name f _ _ :=
    ⟨fun hl => Nat.lt_irrefl _ hl.lt_size, perform_boundMethod_answer _ f m name⟩
  perform_remove m c d name hm hnone :=
    perform_remove_of_none hs hm ((hlast m c d name hm).trans hnone)

/-- After any calls, the attributes of a member are those that were last stored on it, and
    behind them what its class has; and an assignment to one of them leaves all others as they
    are. -/
theorem attributes_of_members {host : Host} (hhost : host.IsOrderly)
    (calls : List (Call × Option String)) :
    let s := (start host).performAll calls
    s.AttributesKept (fun m name => lastStored m name (start host) calls none) ∧
    ∀ c target a, s.assignment? c = some a → s.Independent (s.perform c target).2 a := by
  intro s
  have hs : s.account.Sound := sound_performAll hhost calls
  have hhost' : s.host.IsOrderly := isOrderly_performAll hhost calls
  refine ⟨attributesKept hs fun m c d name hm => ?_, fun c target a ha => ⟨?_, ?_⟩⟩
  · refine ownAttribute?_performAll (s := start host) hhost (sound_start host) (fun _ _ hv => ?_)
      (fun _ => rfl) hm
    simp [start, Heap.value?, Heap.cell?] at hv
  · exact fun m c d name hm hne => attributeOf_of_assignment hhost' hs ha hm hne
  · exact fun k name hk => classLookup_of_assignment hhost' hs ha hk

/-- Calls that make two members of a class with a function, and store an attribute of the
    first. -/
def twoMembers : List (Call × Option String) :=
  [(.make .dict, some "d"), (.binary .newFunction "d" "d", some "f"),
    (.binary (.dictInsert "go") "d" "f", none), (.newClass none "d", some "C"),
    (.unary .newMember "C", some "m"), (.unary .newMember "C", some "n"),
    (.make (.integer 5), some "x"), (.store (.setAttribute "a") "m" (some "x"), none)]

/-- The first of two members has the attribute that was stored, and the function of its class,
    and keeps the attribute when the second is given one. -/
theorem attributes_of_members_of_two :
    let s := (start .basic).performAll twoMembers
    let s' := (s.perform (.store (.setAttribute "a") "n" (some "f")) none).2
    (getAttribute ⟨4⟩ "a").perform s.heap = (.ok ⟨7⟩, s.heap.retain ⟨7⟩) ∧
    (getAttribute ⟨4⟩ "go").perform s.heap =
      (.ok ⟨8⟩, ((s.heap.retain ⟨1⟩).retain ⟨4⟩).push (.boundMethod ⟨1⟩ ⟨4⟩)) ∧
    s'.heap.attributeOf ⟨4⟩ "a" = s.heap.attributeOf ⟨4⟩ "a" := by
  obtain ⟨hm, hclass, hmethod, hf, hsize, hown, hlast, ha, hm'⟩ :
      ((start .basic).performAll twoMembers).heap.value? ⟨4⟩ = some (.member ⟨2⟩ ⟨3⟩) ∧
      ((start .basic).performAll twoMembers).heap.bases? ⟨2⟩ = some [] ∧
      ((start .basic).performAll twoMembers).heap.method? "go" ⟨2⟩ = some ⟨1⟩ ∧
      ((start .basic).performAll twoMembers).heap.value? ⟨1⟩ = some (.function ⟨0⟩ ⟨0⟩) ∧
      ((start .basic).performAll twoMembers).heap.cells.size = 8 ∧
      lastStored ⟨4⟩ "a" (start .basic) twoMembers none = some ⟨7⟩ ∧
      lastStored ⟨4⟩ "go" (start .basic) twoMembers none = none ∧
      ((start .basic).performAll twoMembers).assignment? (.store (.setAttribute "a") "n" (some "f")) =
        some ⟨⟨6⟩, "a", some ⟨1⟩⟩ ∧
      (((start .basic).performAll twoMembers).perform
        (.store (.setAttribute "a") "n" (some "f")) none).2.heap.value? ⟨4⟩ =
          some (.member ⟨2⟩ ⟨3⟩) := by cbv
  obtain ⟨hkept, hindependent⟩ := attributes_of_members Host.isOrderly_basic twoMembers
  obtain ⟨order, ho, hattribute⟩ := hkept.attributeOf_eq _ _ _ hm
  obtain rfl := (Heap.Lineage.cons hclass .nil).unique ho
  have hget := fun name => (hkept.perform_getAttribute _ _ _ name hm).2
  refine ⟨?_, ?_, (hindependent _ none _ ha).attributeOf_eq _ _ _ "a" hm' (.inl (by decide))⟩
  · rw [hget, hattribute, hown]
    rfl
  · rw [hget, hattribute, hlast, List.findSome?_cons, hmethod, Heap.inherited, hf,
      Attribute.answer, hsize]

end Object.Session

end ScriptCore
