import ScriptCore.Proofs.Object.Operation

/-!
# What calls do

The action of a call hands out a reference in the end, or stores something, or releases what a
slot holds; and it fails, with objects made and freed in between at most.

* `Session.store?`: the entry that a call stores or removes, and the dictionary that it is in.
* `Session.Effect`, `Session.effect_action`: what the action of a call comes to.
-/

namespace ScriptCore

open Object

namespace Object

/-- The reference that an answer hands out. -/
def Outcome.ref? : Outcome Ref → Option Ref
  | object r => some r
  | _ => none

/-- An entry of a dictionary, to be stored or, without a content, to be removed. -/
structure Store where
  dict : Ref
  name : String
  content : Option Ref

/-- An attribute of a member, to be stored or, without a content, to be removed. -/
structure Assignment where
  member : Ref
  name : String
  content : Option Ref

end Object

/-! ## Stores and removals -/

namespace Heap

/-- The entry of a dictionary, if it is one. -/
def store? (h : Heap) (d : Ref) (name : String) (content : Option Ref) : Option Store :=
  match h.value? d with
  | some (.dict _) => some ⟨d, name, content⟩
  | _ => none

/-- The attribute of a member, if it is one. -/
def memberStore? (h : Heap) (m : Ref) (name : String) (content : Option Ref) : Option Store :=
  match h.value? m with
  | some (.member _ attributes) => h.store? attributes name content
  | _ => none

/-- The entry of a dictionary under a key, if it is a string. -/
def keyStore? (h : Heap) (d key : Ref) (content : Option Ref) : Option Store :=
  match h.value? d, h.value? key with
  | some (.dict _), some (.string bs) => some ⟨d, Utf8.decode bs, content⟩
  | _, _ => none

variable {h : Heap} {d m k : Ref} {name : String} {content : Option Ref} {w : Store}

theorem eq_of_store? (hw : h.store? d name content = some w) : w = ⟨d, name, content⟩ := by
  unfold store? at hw
  split at hw
  · exact (Option.some.inj hw).symm
  · cases hw

theorem of_memberStore? (hw : h.memberStore? m name content = some w) :
    (∃ c, h.value? m = some (.member c w.dict)) ∧ w.name = name ∧ w.content = content := by
  unfold memberStore? at hw
  split at hw
  · next c attributes hm =>
    obtain rfl := eq_of_store? hw
    exact ⟨⟨c, hm⟩, rfl, rfl⟩
  · cases hw

theorem of_keyStore? (hw : h.keyStore? d k content = some w) :
    w.dict = d ∧ w.content = content := by
  unfold keyStore? at hw
  split at hw
  · cases hw
    exact ⟨rfl, rfl⟩
  · cases hw

end Heap

namespace Object.Action

variable {h : Heap}

/-- Performed on a heap, an action stores or removes an entry, if there is one and, where it is
    to be removed, something in it. -/
inductive Writes (h : Heap) : Option Store → Action Unit → Prop
  | fails {x : Action Unit} {e : Error} (hp : x.perform h = (.error e, h)) : Writes h none x
  | refuses {x : Action Unit} {w : Store} {entries : NameMap Ref}
    (hd : h.value? w.dict = some (.dict entries)) (hcontent : w.content = none)
    (hnone : entries.find? w.name = none) (hp : x.perform h = (.error (.unknownName w.name), h)) :
    Writes h (some w) x
  | writes {x : Action Unit} {w : Store} {entries : NameMap Ref}
    (hd : h.value? w.dict = some (.dict entries))
    (hremoved : w.content = none → ∃ old, entries.find? w.name = some old)
    (hp : x.perform h = (.ok (), h.write w.dict entries w.name w.content)) :
    Writes h (some w) x

theorem Writes.congr {x y : Action Unit} {w : Option Store} (hx : Writes h w x)
    (hp : y.perform h = x.perform h) : Writes h w y := by
  cases hx with
  | fails hq => exact .fails (hp.trans hq)
  | refuses hd hcontent hnone hq => exact .refuses hd hcontent hnone (hp.trans hq)
  | writes hd hremoved hq => exact .writes hd hremoved (hp.trans hq)

theorem writes_dictAssign (hh : h.Paired) (d : Ref) (name : String) (content : Option Ref) :
    Writes h (h.store? d name content) (dictAssign d name content) := by
  rw [Heap.store?]
  split
  · next entries hd =>
    have hp := perform_dictAssign name content hd
    split at hp
    · next hn => exact .refuses hd hn.1 hn.2 hp
    · next hn =>
      refine .writes hd (fun hcontent => ?_) hp
      exact Option.ne_none_iff_exists'.1 fun hnone => hn ⟨hcontent, hnone⟩
  · next hne =>
    obtain ⟨e, hp⟩ := exists_perform_dictAssign_eq hh name content hne
    exact .fails hp

/-- An action that stores among the attributes of a member, and fails where there is none. -/
theorem writes_of_member {x : Action Unit} {m : Ref} {name : String} {content : Option Ref}
    (hh : h.Paired)
    (hmember : ∀ c attributes, h.value? m = some (.member c attributes) →
      x.perform h = (dictAssign attributes name content).perform h)
    (hother : (∀ c attributes, h.value? m ≠ some (.member c attributes)) →
      ∃ e, x.perform h = (.error e, h)) :
    Writes h (h.memberStore? m name content) x := by
  unfold Heap.memberStore?
  split
  · next hm => exact (writes_dictAssign hh _ _ _).congr (hmember _ _ hm)
  · next hm =>
    obtain ⟨e, hp⟩ := hother hm
    exact .fails hp

theorem writes_setMemberAttribute (hh : h.Paired) (m : Ref) (name : String)
    (content : Option Ref) :
    Writes h (h.memberStore? m name content) (setMemberAttribute m name content) :=
  writes_of_member hh (fun _ _ => perform_setMemberAttribute name content)
    (exists_perform_setMemberAttribute_eq hh name content)

theorem writes_setAttribute (hh : h.Paired) (m : Ref) (name : String) (content : Option Ref) :
    Writes h (h.memberStore? m name content) (setAttribute m name content) :=
  writes_of_member hh (fun _ _ => perform_setAttribute name content)
    (exists_perform_setAttribute_eq hh)

theorem writes_assignSubscript (hh : h.Paired) (d k : Ref) (content : Option Ref) :
    Writes h (h.keyStore? d k content) (assignSubscript d k content) := by
  unfold Heap.keyStore?
  split
  · next bs hd hk =>
    have hw := writes_dictAssign hh d (Utf8.decode bs) content
    rw [Heap.store?, hd] at hw
    exact hw.congr (perform_assignSubscript content hd hk)
  · next hne =>
    obtain ⟨e, hp⟩ := exists_perform_assignSubscript_eq hh content
      fun entries bs hd hk => hne entries bs hd hk
    exact .fails hp

end Object.Action

namespace Object

/-! ## The actions of calls -/

section Does

open ScriptCore.Object.Action

variable {α : Type} {h : Heap} {operands : List Ref} {held : Multiset Ref} {a b : Ref}

theorem does_object {x : Action Ref} (hx : Gives h operands x) :
    Does h operands Outcome.ref? (.object <$> x) :=
  .map hx

theorem does_ofOption {x : Action (Option Ref)} (hx : Finds h operands x) :
    Does h operands Outcome.ref? (.ofOption <$> x) := by
  refine .map ?_
  have hid : (fun o => (Outcome.ofOption o).ref?) = id := funext fun o => by cases o <;> rfl
  rwa [hid]

/-- What is read, and shown without a reference. -/
theorem does_read {x : Action α} {P : α → Prop} {f : α → Outcome Ref} (hx : Reads h x P)
    (hf : ∀ v, (f v).ref? = none) : Does h operands Outcome.ref? (f <$> x) :=
  .map (hx.does hf)

/-- A reference that is read, and shared. -/
theorem does_share {x : Action α} {P : α → Prop} {f : α → Ref} (hx : Reads h x P)
    (hf : ∀ v, P v → h.Obtained operands (f v)) :
    Does h operands Outcome.ref? (do return .object (← share (f (← x)))) :=
  hx.bind fun v hv => .returns (gives_share (hf v hv))

/-- A reference that is read, if there is one, and shared. -/
theorem does_share? {x : Action α} {P : α → Prop} {f : α → Option Ref} (hx : Reads h x P)
    (hf : ∀ v, P v → ∀ r ∈ f v, h.Obtained operands r) :
    Does h operands Outcome.ref? (do return .ofOption (← share? (f (← x)))) := by
  refine hx.bind fun v hv => ?_
  have hmap := does_ofOption (finds_share? (hf v hv))
  rwa [map_eq_pure_bind] at hmap

theorem does_literal (l : Literal) : Does h operands Outcome.ref? (.object <$> l.run) := by
  refine does_object ?_
  cases l with
  | none => exact gives_shareNone
  | typeObject t => exact gives_shareType t
  | _ => exact gives_alloc_of_refs_eq_nil rfl rfl

theorem does_unary (f : Unary) (ha : a ∈ operands) (hf : ∀ name, f ≠ .dictRemove name) :
    Does h operands Outcome.ref? (f.run a) := by
  cases f with
  | share => exact does_object (gives_share (.operand ha))
  | look => exact .pure rfl
  | kind => exact (reads_typeOf.does fun _ => rfl).returns
  | typeObject =>
    exact reads_typeOf.bind fun t _ => Does.returns (f := Outcome.object) (gives_shareType t)
  | asType =>
    refine reads_payload.bind fun p _ => ?_
    split <;> exact .pure rfl
  | tag => exact (reads_payload.does fun p => by cases p.tag? <;> rfl).returns
  | title => exact (reads_typeOf.does fun _ => rfl).returns
  | newMember => exact does_object (gives_newMember ha)
  | findNative table name => exact does_object (gives_findNative ha)
  | getAttribute name => exact does_object (gives_getAttribute ha)
  | repr => exact does_object gives_repr
  | print mode limit =>
    obtain ⟨p, n, hp, -⟩ := perform_print mode limit a h
    exact .map (.ok hp (Heap.Builds.nothing.spent n))
  | negative => exact does_object gives_negative
  | positive => exact does_object (gives_positive ha)
  | length => exact does_read reads_length fun _ => rfl
  | repetition count => exact does_object (gives_repetition ha)
  | item index => exact does_object (gives_item ha)
  | slice low high => exact does_object (gives_slice ha)
  | mappingLength => exact does_read reads_mappingLength fun _ => rfl
  | integerValue => exact does_read reads_integer fun _ => rfl
  | stringLength => exact (reads_bytes.does fun _ => rfl).returns
  | terminated => exact (reads_bytes.does fun _ => rfl).returns
  | decoded => exact (reads_bytes.does fun _ => rfl).returns
  | tupleItem index => exact does_object gives_tupleItem
  | tupleLength => exact (reads_items.does fun _ => rfl).returns
  | dictLookup name => exact does_ofOption finds_dictLookup
  | dictRemove name => exact absurd rfl (hf name)
  | dictSize => exact (reads_entries.does fun _ => rfl).returns
  | dictNames => exact (reads_entries.does fun _ => rfl).returns
  | functionCode => exact does_object gives_functionCode
  | functionGlobals => exact does_object gives_functionGlobals
  | methodReceiver =>
    exact does_share? reads_method fun m hm r hr => .offered hm (Option.mem_toList.2 hr)
  | methodName => exact (reads_method.does fun _ => rfl).returns
  | classLookup name => exact does_ofOption finds_classLookup
  | classAttribute name => exact does_object gives_classAttribute
  | classMethods =>
    exact does_share reads_userClass fun c hc =>
      .offered hc (List.mem_append_right _ List.mem_cons_self)
  | classBases =>
    exact does_share? reads_userClass fun c hc r hr =>
      .offered hc (List.mem_append_left _ (Option.mem_toList.2 hr))
  | memberClass => exact does_share reads_member fun m hm => .offered hm List.mem_cons_self
  | memberAttribute name => exact does_object (gives_memberAttribute ha)
  | boundFunction => exact does_share reads_boundMethod fun m hm => .offered hm List.mem_cons_self
  | boundReceiver =>
    exact does_share reads_boundMethod fun m hm =>
      .offered hm (List.mem_cons_of_mem _ List.mem_cons_self)

theorem does_binary {host : Host} (f : Binary) (hhost : host.IsOrderly)
    (hsound : Account.Sound ⟨h, held⟩) (ho : ∀ r ∈ operands, r ∈ held) (ha : a ∈ operands)
    (hb : b ∈ operands) (hf : ∀ name, f ≠ .dictInsert name) :
    Does h operands Outcome.ref? (f.run host a b) := by
  cases f with
  | newFunction =>
    refine does_object (gives_alloc rfl trivial fun q hq => .operand ?_)
    rcases List.mem_cons.1 hq with rfl | hq
    · exact ha
    · exact List.mem_singleton.1 hq ▸ hb
  | newBoundMethod => exact does_object (gives_newBoundMethod (.operand ha) (.operand hb))
  | same => exact .pure rfl
  | compare => exact does_read reads_compare fun _ => rfl
  | arithmetic op => exact does_object gives_arithmetic
  | concat => exact does_object (gives_concat ha hb)
  | subscript => exact does_object (gives_subscript hb)
  | dictInsert name => exact absurd rfl (hf name)
  | call => exact does_object (gives_call hhost hsound ho hb)
  | callUnbound => exact does_object (gives_callUnbound hhost hsound ho hb)

end Does

/-! ## Effects of calls -/

namespace Session

open ScriptCore.Object.Action

variable {s : Session} {c : Call} {name : String} {r : Ref}

/-- The heap of a session, with what its slots hold. -/
def account (s : Session) : Account := ⟨s.heap, ↑s.slots.values⟩

theorem bind_eq_ok {α β : Type} {x : Except Failure α} {f : α → Except Failure β} {b : β}
    (h : (x >>= f) = .ok b) : ∃ v, x = .ok v ∧ f v = .ok b := by
  cases x with
  | error e => cases h
  | ok v => exact ⟨v, rfl, h⟩

theorem find?_of_slot (h : s.slot name = .ok r) : s.slots.find? name = some r := by
  unfold slot at h
  split at h
  · next r' hr => cases h; exact hr
  · cases h

theorem mem_of_slot (h : s.slot name = .ok r) : r ∈ s.slots.values :=
  NameMap.mem_values_of_find? (find?_of_slot h)

/-- What a slot holds, if one is named. -/
def content? (s : Session) : Option String → Option (Option Ref)
  | some name => some <$> s.slots.find? name
  | none => some none

theorem content?_of_slot? {x : Option String} {o : Option Ref} (h : s.slot? x = .ok o) :
    s.content? x = some o := by
  cases x with
  | none => cases h; rfl
  | some name =>
    rw [slot?, map_eq_pure_bind] at h
    obtain ⟨r, hr, ho⟩ := bind_eq_ok h
    cases ho
    rw [content?, find?_of_slot hr]
    rfl

theorem mem_of_content? {x : Option String} {o : Option Ref} (h : s.content? x = some o) :
    ∀ r ∈ o, r ∈ s.slots.values := by
  cases x with
  | none => cases h; exact nofun
  | some name =>
    obtain ⟨r, hr, rfl⟩ := Option.map_eq_some_iff.1 h
    rintro _ ⟨⟩
    exact NameMap.mem_values_of_find? hr

theorem mem_of_slot? {x : Option String} {o : Option Ref} (h : s.slot? x = .ok o) :
    ∀ r ∈ o, r ∈ s.slots.values :=
  mem_of_content? (content?_of_slot? h)

theorem mem_of_mapM_slot {names : List String} {rs : List Ref} (h : names.mapM s.slot = .ok rs) :
    ∀ r ∈ rs, r ∈ s.slots.values := by
  induction names generalizing rs with
  | nil => cases h; simp
  | cons name names ih =>
    rw [List.mapM_cons] at h
    obtain ⟨r, hr, h⟩ := bind_eq_ok h
    obtain ⟨rs', hrs, h⟩ := bind_eq_ok h
    cases h
    exact List.forall_mem_cons.2 ⟨mem_of_slot hr, ih hrs⟩

/-- The attribute that a call stores or removes. -/
def assignment? (s : Session) : Call → Option Assignment
  | .store (.setAttribute name) a x | .store (.setMemberAttribute name) a x => do
    return ⟨← s.slots.find? a, name, ← s.content? x⟩
  | _ => none

/-- What a call has to be to assign to an attribute. -/
theorem exists_of_assignment? {a : Assignment} (ha : s.assignment? c = some a) :
    ∃ f name x, c = .store f name x ∧ (f = .setAttribute a.name ∨ f = .setMemberAttribute a.name) ∧
      s.slots.find? name = some a.member ∧ s.content? x = some a.content := by
  unfold assignment? at ha
  split at ha
  · obtain ⟨r, hr, ha⟩ := Option.bind_eq_some_iff.1 ha
    obtain ⟨o, ho, ha⟩ := Option.bind_eq_some_iff.1 ha
    cases ha
    exact ⟨_, _, _, rfl, .inl rfl, hr, ho⟩
  · obtain ⟨r, hr, ha⟩ := Option.bind_eq_some_iff.1 ha
    obtain ⟨o, ho, ha⟩ := Option.bind_eq_some_iff.1 ha
    cases ha
    exact ⟨_, _, _, rfl, .inr rfl, hr, ho⟩
  · cases ha

/-- The entry that a call stores or removes: in the dictionary that it names, or among the
    attributes of the member. -/
def store? (s : Session) : Call → Option Store
  | .unary (.dictRemove name) a => do
    s.heap.store? (← s.slots.find? a) name none
  | .binary (.dictInsert name) a x => do
    s.heap.store? (← s.slots.find? a) name (some (← s.slots.find? x))
  | .storeSubscript a key x => do
    s.heap.keyStore? (← s.slots.find? a) (← s.slots.find? key) (← s.content? x)
  | c => do
    let a ← s.assignment? c
    s.heap.memberStore? a.member a.name a.content

theorem slot_of_find? (h : s.slots.find? name = some r) : s.slot name = .ok r := by
  rw [slot, h]

theorem slot?_of_content? {x : Option String} {o : Option Ref} (h : s.content? x = some o) :
    s.slot? x = .ok o := by
  cases x with
  | none => cases h; rfl
  | some name =>
    obtain ⟨r, hr, rfl⟩ := Option.map_eq_some_iff.1 h
    rw [slot?, slot_of_find? hr]
    rfl

theorem store?_of_assignment? {a : Assignment} (ha : s.assignment? c = some a) :
    s.store? c = s.heap.memberStore? a.member a.name a.content := by
  cases c with
  | store f _ _ =>
    show (s.assignment? _).bind _ = _
    rw [ha]
    rfl
  | _ => cases ha

/-- What the action of a call comes to. -/
inductive Effect (s : Session) (c : Call) : Except Error (Outcome Ref) × Heap → Prop
  /-- It fails, and has made and freed objects at most. -/
  | fails {e : Error} {n : Nat} (hstore : s.store? c = none) :
    Effect s c (.error e, s.heap.spent n)
  /-- It builds what it answers with. -/
  | gives {o : Outcome Ref} {h' : Heap} (hstore : s.store? c = none)
    (hassignment : s.assignment? c = none) (hrelease : ∀ a, c ≠ .release a)
    (hbuilds : s.heap.Builds s.slots.values o.ref?.toList h') : Effect s c (.ok o, h')
  /-- There is nothing to remove. -/
  | refuses {w : Store} {entries : NameMap Ref} (hstore : s.store? c = some w)
    (hd : s.heap.value? w.dict = some (.dict entries)) (hcontent : w.content = none)
    (hnone : entries.find? w.name = none) : Effect s c (.error (.unknownName w.name), s.heap)
  | writes {w : Store} {entries : NameMap Ref} (hstore : s.store? c = some w)
    (hd : s.heap.value? w.dict = some (.dict entries))
    (hremoved : w.content = none → ∃ old, entries.find? w.name = some old) :
    Effect s c (.ok .nothing, s.heap.write w.dict entries w.name w.content)
  | releases {a : String} {r : Ref} (hc : c = .release a) (hr : s.slots.find? a = some r) :
    Effect s c (.ok .nothing, s.heap.release r)

theorem effect_of_does {x : Action (Outcome Ref)} (hstore : s.store? c = none)
    (hassignment : s.assignment? c = none) (hrelease : ∀ a, c ≠ .release a)
    (hx : Does s.heap s.slots.values Outcome.ref? x) :
    s.Effect c (x.perform s.heap) := by
  cases hx with
  | ok hp hbuilds => exact hp ▸ .gives hstore hassignment hrelease hbuilds
  | error hp => exact hp ▸ .fails hstore

theorem effect_of_writes {x : Action Unit} {w : Option Store} (hstore : s.store? c = w)
    (hx : Writes s.heap w x) :
    s.Effect c ((do
      x
      return .nothing : Action (Outcome Ref)).perform s.heap) := by
  cases hx with
  | @fails _ e hp =>
    have hfails : s.Effect c (.error e, s.heap.spent 0) := .fails hstore
    rwa [perform_bind_of_error hp, ← s.heap.spent_zero]
  | refuses hd hcontent hnone hp =>
    rw [perform_bind_of_error hp]
    exact .refuses hstore hd hcontent hnone
  | writes hd hremoved hp =>
    rw [perform_bind_of_ok hp]
    exact .writes hstore hd hremoved

theorem effect_unary (f : Unary) {a : String} (hh : s.heap.Paired) (hr : s.slot a = .ok r) :
    s.Effect (.unary f a) ((f.run r).perform s.heap) := by
  by_cases hf : ∃ name, f = .dictRemove name
  · obtain ⟨name, rfl⟩ := hf
    refine effect_of_writes ?_ (writes_dictAssign hh r name none)
    simp only [store?, find?_of_slot hr, Option.bind_eq_bind, Option.bind_some]
  · have hf' : ∀ name, f ≠ .dictRemove name := fun name heq => hf ⟨name, heq⟩
    refine effect_of_does ?_ rfl nofun (does_unary f (mem_of_slot hr) hf')
    cases f <;> first | rfl | exact absurd rfl (hf' _)

theorem effect_binary (f : Binary) {a b : String} {x : Ref} (hhost : s.host.IsOrderly)
    (hs : s.account.Sound) (hr : s.slot a = .ok r) (hx : s.slot b = .ok x) :
    s.Effect (.binary f a b) ((f.run s.host r x).perform s.heap) := by
  have hh : s.heap.Paired := hs.paired
  by_cases hf : ∃ name, f = .dictInsert name
  · obtain ⟨name, rfl⟩ := hf
    refine effect_of_writes ?_ (writes_dictAssign hh r name (some x))
    simp only [store?, find?_of_slot hr, find?_of_slot hx, Option.bind_eq_bind, Option.bind_some]
  · have hf' : ∀ name, f ≠ .dictInsert name := fun name heq => hf ⟨name, heq⟩
    refine effect_of_does ?_ rfl nofun
      (does_binary f hhost hs (fun _ hr => hr) (mem_of_slot hr) (mem_of_slot hx) hf')
    cases f <;> first | rfl | exact absurd rfl (hf' _)

theorem effect_storing (f : Storing) {a : String} {x : Option String} {o : Option Ref}
    (hh : s.heap.Paired) (hr : s.slot a = .ok r) (ho : s.slot? x = .ok o) :
    s.Effect (.store f a x) ((f.run r o).perform s.heap) := by
  have ha : ∀ name, f = .setAttribute name ∨ f = .setMemberAttribute name →
      s.assignment? (.store f a x) = some ⟨r, name, o⟩ := by
    rintro name (rfl | rfl) <;>
    · rw [assignment?, find?_of_slot hr, content?_of_slot? ho]
      rfl
  cases f with
  | setAttribute name =>
    refine effect_of_writes ?_ (writes_setAttribute hh r name o)
    exact store?_of_assignment? (ha name (.inl rfl))
  | setMemberAttribute name =>
    refine effect_of_writes ?_ (writes_setMemberAttribute hh r name o)
    exact store?_of_assignment? (ha name (.inr rfl))
  | assignItem index => exact effect_of_does rfl rfl nofun (reads_assignItem.bind nofun)
  | assignSlice low high => exact effect_of_does rfl rfl nofun (reads_assignSlice.bind nofun)

theorem effect_action {x : Action (Outcome Ref)} (hhost : s.host.IsOrderly)
    (hs : s.account.Sound) (hx : s.action c = .ok x) : s.Effect c (x.perform s.heap) := by
  have hh : s.heap.Paired := hs.paired
  cases c with
  | make l => cases hx; exact effect_of_does rfl rfl nofun (does_literal l)
  | unary f a =>
    obtain ⟨r, hr, hx⟩ := bind_eq_ok hx
    cases hx
    exact effect_unary f hh hr
  | binary f a b =>
    obtain ⟨r, hr, hx⟩ := bind_eq_ok hx
    obtain ⟨y, hy, hx⟩ := bind_eq_ok hx
    cases hx
    exact effect_binary f hhost hs hr hy
  | store f a x =>
    obtain ⟨r, hr, hx⟩ := bind_eq_ok hx
    obtain ⟨o, ho, hx⟩ := bind_eq_ok hx
    cases hx
    exact effect_storing f hh hr ho
  | storeSubscript a key x =>
    obtain ⟨r, hr, hx⟩ := bind_eq_ok hx
    obtain ⟨k, hk, hx⟩ := bind_eq_ok hx
    obtain ⟨o, ho, hx⟩ := bind_eq_ok hx
    cases hx
    refine effect_of_writes ?_ (writes_assignSubscript hh r k o)
    simp only [store?, find?_of_slot hr, find?_of_slot hk, content?_of_slot? ho,
      Option.bind_eq_bind, Option.bind_some]
  | newTuple items =>
    obtain ⟨rs, hrs, hx⟩ := bind_eq_ok hx
    cases hx
    refine effect_of_does rfl rfl nofun (does_object (gives_alloc rfl trivial fun q hq => ?_))
    exact .operand (mem_of_mapM_slot hrs q hq)
  | newForeign t tag items =>
    obtain ⟨rs, hrs, hx⟩ := bind_eq_ok hx
    cases hx
    refine effect_of_does rfl rfl nofun (does_object (gives_alloc rfl trivial fun q hq => ?_))
    exact .operand (mem_of_mapM_slot hrs q hq)
  | newClass bases methods =>
    obtain ⟨o, ho, hx⟩ := bind_eq_ok hx
    obtain ⟨r, hr, hx⟩ := bind_eq_ok hx
    cases hx
    exact effect_of_does rfl rfl nofun
      (does_object (gives_newClass hh (mem_of_slot? ho) (mem_of_slot hr)))
  | newMethod name native receiver =>
    obtain ⟨o, ho, hx⟩ := bind_eq_ok hx
    cases hx
    exact effect_of_does rfl rfl nofun (does_object (gives_newMethod (mem_of_slot? ho)))
  | release a =>
    obtain ⟨r, hr, hx⟩ := bind_eq_ok hx
    cases hx
    exact .releases rfl (find?_of_slot hr)
  | stats => cases hx; exact effect_of_does rfl rfl nofun (.ok rfl .nothing)

/-- A call that stores something has its operands. It stores in a dictionary that a slot holds,
    or among the attributes of a member that a slot holds; what it stores is held by a slot,
    too. -/
theorem of_store? {w : Store} (hw : s.store? c = some w) :
    (∃ x, s.action c = .ok x) ∧
    (w.dict ∈ s.slots.values ∨ ∃ a, s.assignment? c = some a ∧ a.member ∈ s.slots.values ∧
      s.heap.memberStore? a.member a.name a.content = some w) ∧
    ∀ x ∈ w.content, x ∈ s.slots.values := by
  have hmem : ∀ {name r}, s.slots.find? name = some r → r ∈ s.slots.values :=
    NameMap.mem_values_of_find?
  -- to know what is stored takes the same slots as the action
  unfold store? at hw
  simp only [Option.bind_eq_bind] at hw
  split at hw
  · obtain ⟨r, hr, hw⟩ := Option.bind_eq_some_iff.1 hw
    rw [action, slot_of_find? hr, Heap.eq_of_store? hw]
    exact ⟨⟨_, rfl⟩, .inl (hmem hr), nofun⟩
  · obtain ⟨r, hr, hw⟩ := Option.bind_eq_some_iff.1 hw
    obtain ⟨x, hx, hw⟩ := Option.bind_eq_some_iff.1 hw
    rw [action, slot_of_find? hr, slot_of_find? hx, Heap.eq_of_store? hw]
    exact ⟨⟨_, rfl⟩, .inl (hmem hr), by rintro _ ⟨⟩; exact hmem hx⟩
  · obtain ⟨r, hr, hw⟩ := Option.bind_eq_some_iff.1 hw
    obtain ⟨k, hk, hw⟩ := Option.bind_eq_some_iff.1 hw
    obtain ⟨o, ho, hw⟩ := Option.bind_eq_some_iff.1 hw
    obtain ⟨hdict, hcontent⟩ := Heap.of_keyStore? hw
    rw [action, slot_of_find? hr, slot_of_find? hk, slot?_of_content? ho]
    exact ⟨⟨_, rfl⟩, .inl (hdict ▸ hmem hr), hcontent ▸ mem_of_content? ho⟩
  · obtain ⟨a, ha, hstore⟩ := Option.bind_eq_some_iff.1 hw
    obtain ⟨f, name, x, rfl, -, hmember, hcontent⟩ := exists_of_assignment? ha
    rw [action, slot_of_find? hmember, slot?_of_content? hcontent,
      (Heap.of_memberStore? hstore).2.2]
    exact ⟨⟨_, rfl⟩, .inr ⟨a, ha, hmem hmember, hstore⟩, mem_of_content? hcontent⟩

/-- A call stores nothing if an operand is missing. -/
theorem store?_of_error {f : Failure} (hx : s.action c = .error f) : s.store? c = none := by
  by_contra hstore
  obtain ⟨w, hw⟩ := Option.ne_none_iff_exists'.1 hstore
  obtain ⟨⟨x, hx'⟩, -⟩ := of_store? hw
  cases hx.symm.trans hx'

end Session

end Object

end ScriptCore
