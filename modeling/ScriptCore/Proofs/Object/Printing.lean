import ScriptCore.Proofs.Object.Dispatch
import ScriptCore.Proofs.Object.Rendering

/-!
# Printing and showing agree

An object is printed by what shows it, with two exceptions: the object of a type is printed with
the whole name of the type, of which 80 characters are shown, and a string may be printed
without quotes.

* `Heap.Showable`: what an object is made of can be shown.
* `Action.failure?_textTo_eq_none_iff`: exactly the showable objects have a text.
* `Action.perform_printed`: how the text that is printed for an object of each type is made.
* `Session.print_agrees`: what this says of objects made by any calls.
-/

namespace ScriptCore

open Object Relation

/-- The objects whose texts are part of the text of an object, given what that holds. -/
def Object.Payload.parts : Payload → List Ref
  | tuple items => items
  | dict entries => entries.values
  | _ => []

theorem Object.Payload.parts_subset (p : Payload) : p.parts ⊆ p.refs := by
  cases p with
  | tuple | dict => exact List.Subset.refl _
  | _ => exact List.nil_subset _

/-! ## What can be shown -/

namespace Heap

variable {h : Heap} {r x : Ref} {v : Value}

/-- Whether the text of an object is part of that of another. -/
def TakesIn (h : Heap) (r x : Ref) : Prop :=
  ∃ v, h.value? r = some v ∧ x ∈ v.payload.parts

/-- Whether an object is of a type that is shown, and so is every object whose text is part of
    its text. -/
def Showable (h : Heap) (r : Ref) : Prop :=
  ∀ x, ReflTransGen h.TakesIn r x → ∃ v, h.value? x = some v ∧ v.type.isShown = true

theorem showable_iff (hv : h.value? r = some v) :
    h.Showable r ↔ v.type.isShown = true ∧ ∀ x ∈ v.payload.parts, h.Showable x := by
  constructor
  · intro hr
    obtain ⟨w, hw, hshown⟩ := hr r .refl
    cases hv.symm.trans hw
    exact ⟨hshown, fun x hx y hy => hr y (.head ⟨v, hv, hx⟩ hy)⟩
  · rintro ⟨hshown, hparts⟩ y hy
    obtain rfl | ⟨x, ⟨w, hw, hx⟩, hxy⟩ := hy.cases_head
    · exact ⟨v, hv, hshown⟩
    · cases hv.symm.trans hw
      exact hparts x hx y hxy

end Heap

namespace Object.Action

variable {α β γ : Type} {h : Heap} {held : Multiset Ref} {r : Ref} {v : Value} {p : Payload}

theorem failure?_eq_none_iff {x : Action α} :
    x.failure? h = none ↔ ∃ a h', x.perform h = (.ok a, h') := by
  rcases hx : x.perform h with ⟨e | a, h'⟩
  · simp [failure?_of_error hx]
  · simp [failure?_of_ok hx]

/-- Two parts succeed where each of them does, if that does not depend on the objects that were
    made and freed before. -/
theorem failure?_bind_eq_none_iff {x : Action α} {f : α → Action β} {P Q : Prop} (hs : Spends x)
    (hx : ∀ m, x.failure? (h.spent m) = none ↔ P)
    (hf : ∀ a m, (f a).failure? (h.spent m) = none ↔ Q) (m : Nat) :
    (x >>= f).failure? (h.spent m) = none ↔ P ∧ Q := by
  rw [← hx m]
  obtain ⟨e | a, n, hp⟩ := hs (h.spent m)
  · rw [failure?_bind_of_error hp, failure?_of_error hp]
    simp
  · rw [failure?_bind_of_ok hp, failure?_of_ok hp, Heap.spent_spent, hf]
    simp

theorem failure?_mapM_eq_none_iff {x : γ → Action α} {P : γ → Prop} (is : List γ)
    (hs : ∀ i, Spends (x i)) (hx : ∀ i ∈ is, ∀ m, (x i).failure? (h.spent m) = none ↔ P i)
    (m : Nat) : (is.mapM x).failure? (h.spent m) = none ↔ ∀ i ∈ is, P i := by
  induction is generalizing m with
  | nil => exact iff_of_true rfl (List.forall_mem_nil P)
  | cons i is ih =>
    obtain ⟨hxi, hx⟩ := List.forall_mem_cons.1 hx
    rw [List.mapM_cons, List.forall_mem_cons]
    refine failure?_bind_eq_none_iff (hs i) hxi (fun a m => ?_) m
    rw [failure?_bind_eq_none_iff (Spends.mapM fun i _ => hs i) (ih hx)
      (fun _ _ => iff_of_true rfl trivial) m, and_true]

/-- The text of an item is there where that of the object is. -/
theorem failure?_itemText_eq_none_iff {n : Nat} {P : Prop}
    (hr : ∀ m, (textTo n r).failure? (h.spent m) = none ↔ P) (m : Nat) :
    (itemText n r).failure? (h.spent m) = none ↔ P := by
  have hrest : ∀ text m, Action.failure? (h.spent m) (do
      let s ← alloc (.string text)
      let text ← bytes s
      release s
      return text) = none ↔ True := fun text m =>
    iff_of_true (failure?_of_ok (perform_string text _)) trivial
  exact (failure?_bind_eq_none_iff (spends_textTo n r) hr hrest m).trans (and_iff_left trivial)

theorem failure?_itemTexts_eq_none_iff {n : Nat} {is : List Ref} {f : List Bytes → Bytes}
    {P : Ref → Prop} (hx : ∀ x ∈ is, ∀ m, (textTo n x).failure? (h.spent m) = none ↔ P x)
    (m : Nat) :
    Action.failure? (h.spent m) (do return f (← is.mapM (itemText n))) = none ↔
      ∀ x ∈ is, P x := by
  have hitems := failure?_mapM_eq_none_iff is (spends_itemText n)
    fun x hx' => failure?_itemText_eq_none_iff (hx x hx')
  have hspends : Spends (is.mapM (itemText n)) := .mapM fun x _ => spends_itemText n x
  rw [failure?_bind_eq_none_iff hspends hitems (fun _ _ => iff_of_true rfl trivial) m, and_true]

/-- **Exactly what is showable has a text**, where no dictionary reaches itself. -/
theorem failure?_textTo_eq_none_iff (hb : Account.Sound ⟨h, held⟩) (hself : ¬h.SelfReaching)
    (n : Nat) (hr : h.Live r) (hn : (h.span r).card ≤ n) (m : Nat) :
    (textTo n r).failure? (h.spent m) = none ↔ h.Showable r := by
  induction n generalizing r m with
  | zero => exact absurd (Heap.card_span_pos hr) (Nat.not_lt.2 hn)
  | succ n ih =>
    obtain ⟨v, hv⟩ := Heap.live_iff_value?.1 hr
    have hv' : (h.spent m).value? r = some v := by rwa [Heap.value?_spent]
    -- the parts reach less, since nothing reaches itself
    have hparts : ∀ x ∈ v.payload.parts, ∀ m, (textTo n x).failure? (h.spent m) = none ↔ h.Showable x :=
      fun x hx => by
        have hx' := v.payload.parts_subset hx
        have hlt := Heap.card_span_lt hv hx' fun hcycle => hself (hb.selfReaching hcycle)
        exact ih (hb.live_of_mem_refs hv hx') (Nat.le_of_lt_succ (hlt.trans_le hn))
    rw [textTo, failure?_typeOf_bind hv', Heap.showable_iff hv]
    cases v with
    | none => exact iff_of_true rfl ⟨rfl, List.forall_mem_nil _⟩
    | typeObject =>
      exact iff_of_true (failure?_bind_of_ok (perform_typeObject hv')) ⟨rfl, List.forall_mem_nil _⟩
    | integer =>
      exact iff_of_true (failure?_bind_of_ok (perform_integer hv')) ⟨rfl, List.forall_mem_nil _⟩
    | string =>
      exact iff_of_true (failure?_bind_of_ok (perform_bytes hv')) ⟨rfl, List.forall_mem_nil _⟩
    | tuple =>
      dsimp only
      rw [failure?_bind_of_ok (perform_items hv')]
      exact (failure?_itemTexts_eq_none_iff hparts m).trans (and_iff_right rfl).symm
    | dict =>
      dsimp only
      rw [failure?_bind_of_ok (perform_entries hv')]
      exact (failure?_itemTexts_eq_none_iff hparts m).trans (and_iff_right rfl).symm
    | method name native receiver =>
      refine iff_of_true ?_ ⟨rfl, List.forall_mem_nil _⟩
      have hmethod : (method r).perform (h.spent m) = (.ok (name, native, receiver), h.spent m) :=
        perform_payload_bind hv'
      show (nativeText r).failure? (h.spent m) = none
      rw [nativeText, failure?_bind_of_ok hmethod]
      cases receiver with
      | none => rfl
      | some x =>
        obtain ⟨w, hw⟩ := Heap.live_iff_value?.1 (hb.live_of_mem_refs hv (List.mem_singleton_self x))
        have hw' : (h.spent m).value? x = some w := by rwa [Heap.value?_spent]
        exact failure?_bind_of_ok (perform_typeOf hw')
    | function | userClass | member | boundMethod | foreign =>
      exact iff_of_false (Option.some_ne_none _) fun h => Bool.false_ne_true h.1
    | unsuited t p hp => exact absurd (hb.paired r _ hv) (Bool.eq_false_iff.1 hp)

/-! ## What is shown and what is printed -/

/-- Whether an object is printed by the given bytes: a writer gets as many of them as it takes. -/
def Prints (h : Heap) (mode : PrintMode) (r : Ref) (bs : Bytes) : Prop :=
  ∀ limit, ∃ h', (print mode limit r).perform h = (.ok (Printed.write limit bs), h')

variable {mode : PrintMode} {bs : Bytes} {t : ObjectType}

/-- The part of a type's name that is shown. -/
def shownName (t : ObjectType) : String :=
  String.ofList (t.name.toList.take shownLength)

theorem shownName_eq (ht : t.name.length ≤ shownLength) : shownName t = t.name := by
  rw [shownName, List.take_of_length_le (by rwa [String.length_toList]), String.ofList_toList]

theorem perform_print_of_ok {h' : Heap} (hp : (printed mode r).perform h = (.ok bs, h'))
    (limit : Option Nat) :
    (print mode limit r).perform h = (.ok (Printed.write limit bs), h') := by
  rw [print, perform_tryCatch, map_eq_pure_bind, perform_bind_of_ok hp]
  rfl

theorem perform_print_of_error {e : Error} {h' : Heap}
    (hp : (printed mode r).perform h = (.error e, h')) (limit : Option Nat) :
    (print mode limit r).perform h = (.ok ⟨[], some e⟩, h') := by
  rw [print, perform_tryCatch, map_eq_pure_bind, perform_bind_of_error hp]
  rfl

theorem prints_iff : Prints h mode r bs ↔ ∃ h', (printed mode r).perform h = (.ok bs, h') := by
  constructor
  · intro hr
    obtain ⟨h', hr⟩ := hr none
    rcases hp : (printed mode r).perform h with ⟨e | bs', h''⟩
    · rw [perform_print_of_error hp] at hr
      cases hr
    · rw [perform_print_of_ok hp] at hr
      cases hr
      exact ⟨h', rfl⟩
  · rintro ⟨h', hp⟩ limit
    exact ⟨h', perform_print_of_ok hp limit⟩

theorem perform_repr_of_ok {h' : Heap} (hp : (text r).perform h = (.ok bs, h')) :
    (repr r).perform h = (.ok ⟨h'.cells.size⟩, h'.push (.string bs)) :=
  (perform_bind_of_ok hp).trans (perform_alloc _ h')

theorem perform_repr_of_error {e : Error} {h' : Heap}
    (hp : (text r).perform h = (.error e, h')) : (repr r).perform h = (.error e, h') :=
  perform_bind_of_error hp

theorem hasRepr_iff : HasRepr h r bs ↔ ∃ h', (text r).perform h = (.ok bs, h') := by
  rcases hp : (text r).perform h with ⟨e | bs', h'⟩
  · rw [HasRepr, perform_repr_of_error hp]
    simp
  · rw [HasRepr, perform_repr_of_ok hp]
    simp [Heap.value?_push_self]

theorem perform_text_of_type (hv : h.value? r = some (.typeObject t)) :
    (text r).perform h = (.ok (typeText (shownName t)), h) :=
  (perform_typeOf_bind hv).trans (perform_bind_of_ok (perform_typeObject hv))

theorem perform_text_of_string (hv : h.value? r = some (.string bs)) :
    (text r).perform h = (.ok (Quoted.quote bs), h) :=
  (perform_typeOf_bind hv).trans (perform_bind_of_ok (perform_bytes hv))

theorem perform_printed_of_type (hv : h.value? r = some (.typeObject t)) :
    (printed mode r).perform h = (.ok (typeText t.name), h) :=
  (perform_typeOf_bind hv).trans (perform_bind_of_ok (perform_typeObject hv))

theorem perform_printed_of_string (hv : h.value? r = some (.string bs)) :
    (printed .raw r).perform h = (.ok bs, h) :=
  (perform_typeOf_bind hv).trans (perform_bind_of_ok (perform_bytes hv))

/-- Other objects are printed by what shows them. -/
theorem perform_printed (hv : h.value? r = some ⟨t, p⟩) (hshown : t.isShown = true)
    (htype : t ≠ .type) (hmode : mode = .normal ∨ t ≠ .string) :
    (printed mode r).perform h = (text r).perform h := by
  have hread : (printed mode r).perform h = _ := perform_typeOf_bind hv
  have htext : (text r).perform h = (textTo h.depth r).perform h := rfl
  rw [Heap.depth, textTo, perform_typeOf_bind hv] at htext
  cases t with
  | type => exact absurd rfl htype
  | none | integer => exact hread.trans htext.symm
  | string =>
    obtain rfl | hstring := hmode
    · exact hread.trans htext.symm
    · exact absurd rfl hstring
  | tuple | dict | method => exact hread
  | function | userClass | member | boundMethod | foreign => cases hshown

theorem exists_hasRepr_iff (hb : Account.Sound ⟨h, held⟩) (hself : ¬h.SelfReaching)
    (hv : h.value? r = some v) : (∃ bs, HasRepr h r bs) ↔ h.Showable r := by
  have hcard : (h.span r).card ≤ h.depth := (h.card_span_le r).trans (Nat.le_succ _)
  have htext := failure?_textTo_eq_none_iff hb hself h.depth (Heap.live_of_value? hv) hcard 0
  rw [Heap.spent_zero, failure?_eq_none_iff] at htext
  exact (exists_congr fun _ => hasRepr_iff).trans htext

theorem exists_typeObject (hh : h.Paired) (hv : h.value? r = some ⟨.type, p⟩) :
    ∃ t, p = .typeObject t := by
  have hs := hh r _ hv
  cases p with
  | typeObject t => exact ⟨t, rfl⟩
  | _ => cases hs

theorem exists_string (hh : h.Paired) (hv : h.value? r = some ⟨.string, p⟩) :
    ∃ bs, p = .string bs := by
  have hs := hh r _ hv
  cases p with
  | string bs => exact ⟨bs, rfl⟩
  | _ => cases hs

theorem prints_normal_iff (hh : h.Paired) (hv : h.value? r = some ⟨t, p⟩)
    (hshown : t.isShown = true)
    (hname : ∀ u, (⟨t, p⟩ : Value) = .typeObject u → u.name.length ≤ shownLength) :
    Prints h .normal r bs ↔ HasRepr h r bs := by
  rw [prints_iff, hasRepr_iff]
  by_cases htype : t = .type
  · subst htype
    obtain ⟨u, rfl⟩ := exists_typeObject hh hv
    rw [perform_printed_of_type hv, perform_text_of_type hv, shownName_eq (hname u rfl)]
  · rw [perform_printed hv hshown htype (.inl rfl)]

theorem prints_raw_iff (hh : h.Paired) (hv : h.value? r = some ⟨t, p⟩) (hshown : t.isShown = true)
    (hstring : t ≠ .string) : Prints h .raw r bs ↔ Prints h .normal r bs := by
  rw [prints_iff, prints_iff]
  by_cases htype : t = .type
  · subst htype
    obtain ⟨u, rfl⟩ := exists_typeObject hh hv
    rw [perform_printed_of_type hv, perform_printed_of_type hv]
  · rw [perform_printed hv hshown htype (.inr hstring), perform_printed hv hshown htype (.inl rfl)]

/-- An object can be printed exactly where it can be shown, with quotes or without. -/
theorem exists_prints_iff (hh : h.Paired) (hv : h.value? r = some ⟨t, p⟩)
    (hshown : t.isShown = true) : (∃ bs, Prints h mode r bs) ↔ ∃ bs, HasRepr h r bs := by
  -- types and strings can always be shown
  by_cases htype : t = .type
  · subst htype
    obtain ⟨u, rfl⟩ := exists_typeObject hh hv
    exact iff_of_true ⟨_, prints_iff.2 ⟨h, perform_printed_of_type hv⟩⟩
      ⟨_, hasRepr_iff.2 ⟨h, perform_text_of_type hv⟩⟩
  by_cases hstring : mode ≠ .normal ∧ t = .string
  · obtain ⟨hmode, rfl⟩ := hstring
    obtain ⟨bs, rfl⟩ := exists_string hh hv
    obtain rfl : mode = .raw := by cases mode <;> first | rfl | exact absurd rfl hmode
    exact iff_of_true ⟨_, prints_iff.2 ⟨h, perform_printed_of_string hv⟩⟩
      ⟨_, hasRepr_iff.2 ⟨h, perform_text_of_string hv⟩⟩
  · rw [not_and_or, not_not] at hstring
    refine exists_congr fun bs => ?_
    rw [prints_iff, hasRepr_iff, perform_printed hv hshown htype hstring]

/-- Where an object cannot be shown, nothing of it is printed, for the same reason. -/
theorem perform_print_of_repr_error (hh : h.Paired) (hv : h.value? r = some ⟨t, p⟩)
    (hshown : t.isShown = true) {e : Error} {h' : Heap}
    (hp : (repr r).perform h = (.error e, h')) (mode : PrintMode) (limit : Option Nat) :
    (print mode limit r).perform h = (.ok ⟨[], some e⟩, h') := by
  have htext : (text r).perform h = (.error e, h') := by
    rcases ht : (text r).perform h with ⟨e' | bs, h''⟩
    · rw [perform_repr_of_error ht] at hp
      cases hp
      rfl
    · rw [perform_repr_of_ok ht] at hp
      cases hp
  refine perform_print_of_error ?_ limit
  rw [perform_printed hv hshown, htext]
  · rintro rfl
    obtain ⟨u, rfl⟩ := exists_typeObject hh hv
    cases (perform_text_of_type hv).symm.trans htext
  · refine .inr ?_
    rintro rfl
    obtain ⟨bs, rfl⟩ := exists_string hh hv
    cases (perform_text_of_string hv).symm.trans htext

end Object.Action

namespace Object.Session

open ScriptCore.Object.Action

/-- **Printing and showing agree.** In a session where no dictionary reaches itself, an object
    of a type that is shown can be printed exactly where it can be shown, which is where it is
    showable; and where it cannot, nothing is printed, for the same reason. It is printed by the
    text that shows it, unless it is the object of a type whose name is longer than what is
    shown of it: then the whole name is printed. Without quotes, strings are printed as they are
    and all other objects as before. -/
theorem print_agrees {host : Host} (hhost : host.IsOrderly) (calls : List (Call × Option String))
    {r : Ref} {v : Value} (hself : ¬((start host).performAll calls).heap.SelfReaching)
    (hv : ((start host).performAll calls).heap.value? r = some v)
    (hshown : v.type.isShown = true) :
    let h := ((start host).performAll calls).heap
    ((∃ bs, HasRepr h r bs) ↔ h.Showable r) ∧
    (∀ mode, (∃ bs, Prints h mode r bs) ↔ ∃ bs, HasRepr h r bs) ∧
    (∀ e h', (Action.repr r).perform h = (.error e, h') → ∀ mode limit,
      (print mode limit r).perform h = (.ok ⟨[], some e⟩, h')) ∧
    ((∀ t, v = .typeObject t → t.name.length ≤ shownLength) →
      ∀ bs, Prints h .normal r bs ↔ HasRepr h r bs) ∧
    (∀ t, v = .typeObject t → Prints h .normal r (typeText t.name) ∧
      HasRepr h r (typeText (shownName t))) ∧
    (v.type ≠ .string → ∀ bs, Prints h .raw r bs ↔ Prints h .normal r bs) ∧
    (∀ bs, v = .string bs → Prints h .raw r bs) := by
  intro h
  have hs : Account.Sound ⟨h, _⟩ := sound_performAll hhost calls
  have hh := hs.paired
  refine ⟨exists_hasRepr_iff hs hself hv,
    fun _ => exists_prints_iff hh hv hshown, fun _ _ => perform_print_of_repr_error hh hv hshown,
    fun hname _ => prints_normal_iff hh hv hshown hname, ?_,
    fun hstring _ => prints_raw_iff hh hv hshown hstring, ?_⟩
  · rintro t rfl
    exact ⟨prints_iff.2 ⟨h, perform_printed_of_type hv⟩,
      hasRepr_iff.2 ⟨h, perform_text_of_type hv⟩⟩
  · rintro bs rfl
    exact prints_iff.2 ⟨h, perform_printed_of_string hv⟩

/-- A dictionary that holds a tuple of a type and a string, and a tuple of a function. -/
def nestedItems : List (Call × Option String) :=
  [(.make (.typeObject .integer), some "t"), (.make (.string [97]), some "s"),
    (.newTuple ["t", "s"], some "p"), (.make .dict, some "d"),
    (.binary (.dictInsert "k") "d" "p", none), (.binary .newFunction "s" "d", some "f"),
    (.newTuple ["f"], some "q")]

/-- The dictionary is shown and printed by the same text, and so is the type, whose name is
    short; the string comes without quotes; and the second tuple can be neither shown nor
    printed. -/
theorem print_agrees_of_nested :
    let h := ((start .basic).performAll nestedItems).heap
    (∃ bs, HasRepr h ⟨3⟩ bs ∧ Prints h .normal ⟨3⟩ bs ∧ Prints h .raw ⟨3⟩ bs) ∧
    Prints h .normal ⟨0⟩ (typeText "int") ∧ HasRepr h ⟨0⟩ (typeText "int") ∧
    Prints h .raw ⟨1⟩ [97] ∧
    ¬∃ bs, Prints h .normal ⟨5⟩ bs := by
  intro h
  have hself : ¬h.SelfReaching := fun ⟨d, _, _, hd⟩ =>
    Heap.not_onCycle_of_older (by decide) d hd
  obtain ⟨ht, hs, hp, hd, hf, hq⟩ :
      ((start .basic).performAll nestedItems).heap.value? ⟨0⟩ = some (.typeObject .integer) ∧
      ((start .basic).performAll nestedItems).heap.value? ⟨1⟩ = some (.string [97]) ∧
      ((start .basic).performAll nestedItems).heap.value? ⟨2⟩ = some (.tuple [⟨0⟩, ⟨1⟩]) ∧
      ((start .basic).performAll nestedItems).heap.value? ⟨3⟩ = some (.dict (.insert .empty "k" ⟨2⟩)) ∧
      ((start .basic).performAll nestedItems).heap.value? ⟨4⟩ = some (.function ⟨1⟩ ⟨3⟩) ∧
      ((start .basic).performAll nestedItems).heap.value? ⟨5⟩ = some (.tuple [⟨4⟩]) := by cbv
  have htype : h.Showable ⟨0⟩ := (Heap.showable_iff ht).2 ⟨rfl, List.forall_mem_nil _⟩
  have hstring : h.Showable ⟨1⟩ := (Heap.showable_iff hs).2 ⟨rfl, List.forall_mem_nil _⟩
  have hpair : h.Showable ⟨2⟩ := (Heap.showable_iff hp).2 ⟨rfl, List.forall_mem_cons.2
    ⟨htype, List.forall_mem_singleton.2 hstring⟩⟩
  have hdict : h.Showable ⟨3⟩ := (Heap.showable_iff hd).2 ⟨rfl, fun x hx => by
    obtain rfl := List.mem_singleton.1 hx
    exact hpair⟩
  obtain ⟨hshown, -, -, hnormal, -, hraw, -⟩ := print_agrees Host.isOrderly_basic nestedItems hself hd rfl
  obtain ⟨bs, hbs⟩ := hshown.2 hdict
  have hprints := (hnormal (fun _ h => by cases h) bs).2 hbs
  obtain ⟨-, -, -, -, hint, -, -⟩ := print_agrees Host.isOrderly_basic nestedItems hself ht rfl
  obtain ⟨-, -, -, -, -, -, hbare⟩ := print_agrees Host.isOrderly_basic nestedItems hself hs rfl
  obtain ⟨hshown', hagree, -, -, -, -, -⟩ := print_agrees Host.isOrderly_basic nestedItems hself hq rfl
  refine ⟨⟨bs, hbs, hprints, (hraw (by decide) bs).2 hprints⟩, (hint _ rfl).1, ?_, hbare _ rfl, ?_⟩
  · have hrepr := (hint _ rfl).2
    rwa [shownName_eq (by decide)] at hrepr
  · intro hprinted
    obtain ⟨-, hparts⟩ := (Heap.showable_iff hq).1 (hshown'.1 ((hagree .normal).1 hprinted))
    obtain ⟨hfunction, -⟩ := (Heap.showable_iff hf).1 (hparts ⟨4⟩ (List.mem_singleton_self _))
    cases hfunction

/-- A type with a name of 100 letters. -/
def longNamed : ObjectType :=
  .foreign { name := String.ofList (List.replicate 100 'L'), isFreed := false }

/-- The object of a type with a long name is printed with the whole name, and that is not the
    text that shows it. -/
theorem long_name_cut :
    let h := ((start .basic).performAll [(.make (.typeObject longNamed), some "t")]).heap
    ¬h.SelfReaching ∧ h.value? ⟨0⟩ = some (.typeObject longNamed) ∧
      HasRepr h ⟨0⟩ (typeText (String.ofList (List.replicate 80 'L'))) ∧
      Prints h .normal ⟨0⟩ (typeText longNamed.name) ∧
      ¬HasRepr h ⟨0⟩ (typeText longNamed.name) := by
  intro h
  have hself : ¬h.SelfReaching := fun ⟨d, _, _, hd⟩ =>
    Heap.not_onCycle_of_older (by decide) d hd
  have hv : h.value? ⟨0⟩ = some (.typeObject longNamed) := rfl
  have htext := perform_text_of_type hv
  have hname : shownName longNamed = String.ofList (List.replicate 80 'L') := by
    rw [shownName, longNamed, ObjectType.name, String.toList_ofList, List.take_replicate]
    rfl
  rw [hname] at htext
  refine ⟨hself, hv, hasRepr_iff.2 ⟨h, htext⟩, prints_iff.2 ⟨h, perform_printed_of_type hv⟩, ?_⟩
  rw [hasRepr_iff, htext]
  rintro ⟨h', heq⟩
  have hbytes := Except.ok.inj (Prod.mk.inj heq).1
  have hlength := congrArg String.length (Utf8.ofString_inj.1 hbytes)
  simp only [longNamed, ObjectType.name, String.length_append, String.length_ofList,
    List.length_replicate] at hlength
  omega

end Object.Session

end ScriptCore
