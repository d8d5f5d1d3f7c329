import ScriptCore.Proofs.Object.Sound

/-!
# What actions do

An action is performed on a heap, and fails or answers.

* `Action.Reads`: it leaves the heap as it is.
* `Action.Spends`: it leaves the heap with objects that it made and freed.
* `Action.Does`: where it fails, it has made and freed objects at most; where it answers, it
  has done no more than build what it answers with, if that is an object. Such an action is put
  together from parts that read and one that does something in the end.
-/

namespace ScriptCore.Object.Action

variable {α β : Type}

/-! ## Performing actions -/

@[simp] theorem perform_pure (v : α) (h : Heap) : (pure v : Action α).perform h = (.ok v, h) := rfl

@[simp] theorem perform_throw (e : Error) (h : Heap) :
    (throw e : Action α).perform h = (.error e, h) := rfl

@[simp] theorem perform_get (h : Heap) : (get : Action Heap).perform h = (.ok h, h) := rfl

theorem perform_bind (x : Action α) (f : α → Action β) (h : Heap) :
    (x >>= f).perform h = match x.perform h with
      | (.ok v, h') => (f v).perform h'
      | (.error e, h') => (.error e, h') := by
  simp only [perform, ExceptT.run_bind, StateT.run_bind, Id.run_bind]
  rcases (x.run.run h).run with ⟨_ | _, _⟩ <;> rfl

theorem perform_tryCatch (x : Action α) (f : Error → Action α) (h : Heap) :
    (tryCatch x f).perform h = match x.perform h with
      | (.ok v, h') => (.ok v, h')
      | (.error e, h') => (f e).perform h' := by
  simp only [perform, ExceptT.run_tryCatch, StateT.run_bind, Id.run_bind]
  rcases (x.run.run h).run with ⟨_ | _, _⟩ <;> rfl

theorem perform_value (r : Ref) (h : Heap) :
    (value r).perform h = match h.value? r with
      | some v => (.ok v, h)
      | none => (.error .badCall, h) := by
  rw [value, perform_bind, perform_get]
  dsimp only
  split <;> simp [*]

theorem perform_ofHeap (f : Heap → Except Error α) (h : Heap) :
    (ofHeap f).perform h = (f h, h) := by
  rw [ofHeap, perform_bind, perform_get]
  dsimp only
  split <;> simp [*]

theorem perform_alloc (v : Value) (h : Heap) :
    (alloc v).perform h = (.ok ⟨h.cells.size⟩, (v.refs.foldl Heap.retain h).push v) :=
  congrArg (Prod.map Except.ok id) (Heap.alloc_eq h v)

variable {h : Heap} {operands : List Ref} {handle : β → Option Ref} {P : α → Prop} {r : Ref}

/-- An action that goes on after an answer. -/
theorem perform_bind_of_ok {x : Action α} {f : α → Action β} {v : α} {h' : Heap}
    (hx : x.perform h = (.ok v, h')) : (x >>= f).perform h = (f v).perform h' := by
  rw [perform_bind, hx]

/-- An action that fails in its first part. -/
theorem perform_bind_of_error {x : Action α} {f : α → Action β} {e : Error} {h' : Heap}
    (hx : x.perform h = (.error e, h')) : (x >>= f).perform h = (.error e, h') := by
  rw [perform_bind, hx]

theorem perform_value_of_some {v : Value} (hv : h.value? r = some v) :
    (value r).perform h = (.ok v, h) := by
  rw [perform_value, hv]

theorem perform_typeOf {v : Value} (hv : h.value? r = some v) :
    (typeOf r).perform h = (.ok v.type, h) :=
  perform_bind_of_ok (perform_value_of_some hv)

theorem perform_payload {v : Value} (hv : h.value? r = some v) :
    (payload r).perform h = (.ok v.payload, h) :=
  perform_bind_of_ok (perform_value_of_some hv)

/-- An action that goes on with the type of an object. -/
theorem perform_typeOf_bind {f : ObjectType → Action β} {v : Value} (hv : h.value? r = some v) :
    (typeOf r >>= f).perform h = (f v.type).perform h :=
  perform_bind_of_ok (perform_typeOf hv)

/-- An action that goes on with what an object holds. -/
theorem perform_payload_bind {f : Payload → Action β} {v : Value} (hv : h.value? r = some v) :
    (payload r >>= f).perform h = (f v.payload).perform h :=
  perform_bind_of_ok (perform_payload hv)

theorem perform_typeOf_bind_of_none {f : ObjectType → Action β} (hv : h.value? r = none) :
    (typeOf r >>= f).perform h = (.error .badCall, h) :=
  perform_bind_of_error (perform_bind_of_error (by rw [perform_value, hv]))

theorem perform_integer {n : Int64} (hv : h.value? r = some (.integer n)) :
    (integer r).perform h = (.ok n, h) :=
  perform_payload_bind hv

theorem perform_bytes {bs : Bytes} (hv : h.value? r = some (.string bs)) :
    (bytes r).perform h = (.ok bs, h) :=
  perform_payload_bind hv

theorem perform_items {rs : List Ref} (hv : h.value? r = some (.tuple rs)) :
    (items r).perform h = (.ok rs, h) :=
  perform_payload_bind hv

theorem perform_entries {es : NameMap Ref} (hv : h.value? r = some (.dict es)) :
    (entries r).perform h = (.ok es, h) :=
  perform_payload_bind hv

theorem perform_typeObject {t : ObjectType} (hv : h.value? r = some (.typeObject t)) :
    (typeObject r).perform h = (.ok t, h) :=
  perform_payload_bind hv

/-! ## Reading -/

/-- Performed on a heap, an action leaves it as it is; `P` holds of its answer. -/
inductive Reads (h : Heap) (x : Action α) (P : α → Prop) : Prop
  | ok {v : α} (hp : x.perform h = (.ok v, h)) (hP : P v)
  | error {e : Error} (hp : x.perform h = (.error e, h))

namespace Reads

variable {x : Action α} {f : α → Action β} {Q : β → Prop}

theorem pure {v : α} (hv : P v) : Reads h (pure v) P :=
  .ok rfl hv

theorem throw (e : Error) : Reads h (throw e : Action α) P :=
  .error rfl

theorem mono {R : α → Prop} (hx : Reads h x P) (hPR : ∀ v, P v → R v) : Reads h x R := by
  cases hx with
  | ok hp hv => exact .ok hp (hPR _ hv)
  | error hp => exact .error hp

theorem trans (hx : Reads h x P) (hf : ∀ v, P v → Reads h (f v) Q) : Reads h (x >>= f) Q := by
  cases hx with
  | error hp => exact .error (perform_bind_of_error hp)
  | ok hp hv =>
    cases hf _ hv with
    | ok hq hw => exact .ok ((perform_bind_of_ok hp).trans hq) hw
    | error hq => exact .error ((perform_bind_of_ok hp).trans hq)

theorem mapM {γ : Type} {x : γ → Action α} {R : γ → α → Prop} {is : List γ}
    (hx : ∀ i ∈ is, Reads h (x i) (R i)) :
    Reads h (is.mapM x) fun vs => ∀ i ∈ is, ∃ v ∈ vs, R i v := by
  induction is with
  | nil => exact .pure nofun
  | cons i is ih =>
    obtain ⟨hi, his⟩ := List.forall_mem_cons.1 hx
    rw [List.mapM_cons]
    refine hi.trans fun v hv => (ih his).trans fun vs hvs => .pure ?_
    refine List.forall_mem_cons.2 ⟨⟨v, List.mem_cons_self, hv⟩, fun j hj => ?_⟩
    obtain ⟨w, hw, hR⟩ := hvs j hj
    exact ⟨w, List.mem_cons_of_mem v hw, hR⟩

end Reads

theorem reads_value : Reads h (value r) fun v => h.value? r = some v := by
  have hp := perform_value r h
  cases hv : h.value? r with
  | none => exact .error (by rw [hp, hv])
  | some v => exact .ok (by rw [hp, hv]) rfl

theorem reads_typeOf : Reads h (typeOf r) fun t => h.HasType r t :=
  reads_value.trans fun v hv => .pure ⟨v, hv, rfl⟩

theorem reads_payload : Reads h (payload r) fun p => h.payload? r = some p :=
  reads_value.trans fun _ hv => .pure (Heap.payload?_of_value? hv)

theorem reads_integer : Reads h (integer r) fun n => h.payload? r = some (.integer n) := by
  refine reads_payload.trans fun p hp => ?_
  split
  · exact .pure hp
  · exact .throw _

theorem reads_bytes : Reads h (bytes r) fun bs => h.payload? r = some (.string bs) := by
  refine reads_payload.trans fun p hp => ?_
  split
  · exact .pure hp
  · exact .throw _

theorem reads_items : Reads h (items r) fun is => h.payload? r = some (.tuple is) := by
  refine reads_payload.trans fun p hp => ?_
  split
  · exact .pure hp
  · exact .throw _

theorem reads_entries : Reads h (entries r) fun es => h.payload? r = some (.dict es) := by
  refine reads_payload.trans fun p hp => ?_
  split
  · exact .pure hp
  · exact .throw _

theorem reads_typeObject : Reads h (typeObject r) fun t => h.payload? r = some (.typeObject t) := by
  refine reads_payload.trans fun p hp => ?_
  split
  · exact .pure hp
  · exact .throw _

theorem reads_function : Reads h (function r) fun m => h.payload? r = some (.function m.1 m.2) := by
  refine reads_payload.trans fun p hp => ?_
  split
  · exact .pure hp
  · exact .throw _

theorem reads_method : Reads h (method r) fun m => h.payload? r = some (.method m.1 m.2.1 m.2.2) := by
  refine reads_payload.trans fun p hp => ?_
  split
  · exact .pure hp
  · exact .throw _

theorem reads_userClass : Reads h (userClass r) fun m => h.payload? r = some (.userClass m.1 m.2) := by
  refine reads_payload.trans fun p hp => ?_
  split
  · exact .pure hp
  · exact .throw _

theorem reads_member : Reads h (member r) fun m => h.payload? r = some (.member m.1 m.2) := by
  refine reads_payload.trans fun p hp => ?_
  split
  · exact .pure hp
  · exact .throw _

theorem reads_boundMethod : Reads h (boundMethod r) fun m => h.payload? r = some (.boundMethod m.1 m.2) := by
  refine reads_payload.trans fun p hp => ?_
  split
  · exact .pure hp
  · exact .throw _

theorem reads_ofHeap {f : Heap → Except Error α} : Reads h (ofHeap f) fun v => f h = .ok v := by
  have hp := perform_ofHeap f h
  cases hv : f h with
  | error e => exact .error (by rw [hp, hv])
  | ok v => exact .ok (by rw [hp, hv]) rfl

/-! ## Making and freeing objects -/

/-- Performed on any heap, an action makes and frees objects, and does no more. -/
def Spends (x : Action α) : Prop :=
  ∀ h : Heap, ∃ result n, x.perform h = (result, h.spent n)

namespace Spends

variable {x : Action α} {f : α → Action β}

theorem of_eq (hx : ∀ h : Heap, ∃ result, x.perform h = (result, h)) : Spends x := fun h =>
  let ⟨result, hp⟩ := hx h
  ⟨result, 0, by rw [hp, Heap.spent_zero]⟩

theorem of_reads {P : Heap → α → Prop} (hx : ∀ h, Reads h x (P h)) : Spends x :=
  .of_eq fun h => by cases hx h with | ok hp | error hp => exact ⟨_, hp⟩

theorem pure (v : α) : Spends (pure v) :=
  .of_eq fun _ => ⟨_, rfl⟩

theorem throw (e : Error) : Spends (throw e : Action α) :=
  .of_eq fun _ => ⟨_, rfl⟩

theorem bind (hx : Spends x) (hf : ∀ v, Spends (f v)) : Spends (x >>= f) := fun h => by
  obtain ⟨_ | v, m, hp⟩ := hx h
  · exact ⟨_, m, perform_bind_of_error hp⟩
  · obtain ⟨result, n, hq⟩ := hf v (h.spent m)
    exact ⟨result, m + n, by rw [perform_bind_of_ok hp, hq, Heap.spent_spent]⟩

theorem mapM {γ : Type} {x : γ → Action α} {is : List γ} (hx : ∀ i ∈ is, Spends (x i)) :
    Spends (is.mapM x) := by
  induction is with
  | nil => exact .pure []
  | cons i is ih =>
    obtain ⟨hi, his⟩ := List.forall_mem_cons.1 hx
    rw [List.mapM_cons]
    exact hi.bind fun v => (ih his).bind fun vs => .pure _

end Spends

/-- A string that is made, read and released at once. -/
theorem perform_string (text : Bytes) (h : Heap) :
    (do
      let s ← alloc (.string text)
      let text ← bytes s
      release s
      return text : Action Bytes).perform h = (.ok text, h.spent 1) :=
  (perform_bind_of_ok (perform_alloc _ _)).trans <|
    (perform_bind_of_ok (perform_bytes (h.value?_push_self _))).trans <|
      congrArg (Prod.mk _) (h.release_alloc_string text)

/-! ## Doing something in the end -/

/-- Performed on a heap, an action fails, after objects were made and freed, or it answers,
    and has built nothing but what is in the answer. -/
inductive Does (h : Heap) (operands : List Ref) (handle : α → Option Ref) (x : Action α) : Prop
  | ok {v : α} {h' : Heap} (hp : x.perform h = (.ok v, h'))
    (hbuilds : h.Builds operands (handle v).toList h') : Does h operands handle x
  | error {e : Error} {n : Nat} (hp : x.perform h = (.error e, h.spent n)) :
    Does h operands handle x

/-- An action that answers with a new reference. -/
abbrev Gives (h : Heap) (operands : List Ref) (x : Action Ref) : Prop :=
  Does h operands some x

/-- An action that answers with a new reference, if there is one. -/
abbrev Finds (h : Heap) (operands : List Ref) (x : Action (Option Ref)) : Prop :=
  Does h operands id x

namespace Does

variable {x : Action α}

theorem pure {v : β} (hv : handle v = none) : Does h operands handle (pure v) :=
  .ok rfl (hv ▸ .nothing)

theorem throw (e : Error) : Does h operands handle (throw e) :=
  .error (n := 0) (by rw [perform_throw, Heap.spent_zero])

theorem returns {f : α → β} (hx : Does h operands (fun v => handle (f v)) x) :
    Does h operands handle (do return f (← x)) := by
  cases hx with
  | ok hp hbuilds => exact .ok (perform_bind_of_ok hp) hbuilds
  | error hp => exact .error (perform_bind_of_error hp)

theorem map {f : α → β} (hx : Does h operands (fun v => handle (f v)) x) :
    Does h operands handle (f <$> x) := by
  rw [map_eq_pure_bind]
  exact hx.returns

end Does

theorem Reads.bind {x : Action α} {f : α → Action β} (hx : Reads h x P)
    (hf : ∀ v, P v → Does h operands handle (f v)) : Does h operands handle (x >>= f) := by
  cases hx with
  | error hp => exact .error (n := 0) (by rw [perform_bind_of_error hp, Heap.spent_zero])
  | ok hp hv =>
    cases hf _ hv with
    | ok hq hbuilds => exact .ok ((perform_bind_of_ok hp).trans hq) hbuilds
    | error hq => exact .error ((perform_bind_of_ok hp).trans hq)

/-- An action that reads, and whose answer hands out nothing. -/
theorem Reads.does {x : Action β} {P : β → Prop} (hx : Reads h x P) (hv : ∀ v, handle v = none) :
    Does h operands handle x := by
  cases hx with
  | ok hp => exact .ok hp (hv _ ▸ .nothing)
  | error hp => exact .error (n := 0) (by rw [hp, Heap.spent_zero])

/-- An action that makes and frees objects, and whose answer hands out nothing. -/
theorem Spends.does {x : Action β} (hx : Spends x) (hv : ∀ v, handle v = none) :
    Does h operands handle x := by
  obtain ⟨_ | v, n, hp⟩ := hx h
  · exact .error hp
  · exact .ok hp (hv v ▸ Heap.Builds.nothing.spent n)

/-- A new object that refers to nothing, made after others were made and freed. -/
theorem Spends.gives_alloc {x : Action α} {f : α → Value} (hx : Spends x)
    (hs : ∀ v, (f v).isSuited = true) (hf : ∀ v, (f v).refs = []) :
    Gives h operands (do alloc (f (← x))) := by
  obtain ⟨_ | v, n, hp⟩ := hx h
  · exact .error (perform_bind_of_error hp)
  · have ⟨hfits, hfresh⟩ := Value.fits_of_refs_eq_nil (h := h.spent n) (hs v) (hf v)
    refine .ok ((perform_bind_of_ok hp).trans (perform_alloc _ _)) ?_
    exact (Heap.Builds.nothing.spent n).makeOf hfits hfresh (by simp [hf])

theorem gives_share (hr : h.Obtained operands r) : Gives h operands (share r) :=
  .ok rfl (Heap.Builds.nothing.share hr)

theorem finds_share? {o : Option Ref} (ho : ∀ r ∈ o, h.Obtained operands r) :
    Finds h operands (share? o) := by
  cases o with
  | none => exact .pure rfl
  | some r => exact .map (gives_share (ho r rfl))

theorem gives_alloc {v : Value} (hv : h.Fits v) (hfresh : v.payload.Fresh)
    (hrefs : ∀ r ∈ v.refs, h.Obtained operands r) : Gives h operands (alloc v) :=
  .ok (perform_alloc v h) (Heap.Builds.nothing.makeOf hv hfresh hrefs)

/-- A new object that refers to nothing. -/
theorem gives_alloc_of_refs_eq_nil {v : Value} (hs : v.isSuited = true) (hv : v.refs = []) :
    Gives h operands (alloc v) :=
  have ⟨hfits, hfresh⟩ := Value.fits_of_refs_eq_nil hs hv
  gives_alloc hfits hfresh (by simp [hv])

theorem gives_shareNone : Gives h operands shareNone := by
  obtain ⟨r, hr, hp⟩ := h.exists_shareNone_eq
  exact .ok (congrArg (Prod.map Except.ok id) hp) (Heap.Builds.nothing.withNone.share (.kept hr))

theorem gives_shareType (t : ObjectType) : Gives h operands (shareType t) := by
  obtain ⟨r, hr, hp⟩ := h.exists_shareType_eq t
  exact .ok (congrArg (Prod.map Except.ok id) hp)
    ((Heap.Builds.nothing.withType t).share (.kept hr))

end ScriptCore.Object.Action
