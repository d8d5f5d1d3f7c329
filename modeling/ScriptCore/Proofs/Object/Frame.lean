import ScriptCore.Proofs.Object.Session

/-!
# What calls leave alone

Objects do not change once they are made, except for the entries of dictionaries, and of these
a store or a removal changes one. All other calls, apart from releases, leave the objects that
were there, and share them: with the handle that they answer with, and with the objects that
they make.

* `Heap.Extends`: there are more objects; those from before have kept their values.
* `Heap.innerSince`: the references in the values of the objects made since.
* `Store.Done`: what a store or a removal changes.
* `Session.published_unchanged`: this holds of every call that succeeds.
-/

namespace ScriptCore

open Object

namespace Heap

variable {h h₀ h' : Heap} {r : Ref}

/-! ## Heaps with more objects -/

/-- Whether a heap has more objects than another, and those from before have kept their
    values. -/
structure Extends (h h' : Heap) : Prop where
  size_le : h.cells.size ≤ h'.cells.size
  value?_eq : ∀ r, r.index < h.cells.size → h'.value? r = h.value? r
  count_kept : ∀ r, r.index < h.cells.size → h'.kept.count r = h.kept.count r

/-- The references in the values of the objects that were made after the first `n`. -/
def innerSince (h : Heap) (n : Nat) : Multiset Ref :=
  ↑((h.cells.toList.drop n).reduceOption.flatMap (·.value.refs))

theorem Extends.refl (h : Heap) : h.Extends h where
  size_le := Nat.le_refl _
  value?_eq _ _ := rfl
  count_kept _ _ := rfl

theorem Extends.trans (he : h.Extends h₀) (he' : h₀.Extends h') : h.Extends h' where
  size_le := he.size_le.trans he'.size_le
  value?_eq r hr := (he'.value?_eq r (hr.trans_le he.size_le)).trans (he.value?_eq r hr)
  count_kept r hr := (he'.count_kept r (hr.trans_le he.size_le)).trans (he.count_kept r hr)

theorem extends_push (h : Heap) (v : Value) : h.Extends (h.push v) where
  size_le := (Nat.le_succ _).trans_eq (Array.size_push _).symm
  value?_eq r hr := by rw [value?, cell?_push, if_neg hr.ne, value?]
  count_kept _ _ := rfl

theorem extends_retain (h : Heap) (r : Ref) : h.Extends (h.retain r) where
  size_le := Array.size_modify.ge
  value?_eq x _ := congrFun (h.value?_retain r) x
  count_kept _ _ := rfl

theorem extends_foldl_retain (rs : List Ref) (h : Heap) : h.Extends (rs.foldl retain h) := by
  induction rs generalizing h with
  | nil => exact .refl h
  | cons r rs ih => exact (extends_retain h r).trans (ih _)

theorem extends_spent (h : Heap) (n : Nat) : h.Extends (h.spent n) where
  size_le := by simp
  value?_eq r _ := by rw [value?_spent]
  count_kept _ _ := rfl

/-! An object made on demand was not kept before. -/

theorem extends_withNone (h : Heap) : h.Extends h.withNone := by
  unfold withNone
  split
  · exact .refl h
  · next hn =>
    obtain ⟨hsize, hvalue, -⟩ := extends_push h .none
    refine ⟨hsize, hvalue, fun r hr => ?_⟩
    have hne : ¬(⟨h.cells.size⟩ : Ref) = r := fun heq => Nat.lt_irrefl _ (heq ▸ hr)
    simp [kept, hn, push, hne]

theorem extends_withType (h : Heap) (t : ObjectType) : h.Extends (h.withType t) := by
  unfold withType
  split
  · exact .refl h
  · obtain ⟨hsize, hvalue, -⟩ := extends_push h (.typeObject t)
    refine ⟨hsize, hvalue, fun r hr => ?_⟩
    have hne : ¬(⟨h.cells.size⟩ : Ref) = r := fun heq => Nat.lt_irrefl _ (heq ▸ hr)
    simp [kept, push, hne]

theorem Builds.extends {operands rs : List Ref} (hb : h.Builds operands rs h') :
    h.Extends h' := by
  induction hb with
  | nothing => exact .refl h
  | spent _ n ih => exact ih.trans (extends_spent _ n)
  | withNone _ ih => exact ih.trans (extends_withNone _)
  | withType _ t ih => exact ih.trans (extends_withType _ t)
  | perm _ _ ih => exact ih
  | share _ _ ih => exact ih.trans (extends_retain _ _)
  | make _ _ _ ih => exact ih.trans (extends_push _ _)
  | member _ _ _ ih =>
    exact ih.trans ((extends_push _ _).trans ((extends_retain _ _).trans (extends_push _ _)))

theorem reduceOption_flatMap_refs (cs : List (Option Cell)) :
    cs.reduceOption.flatMap (·.value.refs) =
      (cs.map (Option.map (·.value))).reduceOption.flatMap Value.refs := by
  rw [List.reduceOption_map, List.flatMap_map]

/-- The references in the values of objects are those from before, and those in what was made
    since. -/
theorem Extends.inner_eq (he : h.Extends h') :
    h'.inner = h.inner + h'.innerSince h.cells.size := by
  -- the cells from before may have other counts, but their values are the same
  have hold : (h'.cells.toList.take h.cells.size).map (Option.map (·.value)) =
      h.cells.toList.map (Option.map (·.value)) := by
    refine List.ext_getElem? fun i => ?_
    simp only [List.getElem?_map, List.getElem?_take, Array.getElem?_toList]
    split
    · next hi =>
      have hv := he.value?_eq ⟨i⟩ hi
      simp only [value?, cell?] at hv
      rw [Array.getElem?_eq_getElem hi, Array.getElem?_eq_getElem (hi.trans_le he.size_le)] at hv ⊢
      exact congrArg some hv
    · next hi => rw [Array.getElem?_eq_none (Nat.le_of_not_lt hi)]
  have hsplit := List.take_append_drop h.cells.size h'.cells.toList
  rw [inner, objects, ← hsplit, List.reduceOption_append, Multiset.coe_bind, List.flatMap_append,
    ← Multiset.coe_add, reduceOption_flatMap_refs, hold, ← reduceOption_flatMap_refs,
    ← Multiset.coe_bind, innerSince, inner, objects]

end Heap

/-! ## What a store changes -/

namespace Heap

variable {h h' : Heap} {d r : Ref} {v : Value} {entries : NameMap Ref} {name : String}
  {content : Option Ref}

/-- After a store or a removal, the dictionary has other entries, and what is still there of the
    other objects has kept its value. -/
theorem value?_of_write (hd : h.value? d = some (.dict entries))
    (hv : (h.write d entries name content).value? r = some v) :
    (r = d ∧ ∃ entries', v = .dict entries' ∧
      ∀ k, entries'.find? k = if k = name then content else entries.find? k) ∨
    r ≠ d ∧ h.value? r = some v := by
  cases content with
  | some x =>
    have hd' : (h.retain x).value? d = some (.dict entries) :=
      (congrFun (h.value?_retain x) d).trans hd
    have hv' := value?_of_releaseAll hv
    rw [value?_setPayload hd', value?_retain] at hv'
    split at hv'
    · next hr =>
      cases hv'
      exact .inl ⟨hr, _, rfl, fun k => entries.find?_insert name k x⟩
    · next hr => exact .inr ⟨hr, hv'⟩
  | none =>
    have hv' := value?_of_releaseAll hv
    rw [value?_setPayload hd] at hv'
    split at hv'
    · next hr =>
      cases hv'
      exact .inl ⟨hr, _, rfl, fun k => entries.find?_erase name k⟩
    · next hr => exact .inr ⟨hr, hv'⟩

end Heap

namespace Object

/-- Whether a store or a removal was done: the dictionary has the entry changed, and its others
    as they were, and all other objects that are still there have kept their values. -/
structure Store.Done (w : Store) (h h' : Heap) : Prop where
  find?_eq : ∃ entries entries', h.value? w.dict = some (.dict entries) ∧
    h'.value? w.dict = some (.dict entries') ∧
    ∀ k, entries'.find? k = if k = w.name then w.content else entries.find? k
  value?_eq : ∀ r v v', r ≠ w.dict → h.value? r = some v → h'.value? r = some v' → v' = v

namespace Session

open ScriptCore.Object.Action

variable {s : Session} {c : Call} {o : Outcome Ref} {h : Heap} {r : Ref}

theorem ne_release_of_store? {w : Store} (hw : s.store? c = some w) (a : String) :
    c ≠ .release a := by
  rintro rfl
  cases hw

/-- What a store or a removal does is done, and its dictionary is still there: a slot holds it,
    or the member whose attributes it has. -/
theorem Effect.done {w : Store} (hs : s.account.Balanced) (he : s.Effect c (.ok o, h))
    (hw : s.store? c = some w) : w.Done s.heap h := by
  have hb := (he.safeRun_ok hs).run.balanced hs
  rw [empty_of_ne (ne_release_of_store? hw)] at hb
  have hslot : ∀ r ∈ s.slots.values, h.Live r := fun r hr =>
    hb.live_of_mem (Multiset.mem_add.2 (.inr hr))
  cases he with
  | gives hstore => cases hw.symm.trans hstore
  | releases hc => exact absurd hc (ne_release_of_store? hw _)
  | @writes _ entries hstore hd =>
    cases hw.symm.trans hstore
    -- a slot goes on to hold the dictionary, or the member that refers to it
    have hlive : (s.heap.write w.dict entries w.name w.content).Live w.dict := by
      rcases (of_store? hw).2.1 with hdict | ⟨a, -, hm, ha⟩
      · exact hslot _ hdict
      · obtain ⟨⟨cls, hmember⟩, -⟩ := Heap.of_memberStore? ha
        obtain ⟨v, hv⟩ := Heap.live_iff_value?.1 (hslot _ hm)
        rcases Heap.value?_of_write hd hv with ⟨heq, -⟩ | ⟨-, hv'⟩
        · cases hd.symm.trans (heq ▸ hmember)
        · cases hmember.symm.trans hv'
          exact hb.live_of_mem_refs hv (List.mem_cons_of_mem _ List.mem_cons_self)
    refine ⟨?_, fun r v v' hr hv hv' => ?_⟩
    · obtain ⟨v, hv⟩ := Heap.live_iff_value?.1 hlive
      rcases Heap.value?_of_write hd hv with ⟨-, entries', rfl, hfind⟩ | ⟨hne, -⟩
      · exact ⟨entries, entries', hd, hv, hfind⟩
      · exact absurd rfl hne
    · rcases Heap.value?_of_write hd hv' with ⟨heq, -⟩ | ⟨-, hv'⟩
      · exact absurd heq hr
      · exact Option.some.inj (hv'.symm.trans hv)

theorem Effect.extends (he : s.Effect c (.ok o, h)) (hstore : s.store? c = none)
    (hrelease : ∀ a, c ≠ .release a) : s.heap.Extends h := by
  cases he with
  | gives _ _ _ hbuilds => exact hbuilds.extends
  | writes hw => cases hstore.symm.trans hw
  | releases hc => exact absurd hc (hrelease _)

/-- A call that stores nothing changes no value. -/
theorem Effect.value?_eq {v v' : Value} (he : s.Effect c (.ok o, h)) (hstore : s.store? c = none)
    (hv : s.heap.value? r = some v) (hv' : h.value? r = some v') : v' = v := by
  by_cases hrelease : ∃ a, c = .release a
  · obtain ⟨a, rfl⟩ := hrelease
    cases he with
    | gives _ _ hrelease => exact absurd rfl (hrelease a)
    | writes hw => cases hw
    | releases => exact Option.some.inj ((Heap.value?_of_releaseAll hv').symm.trans hv)
  · have hextends := he.extends hstore fun a hc => hrelease ⟨a, hc⟩
    rw [hextends.value?_eq r (Heap.live_of_value? hv).lt_size, hv] at hv'
    exact (Option.some.inj hv').symm

/-- A call that neither stores nor releases takes away nothing, and the references to what was
    there are those from before, with the handle of the answer and the references in what was
    made. -/
theorem Effect.count_eq (hs : s.account.Balanced) (he : s.Effect c (.ok o, h))
    (hstore : s.store? c = none) (hrelease : ∀ a, c ≠ .release a) (hr : s.heap.Live r) :
    h.Live r ∧ h.count r = s.heap.count r + o.ref?.toList.count r +
      (h.innerSince s.heap.cells.size).count r := by
  have hextends := he.extends hstore hrelease
  have hsize := hr.lt_size
  have hb := (he.safeRun_ok hs).run.balanced hs
  rw [empty_of_ne hrelease] at hb
  have hbefore := hs.count_eq r
  have hafter := hb.count_eq r
  refine ⟨?_, ?_⟩
  · rw [Heap.live_iff_value?, hextends.value?_eq r hsize]
    exact Heap.live_iff_value?.1 hr
  · simp only [account, hextends.inner_eq, hextends.count_kept r hsize, Multiset.count_add,
      Multiset.coe_count] at hbefore hafter
    omega

/-- What becomes of an answer changes no value. -/
theorem value?_of_settle {target : Option String} {v : Value}
    (hv : (s.settle target o).2.heap.value? r = some v) : s.heap.value? r = some v := by
  cases o with
  | object x =>
    cases target with
    | some name =>
      change (s.put name x).heap.value? r = some v at hv
      unfold put at hv
      split at hv
      · exact Heap.value?_of_releaseAll hv
      · exact hv
    | none => exact Heap.value?_of_releaseAll hv
  | _ => exact hv

/-- What is there after a call was there with its value when its action was done. -/
theorem value?_of_perform {x : Action (Outcome Ref)} {target : Option String} {v : Value}
    (hx : s.cleared.action c = .ok x) (hp : x.perform s.cleared.heap = (.ok o, h))
    (hv : (s.perform c target).2.heap.value? r = some v) : h.value? r = some v := by
  have hempty : ({ s with heap := h }.empty c).heap = h := by cases c <;> rfl
  obtain ⟨f, hf, -⟩ | ⟨y, hy, ⟨e, h', hq, -⟩ | ⟨o', h', hq, hperform⟩⟩ := s.perform_cases c target
  · cases hx.symm.trans hf
  · cases hx.symm.trans hy
    cases hp.symm.trans hq
  · cases hx.symm.trans hy
    cases hp.symm.trans hq
    rw [hperform] at hv
    exact hempty ▸ value?_of_settle hv

/-- A call has an effect, and what becomes of its answer then changes no value. -/
theorem exists_effect (hhost : s.host.IsOrderly) (hs : s.account.Sound) (c : Call)
    (target : Option String) :
    ∃ result h, s.cleared.Effect c (result, h) ∧
      ∀ r v, (s.perform c target).2.heap.value? r = some v → h.value? r = some v := by
  have hs' := sound_cleared hs
  obtain ⟨f, hf, hp⟩ | ⟨x, hx, ⟨e, h, hq, hp⟩ | ⟨o, h, hq, -⟩⟩ := s.perform_cases c target
  · refine ⟨.error .badCall, s.cleared.heap.spent 0, .fails (store?_of_error hf), fun r v hv => ?_⟩
    rwa [hp, ← s.cleared.heap.spent_zero] at hv
  · refine ⟨_, h, hq ▸ effect_action (s := s.cleared) hhost hs' hx, fun r v hv => ?_⟩
    rwa [hp] at hv
  · exact ⟨_, h, hq ▸ effect_action (s := s.cleared) hhost hs' hx, fun r v => value?_of_perform hx hq⟩

/-- After any calls, a call that succeeds changes no value of an object, except that a store or
    a removal changes one entry of one dictionary. A call that neither stores nor releases
    leaves all objects there, each with the references from before, the handle that the call
    answers with, and the references in the objects that it made. What becomes of the answer
    then changes no value. -/
theorem published_unchanged {host : Host} (hhost : host.IsOrderly)
    (calls : List (Call × Option String)) {c : Call} {x : Action (Outcome Ref)}
    {o : Outcome Ref} {h : Heap}
    (hx : ((start host).performAll calls).cleared.action c = .ok x)
    (hp : x.perform ((start host).performAll calls).cleared.heap = (.ok o, h)) :
    let s := (start host).performAll calls
    (∀ w, s.store? c = some w → w.Done s.heap h) ∧
    (s.store? c = none →
      ∀ r v v', s.heap.value? r = some v → h.value? r = some v' → v' = v) ∧
    (s.store? c = none → (∀ a, c ≠ .release a) → ∀ r, s.heap.Live r →
      h.Live r ∧ h.count r = s.heap.count r + o.ref?.toList.count r +
        (h.innerSince s.heap.cells.size).count r) ∧
    ∀ target r v, (s.perform c target).2.heap.value? r = some v → h.value? r = some v := by
  intro s
  have hs : s.cleared.account.Sound := sound_cleared (sound_performAll hhost calls)
  have he := effect_action (s := s.cleared) (isOrderly_performAll hhost calls) hs hx
  rw [hp] at he
  replace hs := hs.toBalanced
  refine ⟨fun w hw => ?_,
    fun hstore r v v' => Effect.value?_eq (s := s.cleared) he hstore,
    fun hstore hrelease r hr => Effect.count_eq (s := s.cleared) hs he hstore hrelease hr,
    fun target r v => value?_of_perform hx hp⟩
  -- `Store.Done` is about values, and the tags dropped at first have no part in these
  obtain ⟨hfind, hvalue⟩ := Effect.done (s := s.cleared) hs he hw
  exact ⟨hfind, hvalue⟩

/-- An integer that is stored in a dictionary is the same as before, and one that goes into a
    pair twice has two references more. -/
theorem published_unchanged_of_pair :
    let s := (start .basic).performAll [(.make (.integer 5), some "x"), (.make .dict, some "d")]
    (∃ x h, s.cleared.action (.binary (.dictInsert "k") "d" "x") = .ok x ∧
      x.perform s.cleared.heap = (.ok .nothing, h) ∧ Store.Done ⟨⟨1⟩, "k", some ⟨0⟩⟩ s.heap h) ∧
    ∃ x h, s.cleared.action (.newTuple ["x", "x"]) = .ok x ∧
      x.perform s.cleared.heap = (.ok (.object ⟨2⟩), h) ∧ h.Live ⟨0⟩ ∧
      h.count ⟨0⟩ = s.heap.count ⟨0⟩ + 2 := by
  intro s
  refine ⟨⟨_, _, rfl, rfl, ?_⟩, ⟨_, _, rfl, rfl, ?_⟩⟩
  · exact (published_unchanged Host.isOrderly_basic [(.make (.integer 5), some "x"), (.make .dict, some "d")]
      (c := .binary (.dictInsert "k") "d" "x") rfl rfl).1 _ rfl
  · have hlive : s.heap.Live ⟨0⟩ := ⟨_, rfl⟩
    exact (published_unchanged Host.isOrderly_basic [(.make (.integer 5), some "x"), (.make .dict, some "d")]
      (c := .newTuple ["x", "x"]) rfl rfl).2.2.1 rfl nofun ⟨0⟩ hlive

end Session

end Object

end ScriptCore
