import Mathlib
import ScriptCore.Proofs.Object.Call
import ScriptCore.Proofs.Object.Sound

/-!
# The account of a session

The account of a session is its heap with what its slots hold. Every call runs
it by safe steps (`Session.safeRun_perform`), whether the call succeeds or fails,
and so does the release of all slots at the end (`Session.safeRun_close`). So after
any calls the account is sound (`Session.sound_performAll`).

* `Session.Exact`: slots and values lead to objects, and each object is counted
  exactly.
* `Session.exact_performAll`: sessions are exact after any calls, and every call
  changes the heap in elementary steps, each of which frees an object exactly
  where its count goes from 1 to 0 and its type is freed.
-/

namespace ScriptCore.Object

namespace Session

open ScriptCore.Object.Action

variable {s : Session} {c : Call}

theorem held_eq_cons {name : String} {r : Ref} (h : s.slots.find? name = some r) :
    s.account.held = r ::ₘ ↑(s.slots.erase name).values := by
  have hv := NameMap.values_erase s.slots name
  rw [h] at hv
  rw [← Multiset.singleton_add, Multiset.add_comm]
  exact hv.symm

theorem empty_of_ne (hc : ∀ a, c ≠ .release a) : s.empty c = s := by
  cases c with
  | release a => exact absurd rfl (hc a)
  | _ => rfl

section Effect

variable {h : Heap} {e : Error} {o : Outcome Ref}

theorem Effect.safeRun_error (he : s.Effect c (.error e, h)) :
    s.account.SafeRun ⟨h, ↑s.slots.values⟩ := by
  cases he with
  | fails => exact Account.safeRun_spent _
  | refuses => exact .refl

theorem Effect.safeRun_ok (hs : s.account.Balanced) (he : s.Effect c (.ok o, h)) :
    s.account.SafeRun ⟨h, ↑o.ref?.toList + ↑(s.empty c).slots.values⟩ := by
  cases he with
  | gives _ _ hrelease hbuilds =>
    rw [empty_of_ne hrelease]
    exact Account.safeRun_builds hs (fun _ hr => hr) hbuilds
  | writes hstore hd hremoved =>
    have hrelease : ∀ a, c ≠ .release a := by
      rintro a rfl
      cases hstore
    rw [empty_of_ne hrelease]
    have hrun := Account.safeRun_write hs hd (of_store? hstore).2.2 hremoved
    rwa [← Multiset.zero_add (↑s.slots.values : Multiset Ref)] at hrun
  | @releases a r hc hr =>
    subst hc
    have hheld : s.account = ⟨s.heap, ↑[r] + ↑(s.slots.erase a).values⟩ :=
      congrArg (Account.mk s.heap) ((held_eq_cons hr).trans (Multiset.singleton_add r _).symm)
    have hrun := Account.safeRun_releaseAll [r] (hheld ▸ hs)
    rw [← hheld] at hrun
    rwa [← Multiset.zero_add (↑(s.slots.erase a).values : Multiset Ref)] at hrun

end Effect

/-- A session whose slots do not hold `r` yet puts it into one of them. -/
theorem safeRun_put (name : String) {r : Ref}
    (hs : Account.Balanced ⟨s.heap, r ::ₘ ↑s.slots.values⟩) :
    Account.SafeRun ⟨s.heap, r ::ₘ ↑s.slots.values⟩ (s.put name r).account := by
  have hv := NameMap.values_insert s.slots name r
  rw [← hv] at hs ⊢
  unfold put
  split
  · next old ho =>
    rw [ho] at hs ⊢
    rw [Multiset.add_comm] at hs ⊢
    exact Account.safeRun_releaseAll [old] hs
  · next ho =>
    rw [ho, Option.toList_none, Multiset.coe_nil, Multiset.add_zero]
    exact .refl

theorem safeRun_settle (target : Option String) {o : Outcome Ref}
    (hs : Account.Balanced ⟨s.heap, ↑o.ref?.toList + ↑s.slots.values⟩) :
    Account.SafeRun ⟨s.heap, ↑o.ref?.toList + ↑s.slots.values⟩ (s.settle target o).2.account := by
  cases o with
  | object r =>
    cases target with
    | some name =>
      rw [Outcome.ref?, Option.toList_some, Multiset.coe_singleton, Multiset.singleton_add] at hs ⊢
      exact safeRun_put name hs
    | none => exact Account.safeRun_releaseAll [r] hs
  | seen | nothing | truth | order | number | integer | text | names | bytes | kind | printed
  | stats =>
    show Account.SafeRun ⟨s.heap, 0 + ↑s.slots.values⟩ s.account
    rw [Multiset.zero_add]
    exact .refl

theorem host_put (s : Session) (name : String) (r : Ref) : (s.put name r).host = s.host := by
  unfold put
  split <;> rfl

theorem host_settle (s : Session) (target : Option String) (o : Outcome Ref) :
    (s.settle target o).2.host = s.host := by
  cases o with
  | object r => cases target with
    | some name => exact s.host_put name r
    | none => rfl
  | _ => rfl

/-- The session with no tags noted. -/
def cleared (s : Session) : Session := { s with heap := { s.heap with freedTags := [] } }

theorem safeStep_cleared (s : Session) : s.account.SafeStep s.cleared.account :=
  Account.safeStep_clearTags

theorem sound_cleared (hs : s.account.Sound) : s.cleared.account.Sound :=
  s.safeStep_cleared.2 hs

/-- What a call does: an operand is missing, or its action fails, or it answers,
    and the answer is settled. -/
theorem perform_cases (s : Session) (c : Call) (target : Option String) :
    (∃ f, s.cleared.action c = .error f ∧ s.perform c target = (.error f, s.cleared)) ∨
    ∃ x, s.cleared.action c = .ok x ∧
      ((∃ e h, x.perform s.cleared.heap = (.error e, h) ∧
        s.perform c target = (.error (.error e), { s with heap := h })) ∨
      ∃ o h, x.perform s.cleared.heap = (.ok o, h) ∧
        s.perform c target = (.ok (({ s with heap := h }.empty c).settle target o).1,
          (({ s with heap := h }.empty c).settle target o).2)) := by
  simp only [perform]
  cases hx : s.cleared.action c with
  | error f =>
    refine .inl ⟨f, rfl, ?_⟩
    rw [cleared] at hx
    simp only [hx]
    rfl
  | ok x =>
    refine .inr ⟨x, rfl, ?_⟩
    rcases hq : x.perform s.cleared.heap with ⟨e | o, h⟩
    · refine .inl ⟨e, h, rfl, ?_⟩
      rw [cleared] at hx hq
      simp only [hx, hq]
    · refine .inr ⟨o, h, rfl, ?_⟩
      rw [cleared] at hx hq
      simp only [hx, hq]

/-- A call runs the account of a session. -/
theorem safeRun_perform (hhost : s.host.IsOrderly) (hs : s.account.Sound) (c : Call)
    (target : Option String) : s.account.SafeRun (s.perform c target).2.account := by
  -- the tags that earlier calls noted are dropped, and then the action is run
  refine .head s.safeStep_cleared ?_
  replace hs := sound_cleared hs
  obtain ⟨f, _, hp⟩ | ⟨x, hx, hcase⟩ := s.perform_cases c target
  · rw [hp]
  · have he := effect_action (s := s.cleared) hhost hs hx
    obtain ⟨e, h, hq, hp⟩ | ⟨o, h, hq, hp⟩ := hcase
    · rw [hp]
      exact (hq ▸ he).safeRun_error
    · rw [hp]
      have hrun := (hq ▸ he).safeRun_ok hs.toBalanced
      -- the slot that a release empties is no longer counted among what is held
      have hempty : ({ s with heap := h }.empty c).account =
          ⟨h, ↑(s.cleared.empty c).slots.values⟩ := by cases c <;> rfl
      obtain ⟨hheap, hslots⟩ := Account.mk.inj hempty
      have hsettle := safeRun_settle (s := { s with heap := h }.empty c) target (o := o)
      rw [hheap, hslots] at hsettle
      exact hrun.trans (hsettle (hrun.run.balanced hs.toBalanced))

/-- No call changes the host. -/
@[simp] theorem host_perform (s : Session) (c : Call) (target : Option String) :
    (s.perform c target).2.host = s.host := by
  obtain ⟨f, _, hp⟩ | ⟨x, -, ⟨e, h, -, hp⟩ | ⟨o, h, -, hp⟩⟩ := s.perform_cases c target
  · rw [hp]
    rfl
  · rw [hp]
  · rw [hp]
    have hempty : ({ s with heap := h }.empty c).host = s.host := by cases c <;> rfl
    rw [host_settle, hempty]

/-- Calls run the account of a session. -/
theorem safeRun_performAll (hhost : s.host.IsOrderly) (hs : s.account.Sound)
    (calls : List (Call × Option String)) : s.account.SafeRun (s.performAll calls).account := by
  unfold performAll
  induction calls generalizing s with
  | nil => exact .refl
  | cons c calls ih =>
    have hrun := safeRun_perform hhost hs c.1 c.2
    exact hrun.trans (ih ((s.host_perform c.1 c.2).symm ▸ hhost) (hrun.sound hs))

@[simp] theorem host_performAll (s : Session) (calls : List (Call × Option String)) :
    (s.performAll calls).host = s.host := by
  unfold performAll
  induction calls generalizing s with
  | nil => rfl
  | cons c calls ih => exact (ih _).trans (s.host_perform c.1 c.2)

theorem run_close (hs : s.account.Balanced) : s.account.Run s.close.account := by
  have hclear : s.account.Run ⟨{ s.heap with freedTags := [] }, ↑s.slots.values⟩ :=
    .single .clearTags
  refine hclear.trans ?_
  have hb := hclear.balanced hs
  rw [← Multiset.add_zero (↑s.slots.values : Multiset Ref)] at hb ⊢
  exact (Account.safeRun_releaseAll _ hb).run

/-- A session starts sound. -/
theorem sound_start (host : Host) : (start host).account.Sound where
  count_eq r := rfl
  references_eq := rfl
  allocations_eq := rfl
  deallocations_eq := rfl
  isFreed_of_count r v hv := by simp [account, start, Heap.value?, Heap.cell?] at hv
  noneRef r hr := by cases hr
  typeRefs t r hr := by cases hr
  typeRefs_nodup := .nil
  older r v hv := by simp [account, start, Heap.value?, Heap.cell?] at hv
  fits r v hv := by simp [account, start, Heap.value?, Heap.cell?] at hv
  alone m c d hm := by simp [account, start, Heap.value?, Heap.cell?] at hm

/-- After any calls the account of a session is sound. -/
theorem sound_performAll {host : Host} (hhost : host.IsOrderly)
    (calls : List (Call × Option String)) : ((start host).performAll calls).account.Sound :=
  (safeRun_performAll (s := start host) hhost (sound_start host) calls).sound (sound_start host)

theorem isOrderly_performAll {host : Host} (hhost : host.IsOrderly)
    (calls : List (Call × Option String)) : ((start host).performAll calls).host.IsOrderly :=
  (host_performAll (start host) calls).symm ▸ hhost

/-! ## Exact counts -/

/-- A session that counts references exactly. -/
structure Exact (s : Session) : Prop where
  live_of_slot : ∀ r ∈ s.slots.values, s.heap.Live r
  live_of_refs : ∀ p v, s.heap.value? p = some v → ∀ r ∈ v.refs, s.heap.Live r
  /-- The references to an object are those in slots, those in the values of
      objects, and the one that the heap keeps. -/
  count_eq : ∀ r, s.heap.Live r → s.heap.count r =
    s.slots.values.count r + s.heap.inner.count r + if r ∈ s.heap.kept then 1 else 0
  /-- The heap keeps None and the objects of types. -/
  value_of_kept : ∀ r ∈ s.heap.kept,
    s.heap.value? r = some .none ∨ ∃ t, s.heap.value? r = some (.typeObject t)
  references_eq : s.heap.stats.references = (s.heap.objects.map (·.count)).sum
  live_eq : s.heap.stats.live = s.heap.liveCells
  /-- No object is freed twice. -/
  deallocations_eq : s.heap.stats.deallocations = s.heap.cells.countP Option.isNone

theorem exact_of_balanced (hs : s.account.Balanced) : s.Exact where
  live_of_slot r hr := hs.live_of_mem hr
  live_of_refs p v hv r hr := hs.live_of_mem_refs hv hr
  count_eq r _ := by
    rw [← hs.nodup_kept.count, ← Multiset.coe_count]
    exact hs.count_eq r
  value_of_kept r hr := hs.value?_of_mem_kept hr
  references_eq := hs.references_eq
  live_eq := by
    have halloc := hs.allocations_eq
    have hdealloc := hs.deallocations_eq
    rw [Heap.card_objects] at hdealloc
    simp only [account] at halloc hdealloc
    rw [Stats.live]
    omega
  deallocations_eq := by
    have hdealloc := hs.deallocations_eq
    have hsize : s.heap.cells.size = s.heap.cells.countP Option.isSome +
        s.heap.cells.countP fun c => ¬c.isSome := Array.size_eq_countP_add_countP
    have hnone : s.heap.cells.countP (fun c => ¬c.isSome) = s.heap.cells.countP Option.isNone :=
      congrArg (Array.countP · _) (funext fun c => by cases c <;> rfl)
    rw [Heap.card_objects] at hdealloc
    simp only [account, Heap.liveCells] at hdealloc
    rw [hnone] at hsize
    omega

/-- After any calls each object is counted exactly. Another call, or the release
    of all slots, shares, moves and forgets references one by one; an object is
    freed exactly where its count goes from 1 to 0 and its type is freed, and
    what was freed stays so. -/
theorem exact_performAll {host : Host} (hhost : host.IsOrderly)
    (calls : List (Call × Option String)) :
    let s := (start host).performAll calls
    s.Exact ∧
      (∀ c target, s.account.TracedRun (s.perform c target).2.account) ∧
      s.account.TracedRun s.close.account := by
  intro s
  have hs : s.account.Sound := sound_performAll hhost calls
  refine ⟨exact_of_balanced hs.toBalanced, fun c target => ?_, ?_⟩
  · exact (safeRun_perform (isOrderly_performAll hhost calls) hs c target).run.traced
  · exact (run_close hs.toBalanced).traced

/-- A tuple with the pair of an integer and the arguments, which a native method makes. -/
def nativePair : List (Call × Option String) :=
  [(.make (.integer 5), some "x"), (.newMethod "pair" ⟨"pair"⟩ (some "x"), some "f"),
    (.newTuple ["x"], some "t"), (.binary .call "f" "t", some "p")]

/-- The integer is in a slot, the receiver of the method, and in both tuples. -/
theorem exact_performAll_of_nativePair :
    ((start .basic).performAll nativePair).Exact ∧
      ((start .basic).performAll nativePair).heap.count ⟨0⟩ = 4 :=
  ⟨(exact_performAll Host.isOrderly_basic nativePair).1, by cbv⟩

end Session

end ScriptCore.Object
