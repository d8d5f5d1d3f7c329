import Mathlib
import ScriptCore.Proofs.Object.Session

/-!
# Calls that fail

A call that fails, at whatever depth, leaves the objects, the slots and what the heap keeps as
they were: it has made objects and freed the same number.

* `Heap.Unchanged`, `Session.Unchanged`: nothing is different but that objects were made and
  freed.
* `Host.Restores`: whether native methods that fail leave everything as it was.
* `Session.unchanged_of_error`: this holds of every call after any calls.
-/

namespace ScriptCore

open Object

/-! ## Nothing changed -/

/-- Whether objects were made and freed between two heaps, and nothing else. -/
structure Heap.Unchanged (h h' : Heap) : Prop where
  cell?_eq : ∀ r, h'.cell? r = h.cell? r
  noneRef_eq : h'.noneRef = h.noneRef
  typeRefs_eq : h'.typeRefs = h.typeRefs
  references_eq : h'.stats.references = h.stats.references
  exists_spent : ∃ n, h'.stats.allocations = h.stats.allocations + n ∧
    h'.stats.deallocations = h.stats.deallocations + n

theorem Heap.unchanged_spent (h : Heap) (n : Nat) : h.Unchanged (h.spent n) where
  cell?_eq := congrFun (h.cell?_spent n)
  noneRef_eq := rfl
  typeRefs_eq := rfl
  references_eq := rfl
  exists_spent := ⟨n, rfl, rfl⟩

namespace Object

/-- Whether a session has the same slots, and objects were only made and freed. -/
structure Session.Unchanged (s s' : Session) : Prop where
  slots_eq : s'.slots = s.slots
  heap : s.heap.Unchanged s'.heap

/-! ## Native methods -/

/-- Whether native methods that fail leave everything as it was. -/
def Host.Restores (host : Host) : Prop :=
  ∀ {native : Native} {receiver : Option Ref} {arguments : Ref} {h h' : Heap} {e : Error},
    (host native receiver arguments).perform h = (.error e, h') → h.Unchanged h'

namespace Action

/-- Without a native method, nothing is called. -/
theorem unchanged_of_method_bind {k : String × Native × Option Ref → Action Ref} {r : Ref}
    {h h' : Heap} {e : Error}
    (hk : ∀ m {h' e}, (k m).perform h = (.error e, h') → h.Unchanged h')
    (hp : (method r >>= k).perform h = (.error e, h')) : h.Unchanged h' := by
  rw [perform_bind] at hp
  cases reads_method (h := h) (r := r) with
  | error hm =>
    rw [hm] at hp
    cases hp
    simpa using h.unchanged_spent 0
  | ok hm _ =>
    rw [hm] at hp
    exact hk _ hp

theorem unchanged_of_call {host : Host} (hhost : host.Restores) {r arguments : Ref} {h h' : Heap}
    {e : Error} (hp : (call host r arguments).perform h = (.error e, h')) : h.Unchanged h' :=
  unchanged_of_method_bind (fun _ {_ _} hk => hhost hk) hp

theorem unchanged_of_callUnbound {host : Host} (hhost : host.Restores) {r arguments : Ref}
    {h h' : Heap} {e : Error} (hp : (callUnbound host r arguments).perform h = (.error e, h')) :
    h.Unchanged h' :=
  unchanged_of_method_bind (fun _ {_ _} hk => hhost hk) hp

end Action

/-! ## Calls -/

namespace Session

open ScriptCore.Object.Action

variable {s : Session} {c : Call}

theorem unchanged_of_spent {n : Nat} {h : Heap} (hh : h = s.cleared.heap.spent n) :
    s.Unchanged { s with heap := h } where
  slots_eq := rfl
  heap :=
    have hu := s.cleared.heap.unchanged_spent n
    hh ▸ ⟨hu.cell?_eq, hu.noneRef_eq, hu.typeRefs_eq, hu.references_eq, hu.exists_spent⟩

/-- Where the action of a call fails, it has made and freed objects. -/
theorem Effect.exists_eq_spent {e : Error} {h : Heap} (he : s.Effect c (.error e, h)) :
    ∃ n, h = s.heap.spent n := by
  cases he with
  | @fails _ n => exact ⟨n, rfl⟩
  | refuses => exact ⟨0, (s.heap.spent_zero).symm⟩

theorem unchanged_of_failure {f : Failure} {target : Option String} (hhost : s.host.IsOrderly)
    (hs : s.account.Sound) (hf : (s.perform c target).1 = .error f) :
    s.Unchanged (s.perform c target).2 := by
  obtain ⟨_, -, hp⟩ | ⟨x, hx, ⟨e, h, hq, hp⟩ | ⟨o, h, -, hp⟩⟩ := s.perform_cases c target
  · rw [hp]
    exact unchanged_of_spent (n := 0) (Heap.spent_zero _).symm
  · have he := effect_action (s := s.cleared) hhost (sound_cleared hs) hx
    obtain ⟨n, hn⟩ := (hq ▸ he).exists_eq_spent
    rw [hp]
    exact unchanged_of_spent hn
  · rw [hp] at hf
    cases hf

theorem unchanged_of_print {mode : PrintMode} {limit : Option Nat} {a : String}
    {target : Option String} {p : Printed} {e : Error}
    (hp : (s.perform (.unary (.print mode limit) a) target).1 = .ok (.printed p))
    (he : p.error = some e) :
    s.Unchanged (s.perform (.unary (.print mode limit) a) target).2 ∧
      ((∃ reason, e = .writer reason) ∨ p.written = []) := by
  obtain ⟨_, -, hq⟩ | ⟨x, hx, hcase⟩ := s.perform_cases (.unary (.print mode limit) a) target
  · rw [hq] at hp
    cases hp
  · obtain ⟨r, -, hx⟩ := bind_eq_ok hx
    cases hx
    obtain ⟨p', n, hprint, hwritten⟩ := perform_print mode limit r s.cleared.heap
    have hrun : (Unary.run r (.print mode limit)).perform s.cleared.heap =
        (.ok (.printed p'), s.cleared.heap.spent n) := perform_bind_of_ok hprint
    obtain ⟨e, h, hx, -⟩ | ⟨o, h, hx, hq⟩ := hcase
    · cases hx.symm.trans hrun
    · cases hx.symm.trans hrun
      rw [hq] at hp ⊢
      cases hp
      exact ⟨unchanged_of_spent rfl, hwritten e he⟩

/-- After any calls, a call that fails changes nothing, and neither does a print whose writing
    fails; it has written nothing, unless the writer takes no more. Where what native methods do
    changes nothing where it fails, so does the call of a native method. -/
theorem unchanged_of_error {host : Host} (hhost : host.IsOrderly)
    (calls : List (Call × Option String)) :
    let s := (start host).performAll calls
    (∀ c target f, (s.perform c target).1 = .error f → s.Unchanged (s.perform c target).2) ∧
    (∀ mode limit a target p e,
      (s.perform (.unary (.print mode limit) a) target).1 = .ok (.printed p) →
      p.error = some e →
      s.Unchanged (s.perform (.unary (.print mode limit) a) target).2 ∧
        ((∃ reason, e = .writer reason) ∨ p.written = [])) ∧
    ∀ host' : Host, host'.Restores → ∀ r arguments h e h',
      ((call host' r arguments).perform h = (.error e, h') → h.Unchanged h') ∧
      ((callUnbound host' r arguments).perform h = (.error e, h') → h.Unchanged h') :=
  ⟨fun _ _ _ hf =>
      unchanged_of_failure (isOrderly_performAll hhost calls) (sound_performAll hhost calls) hf,
    fun _ _ _ _ _ _ hp he => unchanged_of_print hp he,
    fun _ hhost' _ _ _ _ _ => ⟨unchanged_of_call hhost', unchanged_of_callUnbound hhost'⟩⟩

/-- Calls that make a tuple of an integer and a function. -/
def tupleOfFunction : List (Call × Option String) :=
  [(.make .dict, some "d"), (.binary .newFunction "d" "d", some "f"),
    (.make (.integer 5), some "x"), (.newTuple ["x", "f"], some "t")]

/-- The tuple has no text, as the function has none, but that shows only after the text of the
    integer was made; and a native method that refuses changes nothing. -/
theorem unchanged_of_error_of_function :
    let s := (start .basic).performAll tupleOfFunction
    ((s.perform (.unary .repr "t") (some "x")).1 = .error (.error (.unsupported .repr .function)) ∧
      s.Unchanged (s.perform (.unary .repr "t") (some "x")).2) ∧
    ((s.perform (.unary (.print .raw none) "t") none).1 =
        .ok (.printed ⟨[], some (.unsupported .repr .function)⟩) ∧
      s.Unchanged (s.perform (.unary (.print .raw none) "t") none).2) ∧
    ∀ r arguments h e h',
      (call (fun _ _ _ => throw .refused) r arguments).perform h = (.error e, h') →
        h.Unchanged h' := by
  obtain ⟨hrepr, hprint⟩ :
      (((start .basic).performAll tupleOfFunction).perform (.unary .repr "t") (some "x")).1 =
        .error (.error (.unsupported .repr .function)) ∧
      (((start .basic).performAll tupleOfFunction).perform (.unary (.print .raw none) "t") none).1 =
        .ok (.printed ⟨[], some (.unsupported .repr .function)⟩) := by cbv
  obtain ⟨herror, hprinted, hnative⟩ := unchanged_of_error Host.isOrderly_basic tupleOfFunction
  refine ⟨⟨hrepr, herror _ _ _ hrepr⟩, ⟨hprint, (hprinted _ _ _ _ _ _ hprint rfl).1⟩,
    fun r x h e h' => (hnative (fun _ _ _ => throw .refused) ?_ r x h e h').1⟩
  intro _ _ _ h h' e hp
  cases hp
  simpa using h.unchanged_spent 0

end Session

end Object

end ScriptCore
