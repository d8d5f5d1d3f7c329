import ScriptCore.Proofs.Object.Frame

/-!
# The entries of dictionaries

A dictionary has no entries when it is made. From then on it has under a name what calls last
stored there, unless they removed it since.

* `Heap.under?`: what a dictionary has under a name.
* `Session.keep`, `Session.lastKept`: what a call, and what calls leave under a name.
* `Session.find?_performAll`: dictionaries have what was left.
-/

namespace ScriptCore

open Object

namespace Heap

variable {h h' : Heap} {d r : Ref} {name : String} {entries : NameMap Ref} {v : Value}

/-- What a dictionary has under a name. -/
def under? (h : Heap) (d : Ref) (name : String) : Option Ref :=
  match h.value? d with
  | some (.dict entries) => entries.find? name
  | _ => none

theorem under?_eq (hd : h.value? d = some (.dict entries)) :
    h.under? d name = entries.find? name := by
  rw [under?, hd]

theorem under?_of_not_live (hd : ¬h.Live d) : h.under? d name = none := by
  rw [under?]
  split
  · next hv => exact absurd (live_of_value? hv) hd
  · rfl

/-- What can be made: values of new objects, and members with attributes that have no entries
    yet. -/
def Made (h : Heap) (v : Value) : Prop :=
  v.payload.Fresh ∨ ∃ c d, v = .member c d ∧ h.value? d = some (.dict .empty)

theorem Extends.made (he : h.Extends h') (hv : h.Made v) : h'.Made v := by
  refine hv.imp_right ?_
  rintro ⟨c, d, rfl, hd⟩
  exact ⟨c, d, rfl, (he.value?_eq d (live_of_value? hd).lt_size).trans hd⟩

theorem value?_withNone_cases (hv : h.withNone.value? r = some v) :
    h.value? r = some v ∨ v = .none := by
  unfold withNone at hv
  split at hv
  · exact .inl hv
  · exact (value?_push_cases (v := .none) hv).symm.imp_right And.right

theorem value?_withType_cases {t : ObjectType} (hv : (h.withType t).value? r = some v) :
    h.value? r = some v ∨ v = .typeObject t := by
  unfold withType at hv
  split at hv
  · exact .inl hv
  · exact (value?_push_cases (v := .typeObject t) hv).symm.imp_right And.right

/-- What is there after something was built was there before, or was made. -/
theorem Builds.value?_cases {operands rs : List Ref} (hb : h.Builds operands rs h')
    (hv : h'.value? r = some v) : h.value? r = some v ∨ h'.Made v := by
  induction hb generalizing r v with
  | nothing => exact .inl hv
  | spent _ n ih =>
    rw [value?_spent] at hv
    exact (ih hv).imp_right (extends_spent _ n).made
  | withNone _ ih =>
    rcases value?_withNone_cases hv with hv | rfl
    · exact (ih hv).imp_right (extends_withNone _).made
    · exact .inr (.inl trivial)
  | withType _ t ih =>
    rcases value?_withType_cases hv with hv | rfl
    · exact (ih hv).imp_right (extends_withType _ t).made
    · exact .inr (.inl trivial)
  | perm _ _ ih => exact ih hv
  | share _ _ ih =>
    rw [value?_retain] at hv
    exact (ih hv).imp_right (extends_retain _ _).made
  | make _ _ hfresh ih =>
    rcases value?_push_cases hv with ⟨-, rfl⟩ | hv
    · exact .inr (.inl hfresh)
    · exact (ih hv).imp_right (extends_push _ _).made
  | @member _ h₁ c _ hc _ ih =>
    have hextends := (extends_retain (h₁.push (.dict .empty)) c).trans
      (extends_push _ (.member c ⟨h₁.cells.size⟩))
    rcases value?_push_cases hv with ⟨-, rfl⟩ | hv
    · have hd : ((h₁.push (.dict .empty)).retain c).value? ⟨h₁.cells.size⟩ =
          some (.dict .empty) := by rw [value?_retain, value?_push_self]
      exact .inr (.inr ⟨c, _, rfl, (value?_push_of_live (live_of_value? hd) _).trans hd⟩)
    · rw [value?_retain] at hv
      rcases value?_push_cases hv with ⟨-, rfl⟩ | hv
      · exact .inr (.inl rfl)
      · exact (ih hv).imp_right ((extends_push h₁ _).trans hextends).made

/-- A dictionary is made without entries. -/
theorem Made.dict (hd : h.Made (.dict entries)) : entries = .empty := by
  obtain hfresh | ⟨_, _, heq, -⟩ := hd
  · exact hfresh
  · cases heq

end Heap

namespace Object.Session

open ScriptCore.Object.Action

variable {s : Session} {c : Call} {d r : Ref} {name : String} {last : Option Ref}
  {entries : NameMap Ref} {target : Option String} {result : Except Error (Outcome Ref)} {h : Heap}

/-- What is under a name of a dictionary after a call, given what was there before: what the
    call stores there, or nothing, where it removes that. -/
def keep (s : Session) (d : Ref) (name : String) (c : Call) (last : Option Ref) : Option Ref :=
  match s.store? c with
  | some w => if w.dict = d ∧ w.name = name then w.content else last
  | none => last

/-- What calls last stored under a name of a dictionary, if they did not remove it since; `last`
    is what was there before. -/
def lastKept (d : Ref) (name : String) :
    Session → List (Call × Option String) → Option Ref → Option Ref
  | _, [], last => last
  | s, (c, target) :: calls, last =>
    lastKept d name (s.perform c target).2 calls (s.keep d name c last)

theorem keep_of_store?_eq_none (hstore : s.store? c = none) : s.keep d name c last = last := by
  rw [keep, hstore]

/-- A call can only store in a dictionary that is there. -/
theorem keep_of_not_live (hs : s.account.Balanced) (hd : ¬s.heap.Live d) :
    s.keep d name c last = last := by
  rw [keep]
  split
  · next w hw =>
    rw [if_neg]
    rintro ⟨rfl, -⟩
    rcases (of_store? hw).2.1 with hdict | ⟨a, -, hm, ha⟩
    · exact hd (hs.live_of_mem hdict)
    · obtain ⟨⟨cls, hmember⟩, -⟩ := Heap.of_memberStore? ha
      exact hd (hs.live_of_mem_refs hmember (List.mem_cons_of_mem _ List.mem_cons_self))
  · rfl

/-! ## One call -/

/-- What a dictionary has after a call. -/
theorem Effect.find?_eq (he : s.Effect c (result, h)) (hd : h.value? d = some (.dict entries)) :
    entries.find? name = s.keep d name c (s.heap.under? d name) := by
  cases he with
  | fails hstore =>
    rw [Heap.value?_spent] at hd
    rw [keep_of_store?_eq_none hstore, Heap.under?_eq hd]
  | gives hstore _ _ hbuilds =>
    rw [keep_of_store?_eq_none hstore]
    by_cases hlive : s.heap.Live d
    · rw [hbuilds.extends.value?_eq d hlive.lt_size] at hd
      rw [Heap.under?_eq hd]
    · rw [Heap.under?_of_not_live hlive]
      rcases hbuilds.value?_cases hd with hd' | hmade
      · exact absurd (Heap.live_of_value? hd') hlive
      · rw [hmade.dict]
        rfl
  | refuses hstore hdict hcontent hnone =>
    rw [keep, hstore, Heap.under?_eq hd]
    dsimp only
    split
    · next heq =>
      obtain ⟨rfl, rfl⟩ := heq
      cases hdict.symm.trans hd
      rw [hnone, hcontent]
    · rfl
  | writes hstore hdict =>
    rw [keep, hstore]
    dsimp only
    rcases Heap.value?_of_write hdict hd with ⟨rfl, es, heq, hfind⟩ | ⟨hne, hd'⟩
    · cases heq
      rw [hfind, Heap.under?_eq hdict]
      simp only [true_and, eq_comm (a := name)]
    · rw [if_neg fun heq => hne heq.1.symm, Heap.under?_eq hd']
  | releases hc =>
    subst hc
    rw [keep_of_store?_eq_none rfl, Heap.under?_eq (Heap.value?_of_releaseAll hd)]

/-- An object had its value before a call, or was a dictionary, unless the call made it. -/
theorem Effect.exists_before {v : Value} (he : s.Effect c (result, h))
    (hv : h.value? r = some v) :
    (∃ v₀, s.heap.value? r = some v₀ ∧ (v₀ = v ∨ ∃ es es', v₀ = .dict es ∧ v = .dict es')) ∨
      s.heap.cells.size ≤ r.index := by
  cases he with
  | fails => exact .inl ⟨v, by rwa [Heap.value?_spent] at hv, .inl rfl⟩
  | gives _ _ _ hbuilds =>
    rcases Nat.lt_or_ge r.index s.heap.cells.size with hlt | hge
    · exact .inl ⟨v, (hbuilds.extends.value?_eq r hlt).symm.trans hv, .inl rfl⟩
    · exact .inr hge
  | refuses => exact .inl ⟨v, hv, .inl rfl⟩
  | writes _ hd =>
    rcases Heap.value?_of_write hd hv with ⟨rfl, es, rfl, -⟩ | ⟨-, hv'⟩
    · exact .inl ⟨_, hd, .inr ⟨_, es, rfl, rfl⟩⟩
    · exact .inl ⟨v, hv', .inl rfl⟩
  | releases => exact .inl ⟨v, Heap.value?_of_releaseAll hv, .inl rfl⟩

section Any

variable (hhost : s.host.IsOrderly) (hs : s.account.Sound)

include hhost hs

theorem find?_perform (hd : (s.perform c target).2.heap.value? d = some (.dict entries)) :
    entries.find? name = s.keep d name c (s.heap.under? d name) := by
  obtain ⟨result, h, he, hvalue⟩ := exists_effect hhost hs c target
  exact Effect.find?_eq (s := s.cleared) he (hvalue d _ hd)

theorem exists_before {v : Value} (hv : (s.perform c target).2.heap.value? r = some v) :
    (∃ v₀, s.heap.value? r = some v₀ ∧ (v₀ = v ∨ ∃ es es', v₀ = .dict es ∧ v = .dict es')) ∨
      s.heap.cells.size ≤ r.index := by
  obtain ⟨result, h, he, hvalue⟩ := exists_effect hhost hs c target
  exact he.exists_before (hvalue r v hv)

/-- An object that is no dictionary had its value before, unless the call made it. -/
theorem value?_before {v : Value} (hv : (s.perform c target).2.heap.value? r = some v)
    (hdict : ∀ entries, v ≠ .dict entries) :
    s.heap.value? r = some v ∨ s.heap.cells.size ≤ r.index := by
  refine (exists_before hhost hs hv).imp_left ?_
  rintro ⟨v₀, hv₀, rfl | ⟨-, es, -, rfl⟩⟩
  · exact hv₀
  · exact absurd rfl (hdict es)

theorem exists_entries_before (hd : (s.perform c target).2.heap.value? d = some (.dict entries)) :
    (∃ es, s.heap.value? d = some (.dict es)) ∨ s.heap.cells.size ≤ d.index := by
  refine (exists_before hhost hs hd).imp_left ?_
  rintro ⟨v₀, hv₀, rfl | ⟨es, -, rfl, -⟩⟩
  · exact ⟨entries, hv₀⟩
  · exact ⟨es, hv₀⟩

/-! ## Any calls -/

theorem exists_entries_before_performAll {calls : List (Call × Option String)}
    (hd : (s.performAll calls).heap.value? d = some (.dict entries)) :
    (∃ es, s.heap.value? d = some (.dict es)) ∨ s.heap.cells.size ≤ d.index := by
  induction calls generalizing s with
  | nil => exact .inl ⟨entries, hd⟩
  | cons call calls ih =>
    obtain ⟨c, target⟩ := call
    have hrun := safeRun_perform hhost hs c target
    rcases ih ((s.host_perform c target).symm ▸ hhost) (hrun.sound hs) hd with ⟨es, hd'⟩ | hsize
    · exact exists_entries_before hhost hs hd'
    · exact .inr (hrun.run.size_le.trans hsize)

/-- A dictionary has what calls left under a name. -/
theorem find?_performAll {calls : List (Call × Option String)}
    (hd : (s.performAll calls).heap.value? d = some (.dict entries)) :
    entries.find? name = lastKept d name s calls (s.heap.under? d name) := by
  induction calls generalizing s with
  | nil => exact (Heap.under?_eq hd).symm
  | cons call calls ih =>
    obtain ⟨c, target⟩ := call
    have hrun := safeRun_perform hhost hs c target
    have hhost' : (s.perform c target).2.host.IsOrderly := (s.host_perform c target).symm ▸ hhost
    have hs' := hrun.sound hs
    rw [lastKept, ih hhost' hs' hd]
    congr 1
    -- the dictionary was there after the first call, or it was not made yet
    rcases exists_entries_before_performAll hhost' hs' hd with ⟨entries', hv⟩ | hsize
    · rw [Heap.under?_eq hv, find?_perform hhost hs hv]
    · have hsize' := hrun.run.size_le.trans hsize
      have hlive : ¬s.heap.Live d := fun hl => hl.lt_size.not_ge hsize'
      rw [keep_of_not_live hs.toBalanced hlive, Heap.under?_of_not_live hlive,
        Heap.under?_of_not_live fun hl => hl.lt_size.not_ge hsize]

end Any

end Object.Session

end ScriptCore
