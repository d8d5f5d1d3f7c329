import ScriptCore.Proofs.Object.Action

/-!
# Hosts

What native methods do is up to the host that they are a part of. Of a host nothing is known,
but that it uses objects as operations do.

* `Host.IsOrderly`: native methods that fail have made and freed objects at most; those that
  answer have built what they answer with, from what they were given and what that leads to.
* `Host.isOrderly_basic`: a host that is orderly.
-/

namespace ScriptCore.Object

open ScriptCore.Object.Action

variable {h : Heap} {held : Multiset Ref} {operands : List Ref} {r x : Ref}

/-- The native methods of a host read, make and free objects, and answer with one that
    they came by or built. They store nothing in the objects that are there, and release only
    what they took. -/
structure Host.IsOrderly (host : Host) : Prop where
  gives {native : Native} {receiver : Option Ref} {arguments : Ref} {h : Heap}
    {held : Multiset Ref} {operands : List Ref} (hs : Account.Sound ⟨h, held⟩)
    (ho : ∀ r ∈ operands, r ∈ held) (hr : ∀ r ∈ receiver, h.Obtained operands r)
    (hx : arguments ∈ operands) : Gives h operands (host native receiver arguments)

namespace Action

/-- The pair of an object with another: it holds both, so the reference that was made to the
    first is released. -/
theorem perform_pair {y : Action Ref} {h₀ : Heap} (hp : y.perform h = (.ok r, h₀.retain r))
    (hr : h₀.Live r) (hx : h₀.Live x) :
    (do
      let r ← y
      let pair ← alloc (.tuple [r, x])
      release r
      return pair : Action Ref).perform h =
        (.ok ⟨h₀.cells.size⟩, ([r, x].foldl Heap.retain h₀).push (.tuple [r, x])) := by
  have hswap : [r, x].foldl Heap.retain (h₀.retain r) = ((h₀.retain r).retain x).retain r :=
    Heap.retain_comm _ _ _
  have hl : ((h₀.retain r).retain x).Live r := (hr.retain r).retain x
  obtain ⟨c, hc⟩ := hl
  have hpos : 0 < c.count := by
    rw [← Heap.count_of_cell? hc, Heap.count_retain (hx.retain r), Heap.count_retain hr,
      if_pos rfl]
    omega
  rw [perform_bind_of_ok hp, perform_bind_of_ok (perform_alloc _ _)]
  show (Except.ok _, (([r, x].foldl Heap.retain (h₀.retain r)).push _).release r) = _
  rw [hswap, Heap.release_push_retain hc hpos]
  congr 2
  exact congrArg Ref.mk Array.size_modify

/-- The pair of an object that was come by with another. -/
theorem gives_pair {y : Action Ref} {h₀ : Heap} (ha : Account.Balanced ⟨h, held⟩)
    (ho : ∀ r ∈ operands, r ∈ held) (hx : x ∈ operands) (hb : h.Builds operands [] h₀)
    (hr : h₀.Obtained operands r) (hp : y.perform h = (.ok r, h₀.retain r)) :
    Gives h operands (do
      let r ← y
      let pair ← alloc (.tuple [r, x])
      release r
      return pair) := by
  have ha₀ := (Account.safeRun_builds ha ho hb).run.balanced ha
  rw [Multiset.coe_nil, Multiset.zero_add] at ha₀
  refine .ok (perform_pair hp (ha₀.live_of_obtained ho hr) (ha₀.live_of_mem (ho x hx)))
    (hb.makeOf (v := .tuple [r, x]) rfl trivial fun q hq => ?_)
  rcases List.mem_cons.1 hq with rfl | hq
  · exact hr
  · exact List.mem_singleton.1 hq ▸ .operand hx

end Action

theorem Host.isOrderly_basic : Host.basic.IsOrderly where
  gives {native receiver arguments h held operands} ha ho hr hx := by
    unfold Host.basic
    dsimp only
    split_ifs
    · cases receiver with
      | some r => exact gives_share (hr r rfl)
      | none => exact gives_shareNone
    · exact reads_items.bind fun _ _ => gives_alloc_of_refs_eq_nil rfl rfl
    · cases receiver with
      | some r => exact gives_pair ha.toBalanced ho hx .nothing (hr r rfl) rfl
      | none =>
        obtain ⟨r, hr, hp⟩ := h.exists_shareNone_eq
        exact gives_pair ha.toBalanced ho hx (.withNone .nothing) (.kept hr)
          (congrArg (Prod.map Except.ok id) hp)
    · exact .throw _

end ScriptCore.Object
