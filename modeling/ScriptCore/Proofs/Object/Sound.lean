import ScriptCore.Proofs.Object.Effect

/-!
# Sound accounts

An account is *sound* if, besides being balanced, the values in it fit the objects that they
refer to, and the attributes of a member are referred to by that member alone.

* `Account.SafeStep`: an elementary step that keeps an account sound. All are safe but the
  sharing of the attributes of a member, and the making of an object that does not fit.
* `Heap.Obtained.not_isAttributes`: operations never come by the attributes of a member.
* `Account.safeRun_builds`: what operations build is built by safe steps.
-/

namespace ScriptCore

open Object

namespace Heap

variable {h h' : Heap} {p q r d : Ref} {v w : Value} {t : ObjectType}

/-- Whether a dictionary holds the attributes of a member. -/
def IsAttributes (h : Heap) (d : Ref) : Prop := ∃ m c, h.value? m = some (.member c d)

theorem HasType.live (hr : h.HasType r t) : h.Live r :=
  let ⟨_, hv, _⟩ := hr
  live_of_value? hv

theorem HasType.exists_entries (hh : h.Paired) (hd : h.HasType d .dict) :
    ∃ entries, h.value? d = some (.dict entries) := by
  obtain ⟨p, hv, hs⟩ := hd.exists_payload hh
  cases p with
  | dict entries => exact ⟨entries, hv⟩
  | _ => cases hs

/-- Two values that refer to one object. -/
theorem two_le_count_inner (hp : h.value? p = some v) (hv : r ∈ v.refs)
    (hq : h.value? q = some w) (hw : r ∈ w.refs) (hpq : q ≠ p) : 2 ≤ h.inner.count r := by
  obtain ⟨c, hc, rfl⟩ := exists_cell?_of_value? hp
  have hsplit := congrArg (Multiset.count r) (inner_replace hc none)
  rw [Multiset.count_add, Multiset.count_add, Multiset.coe_count, Multiset.coe_count] at hsplit
  have hrest : r ∈ (h.replace p none).inner :=
    mem_inner_iff.2 ⟨q, w, by rw [value?_replace ⟨c, hc⟩, if_neg hpq, hq], hw⟩
  have h1 := Multiset.count_pos.2 hrest
  have h2 := List.count_pos_iff.2 hv
  rw [Option.toList_none, List.flatMap_nil, List.count_nil] at hsplit
  omega

end Heap

namespace Object.Account

variable {h h' : Heap} {held held' : Multiset Ref} {m c d p r x : Ref} {v w : Value}

/-! ## Sound accounts -/

/-- An account that is balanced, where values fit the objects that they refer to, and where
    there is one reference to the attributes of a member. -/
structure Sound (a : Account) : Prop extends Balanced a where
  fits : ∀ r v, a.heap.value? r = some v → a.heap.Fits v
  alone : ∀ m c d, a.heap.value? m = some (.member c d) → a.heap.count d = 1

theorem Sound.paired (ha : Sound ⟨h, held⟩) : h.Paired :=
  fun r v hv => (ha.fits r v hv).isSuited

/-- The one reference to the attributes of a member is the one in the member. -/
theorem Sound.count_attributes (ha : Sound ⟨h, held⟩) (hm : h.value? m = some (.member c d)) :
    held.count d = 0 ∧ h.inner.count d = 1 ∧ h.kept.count d = 0 := by
  have hcount := ha.count_eq d
  have halone := ha.alone m c d hm
  have hinner := Multiset.count_pos.2
    (Heap.mem_inner_iff.2 ⟨m, _, hm, List.mem_cons_of_mem c List.mem_cons_self⟩)
  dsimp only at hcount halone
  omega

theorem Sound.not_isAttributes_of_mem (ha : Sound ⟨h, held⟩) (hr : r ∈ held) :
    ¬h.IsAttributes r := by
  rintro ⟨m, c, hm⟩
  exact Multiset.count_eq_zero.1 (ha.count_attributes hm).1 hr

theorem Sound.not_isAttributes_of_hasType {t : ObjectType} (ha : Sound ⟨h, held⟩)
    (hr : h.HasType r t) (ht : t ≠ .dict) : ¬h.IsAttributes r := by
  rintro ⟨m, c, hm⟩
  obtain ⟨v, hv, rfl⟩ := hr
  obtain ⟨-, w, hw, hdict⟩ := ha.fits m _ hm
  cases hv.symm.trans hw
  exact ht hdict

/-- Only the member refers to its attributes. -/
theorem Sound.eq_of_mem_refs (ha : Sound ⟨h, held⟩) (hm : h.value? m = some (.member c d))
    (hp : h.value? p = some v) (hd : d ∈ v.refs) : p = m := by
  by_contra hpm
  have := Heap.two_le_count_inner hm (List.mem_cons_of_mem c List.mem_cons_self) hp hd hpm
  have := (ha.count_attributes hm).2.1
  omega

/-- Operations never come by the attributes of a member. -/
theorem Sound.not_isAttributes (ha : Sound ⟨h, held⟩) {operands : List Ref}
    (ho : ∀ r ∈ operands, r ∈ held) (hr : h.Obtained operands r) : ¬h.IsAttributes r := by
  cases hr with
  | operand hr => exact ha.not_isAttributes_of_mem (ho r hr)
  | kept hr =>
    rintro ⟨m, c, hm⟩
    exact List.count_eq_zero.1 (ha.count_attributes hm).2.2 hr
  | @offered p _ q hq hr =>
    rintro ⟨m, c, hm⟩
    obtain ⟨v, hv, rfl⟩ := Heap.exists_value?_of_payload? hq
    obtain rfl := ha.eq_of_mem_refs hm hv (v.payload.offered_subset hr)
    cases hv.symm.trans hm
    -- the class of a member is no dictionary
    obtain rfl := List.mem_singleton.1 hr
    exact ha.not_isAttributes_of_hasType (ha.fits p _ hv).1 nofun ⟨p, _, hv⟩

/-! ### Values go on to fit -/

/-- What was there and still is has kept its value, unless it is a dictionary. -/
def Preserves (h h' : Heap) : Prop :=
  ∀ r v v', h.value? r = some v → h'.value? r = some v' → v' = v ∨ v.type = .dict ∧ v'.type = .dict

theorem Preserves.of_eq (hvalue : ∀ r v, h'.value? r = some v → h.value? r = some v) :
    Preserves h h' := fun r v v' hv hv' => by
  cases hv.symm.trans (hvalue r v' hv')
  exact .inl rfl

theorem Preserves.hasType {t : ObjectType} (hp : Preserves h h') (hr : h.HasType r t)
    (hl : h'.Live r) : h'.HasType r t := by
  obtain ⟨v, hv, rfl⟩ := hr
  obtain ⟨c, hc⟩ := hl
  have hv' := Heap.value?_of_cell? hc
  rcases hp r v _ hv hv' with heq | ⟨ht, ht'⟩
  · exact ⟨_, hv', congrArg Value.type heq⟩
  · exact ⟨_, hv', ht'.trans ht.symm⟩

/-- A value that fits goes on to fit, as long as what it refers to is there. -/
theorem Balanced.fits_later (hb : Balanced ⟨h', held⟩) (hp : Preserves h h') (hv : h.Fits v)
    (hrefs : ∀ x ∈ v.refs, h'.Live x) : h'.Fits v := by
  cases v with
  | userClass bases methods =>
    obtain ⟨hmethods, hbases⟩ := hv
    refine ⟨hp.hasType hmethods (hrefs _ (by simp [Value.refs, Payload.refs])), fun b hbase => ?_⟩
    obtain ⟨items, hitems, hclasses⟩ := hbases b hbase
    obtain ⟨cell, hc⟩ := hrefs b (by simp [Value.refs, Payload.refs, Option.mem_def.1 hbase])
    have hv' := Heap.value?_of_cell? hc
    rcases hp b _ _ hitems hv' with heq | ⟨ht, -⟩
    · rw [heq] at hv'
      exact ⟨items, hv', fun x hx => hp.hasType (hclasses x hx) (hb.live_of_mem_refs hv' hx)⟩
    · cases ht
  | member c d =>
    exact ⟨hp.hasType hv.1 (hrefs _ (by simp [Value.refs, Payload.refs])),
      hp.hasType hv.2 (hrefs _ (by simp [Value.refs, Payload.refs]))⟩
  | boundMethod f receiver => exact hp.hasType hv (hrefs _ (by simp [Value.refs, Payload.refs]))
  | unsuited t p hp => exact absurd hv.isSuited (Bool.eq_false_iff.1 hp)
  | _ => exact hv.isSuited

/-! ## Safe steps -/

/-- A step that keeps an account sound. -/
def SafeStep (a b : Account) : Prop := a.Step b ∧ (a.Sound → b.Sound)

/-- Safe steps, one after the other. -/
abbrev SafeRun : Account → Account → Prop := Relation.ReflTransGen SafeStep

variable {a b : Account}

theorem SafeRun.run (hr : a.SafeRun b) : a.Run b :=
  Relation.ReflTransGen.mono (fun _ _ hs => hs.1) _ _ hr

theorem SafeRun.sound (hr : a.SafeRun b) (ha : a.Sound) : b.Sound := by
  induction hr with
  | refl => exact ha
  | tail _ hs ih => exact hs.2 ih

/-- A step that keeps the values and the counts of all objects. -/
theorem Sound.of_eq (ha : Sound ⟨h, held⟩) (hb : Balanced ⟨h', held'⟩)
    (hvalue : h'.value? = h.value?) (hcount : h'.count = h.count) : Sound ⟨h', held'⟩ :=
  { hb with
    fits := fun r v hv => (Heap.Fits.congr hvalue).2 (ha.fits r v (hvalue ▸ hv))
    alone := fun m c d hm => (congrFun hcount d).trans (ha.alone m c d (hvalue ▸ hm)) }

theorem safeStep_share (hr : h.Live r) (hattributes : Sound ⟨h, held⟩ → ¬h.IsAttributes r) :
    SafeStep ⟨h, held⟩ ⟨h.retain r, r ::ₘ held⟩ := by
  have hvalue := h.value?_retain r
  refine ⟨.share hr, fun ha => { ha.share hr with fits := fun q v hv => ?_, alone := ?_ }⟩
  · exact (Heap.Fits.congr hvalue).2 (ha.fits q v (hvalue ▸ hv))
  · intro m c d hm
    have hm' : h.value? m = some (.member c d) := hvalue ▸ hm
    have hne : d ≠ r := fun heq => hattributes ha ⟨m, c, heq ▸ hm'⟩
    show (h.retain r).count d = 1
    rw [Heap.count_retain hr, if_neg hne]
    exact ha.alone m c d hm'

theorem preserves_push (h : Heap) (v : Value) : Preserves h (h.push v) := fun r w w' hw hw' => by
  rw [Heap.value?_push_of_live (Heap.live_of_value? hw)] at hw'
  cases hw.symm.trans hw'
  exact .inl rfl

/-- A value that is made has to fit; the attributes of a new member have been held by the
    operation that makes it alone. -/
theorem safeStep_make (hv : h.Fits v)
    (hattributes : ∀ c d, v = .member c d → h.count d = 1) :
    SafeStep ⟨h, ↑v.refs + held⟩ ⟨h.push v, ⟨h.cells.size⟩ ::ₘ held⟩ := by
  refine ⟨.make v, fun ha => ?_⟩
  have hb := ha.make v
  refine { hb with fits := fun r w hw => ?_, alone := fun m c d hm => ?_ }
  · refine hb.fits_later (preserves_push h v) ?_ fun x hx => hb.live_of_mem_refs hw hx
    rcases Heap.value?_push_cases hw with ⟨-, rfl⟩ | hw
    · exact hv
    · exact ha.fits r w hw
  · have hd : h.Live d ∧ h.count d = 1 := by
      rcases Heap.value?_push_cases hm with ⟨-, rfl⟩ | hm
      · exact ⟨ha.live_of_mem (Multiset.mem_add.2 (.inl (by simp [Value.refs, Payload.refs]))),
          hattributes c d rfl⟩
      · exact ⟨ha.live_of_mem_refs hm (by simp [Value.refs, Payload.refs]), ha.alone m c d hm⟩
    have hne : d ≠ ⟨h.cells.size⟩ := fun heq => absurd hd.1.lt_size (heq ▸ Nat.lt_irrefl _)
    show (h.push v).count d = 1
    rw [Heap.count_push, if_neg hne]
    exact hd.2

theorem safeStep_make_of_fresh (hv : h.Fits v) (hfresh : v.payload.Fresh) :
    SafeStep ⟨h, ↑v.refs + held⟩ ⟨h.push v, ⟨h.cells.size⟩ ::ₘ held⟩ :=
  safeStep_make hv fun c d heq => (heq ▸ hfresh : (Value.member c d).payload.Fresh).elim

theorem safeStep_make_of_refs_eq_nil (hs : v.isSuited = true) (hv : v.refs = []) :
    SafeStep ⟨h, held⟩ ⟨h.push v, ⟨h.cells.size⟩ ::ₘ held⟩ := by
  obtain ⟨hfits, hfresh⟩ := Value.fits_of_refs_eq_nil (h := h) hs hv
  have hmake : SafeStep ⟨h, ↑v.refs + held⟩ ⟨h.push v, ⟨h.cells.size⟩ ::ₘ held⟩ :=
    safeStep_make_of_fresh hfits hfresh
  rwa [hv, Multiset.coe_nil, Multiset.zero_add] at hmake

/-- A dictionary changed: its entries and what is held change places. -/
theorem Sound.setDict {entries entries' : NameMap Ref} (ha : Sound ⟨h, held⟩)
    (hd : h.value? p = some (.dict entries))
    (hb : Balanced ⟨h.setPayload p (.dict entries'), held'⟩) :
    Sound ⟨h.setPayload p (.dict entries'), held'⟩ := by
  have hvalue : ∀ {r w}, (h.setPayload p (.dict entries')).value? r = some w →
      r = p ∧ w = .dict entries' ∨ r ≠ p ∧ h.value? r = some w := by
    intro r w hw
    rw [Heap.value?_setPayload hd] at hw
    split at hw
    · next hr => exact .inl ⟨hr, (Option.some.inj hw).symm⟩
    · next hr => exact .inr ⟨hr, hw⟩
  have hp : Preserves h (h.setPayload p (.dict entries')) := by
    intro r w w' hw hw'
    rcases hvalue hw' with ⟨rfl, rfl⟩ | ⟨-, hw'⟩
    · cases hd.symm.trans hw
      exact .inr ⟨rfl, rfl⟩
    · exact .inl (Option.some.inj (hw'.symm.trans hw))
  refine { hb with fits := fun r w hw => ?_, alone := fun m c d hm => ?_ }
  · rcases hvalue hw with ⟨-, rfl⟩ | ⟨-, hw'⟩
    · rfl
    · exact hb.fits_later hp (ha.fits r w hw') fun x hx => hb.live_of_mem_refs hw hx
  · rcases hvalue hm with ⟨-, hm⟩ | ⟨-, hm⟩
    · cases hm
    · obtain ⟨cell, hc, -⟩ := Heap.exists_cell?_of_value? hd
      show (h.setPayload p _).count d = 1
      rw [Heap.setPayload_eq hc, Heap.count_replace ⟨cell, hc⟩, ← ha.alone m c d hm]
      split
      · next heq => rw [heq, Heap.count_of_cell? hc]; rfl
      · rfl

theorem Sound.forget (ha : Sound ⟨h, r ::ₘ held⟩) :
    Sound ⟨(h.forget r).2, ↑(h.forget r).1 + held⟩ := by
  have hb := ha.toBalanced.forget
  refine { hb with fits := fun q w hw => ?_, alone := fun m c d hm => ?_ }
  · have hp : Preserves h (h.forget r).2 := .of_eq fun _ _ => Heap.value?_of_forget
    exact hb.fits_later hp (ha.fits q w (Heap.value?_of_forget hw))
      fun x hx => hb.live_of_mem_refs hw hx
  · have hm' := Heap.value?_of_forget hm
    -- the reference forgotten was held, so it was none to the attributes of a member
    have hne : d ≠ r := fun heq =>
      ha.not_isAttributes_of_mem (Multiset.mem_cons_self r held) ⟨m, c, heq ▸ hm'⟩
    show (h.forget r).2.count d = 1
    rw [Heap.count_eq_getD, Heap.cell?_forget_of_ne hne, ← Heap.count_eq_getD]
    exact ha.alone m c d hm'

theorem safeStep_forget (hr : 0 < h.count r) :
    SafeStep ⟨h, r ::ₘ held⟩ ⟨(h.forget r).2, ↑(h.forget r).1 + held⟩ :=
  ⟨.forget hr, Sound.forget⟩

theorem safeStep_store {entries : NameMap Ref} (name : String)
    (hd : h.value? d = some (.dict entries)) :
    SafeStep ⟨h, x ::ₘ held⟩
      ⟨h.setPayload d (.dict (entries.insert name x)), ↑(entries.find? name).toList + held⟩ :=
  ⟨.store name hd, fun ha => ha.setDict hd (ha.store name hd)⟩

theorem safeStep_remove {entries : NameMap Ref} {name : String}
    (hd : h.value? d = some (.dict entries)) (hx : entries.find? name = some x) :
    SafeStep ⟨h, held⟩ ⟨h.setPayload d (.dict (entries.erase name)), x ::ₘ held⟩ :=
  ⟨.remove hd hx, fun ha => ha.setDict hd (ha.remove hd hx)⟩

theorem safeStep_keepNone (hn : h.noneRef = none) (hr : h.value? r = some .none) :
    SafeStep ⟨h, r ::ₘ held⟩ ⟨{ h with noneRef := some r }, held⟩ :=
  ⟨.keepNone hn hr, fun ha => ha.of_eq (ha.keepNone hn hr) rfl rfl⟩

theorem safeStep_keepType {t : ObjectType} (ht : h.typeRefs.lookup t = none)
    (hr : h.value? r = some (.typeObject t)) :
    SafeStep ⟨h, r ::ₘ held⟩ ⟨{ h with typeRefs := (t, r) :: h.typeRefs }, held⟩ :=
  ⟨.keepType ht hr, fun ha => ha.of_eq (ha.keepType ht hr) rfl rfl⟩

theorem safeStep_clearTags : SafeStep ⟨h, held⟩ ⟨{ h with freedTags := [] }, held⟩ :=
  ⟨.clearTags, fun ha => ha.of_eq (Step.clearTags.balanced ha.toBalanced) rfl rfl⟩

/-! ## Safe runs -/

theorem safeRun_releaseAll (rs : List Ref) (ha : Balanced ⟨h, ↑rs + held⟩) :
    SafeRun ⟨h, ↑rs + held⟩ ⟨Heap.releaseAll rs h, held⟩ := by
  induction rs, h using Heap.releaseAll.induct with
  | case1 h =>
    rw [Heap.releaseAll, Multiset.coe_nil, Multiset.zero_add]
  | case2 r rs h ih =>
    rw [← Multiset.cons_coe, Multiset.cons_add] at ha ⊢
    have hstep : SafeStep ⟨h, r ::ₘ (↑rs + held)⟩ _ :=
      safeStep_forget (ha.count_of_mem (Multiset.mem_cons_self r _))
    rw [← Multiset.add_assoc, Multiset.coe_add] at hstep
    rw [Heap.releaseAll]
    exact .head hstep (ih (hstep.1.balanced ha))

/-- What a store or a removal does to a dictionary. -/
theorem safeRun_write {entries : NameMap Ref} {name : String} {content : Option Ref}
    (ha : Balanced ⟨h, held⟩) (hd : h.value? d = some (.dict entries))
    (hcontent : ∀ x ∈ content, x ∈ held)
    (hremoved : content = none → ∃ x, entries.find? name = some x) :
    SafeRun ⟨h, held⟩ ⟨h.write d entries name content, held⟩ := by
  cases content with
  | some x =>
    have hx := hcontent x rfl
    have hl : h.Live x := ha.live_of_mem hx
    have hshare := safeStep_share hl fun hs => hs.not_isAttributes_of_mem hx
    have hstore : SafeStep ⟨h.retain x, x ::ₘ held⟩ _ := safeStep_store name
      ((congrFun (h.value?_retain x) d).trans hd)
    have hb := hstore.1.balanced (hshare.1.balanced ha)
    exact .head hshare (.head hstore (safeRun_releaseAll _ hb))
  | none =>
    obtain ⟨x, hx⟩ := hremoved rfl
    have hremove : SafeStep ⟨h, held⟩ _ := safeStep_remove hd hx
    have hb := hremove.1.balanced ha
    rw [← Multiset.singleton_add, ← Multiset.coe_singleton] at hb hremove
    rw [Heap.write, hx]
    exact .head hremove (safeRun_releaseAll [x] hb)

theorem safeRun_spent (n : Nat) : SafeRun ⟨h, held⟩ ⟨h.spent n, held⟩ := by
  induction n with
  | zero =>
    rw [Heap.spent_zero]
  | succ n ih =>
    refine ih.trans ?_
    have hmake : SafeStep ⟨h.spent n, held⟩ ⟨(h.spent n).push (.string []), _⟩ :=
      safeStep_make_of_refs_eq_nil rfl rfl
    have hcount : ((h.spent n).push (.string [])).count ⟨(h.spent n).cells.size⟩ = 1 := by
      rw [Heap.count_push, if_pos rfl]
    have hforget : SafeStep ⟨_, _ ::ₘ held⟩ _ := safeStep_forget (hcount ▸ Nat.one_pos)
    rw [Heap.forget_push_string, Heap.spent_spent] at hforget
    rw [Multiset.coe_nil, Multiset.zero_add] at hforget
    exact .head hmake (.single hforget)

theorem safeRun_withNone : SafeRun ⟨h, held⟩ ⟨h.withNone, held⟩ := by
  rw [Heap.withNone]
  split
  · exact .refl
  · next hn =>
    exact .head (safeStep_make_of_refs_eq_nil rfl rfl)
      (.single (safeStep_keepNone hn (h.value?_push_self _)))

theorem safeRun_withType (t : ObjectType) : SafeRun ⟨h, held⟩ ⟨h.withType t, held⟩ := by
  rw [Heap.withType]
  split
  · exact .refl
  · next ht =>
    exact .head (safeStep_make_of_refs_eq_nil rfl rfl)
      (.single (safeStep_keepType ht (h.value?_push_self _)))

section Builds

variable {operands rs : List Ref}

theorem Balanced.live_of_obtained (ha : Balanced ⟨h, held⟩) (ho : ∀ r ∈ operands, r ∈ held)
    (hr : h.Obtained operands r) : h.Live r := by
  cases hr with
  | operand hr => exact ha.live_of_mem (ho r hr)
  | kept hr =>
    rcases ha.value?_of_mem_kept hr with hv | ⟨t, hv⟩ <;> exact Heap.live_of_value? hv
  | offered hq hr =>
    obtain ⟨v, hv, rfl⟩ := Heap.exists_value?_of_payload? hq
    exact ha.live_of_mem_refs hv (Payload.offered_subset _ hr)

/-- A member is made in three steps: its dictionary is made, the class is shared, and both go
    into the member. -/
theorem safeRun_member (hc : h.HasType c .userClass) : SafeRun ⟨h, held⟩
    ⟨((h.push (.dict .empty)).retain c).push (.member c ⟨h.cells.size⟩),
      ⟨h.cells.size + 1⟩ ::ₘ held⟩ := by
  let d : Ref := ⟨h.cells.size⟩
  let h₁ := h.push (.dict .empty)
  have hd : h₁.value? d = some (.dict .empty) := h.value?_push_self _
  have hne : d ≠ c := fun heq => absurd hc.live.lt_size (heq ▸ Nat.lt_irrefl _)
  have hc₁ : h₁.HasType c .userClass := by
    rwa [Heap.HasType, Heap.value?_push_of_live hc.live]
  have hvalue := h₁.value?_retain c
  have hfits : (h₁.retain c).Fits (.member c d) :=
    (Heap.Fits.congr hvalue).2 ⟨hc₁, _, hd, rfl⟩
  have hcount : (h₁.retain c).count d = 1 := by
    rw [Heap.count_retain hc₁.live, if_neg hne, Heap.count_push, if_pos rfl]
  have hmake : SafeStep ⟨h, held⟩ ⟨h₁, d ::ₘ held⟩ := safeStep_make_of_refs_eq_nil rfl rfl
  have hshare : SafeStep ⟨h₁, d ::ₘ held⟩ ⟨h₁.retain c, c ::ₘ d ::ₘ held⟩ :=
    safeStep_share hc₁.live fun hs => hs.not_isAttributes_of_hasType hc₁ (by decide)
  have hmember : SafeStep ⟨h₁.retain c, ↑[c, d] + held⟩ _ :=
    safeStep_make (v := .member c d) hfits (by rintro _ _ ⟨⟩; exact hcount)
  have hsize : (h₁.retain c).cells.size = h.cells.size + 1 :=
    Array.size_modify.trans (Array.size_push _)
  rw [hsize, ← Multiset.cons_coe, Multiset.cons_add, Multiset.coe_singleton,
    Multiset.singleton_add] at hmember
  exact .head hmake (.head hshare (.single hmember))

/-- What is built is built by safe steps. -/
theorem safeRun_builds (ha : Balanced ⟨h, held⟩) (ho : ∀ r ∈ operands, r ∈ held)
    (hb : h.Builds operands rs h') : SafeRun ⟨h, held⟩ ⟨h', ↑rs + held⟩ := by
  have hmem : ∀ {rs : List Ref}, ∀ r ∈ rs ++ operands, r ∈ (↑rs + held : Multiset Ref) :=
    fun r hr => Multiset.mem_add.2 ((List.mem_append.1 hr).imp Multiset.mem_coe.2 (ho r))
  induction hb with
  | nothing => exact (Multiset.zero_add held).symm ▸ .refl
  | spent _ n ih => exact ih.trans (safeRun_spent n)
  | withNone _ ih => exact ih.trans safeRun_withNone
  | withType _ t ih => exact ih.trans (safeRun_withType t)
  | perm _ hp ih => rwa [← Multiset.coe_eq_coe.2 hp]
  | share _ hr ih =>
    refine ih.tail ?_
    rw [← Multiset.cons_coe, Multiset.cons_add]
    exact safeStep_share ((ih.run.balanced ha).live_of_obtained hmem hr)
      fun hs => hs.not_isAttributes hmem hr
  | make _ hv hfresh ih =>
    rw [← Multiset.coe_add, Multiset.add_assoc] at ih
    rw [← Multiset.cons_coe, Multiset.cons_add]
    exact ih.tail (safeStep_make_of_fresh hv hfresh)
  | member _ hc _ ih =>
    rw [← Multiset.cons_coe, Multiset.cons_add]
    exact ih.trans (safeRun_member hc)

end Builds

end Object.Account

end ScriptCore
