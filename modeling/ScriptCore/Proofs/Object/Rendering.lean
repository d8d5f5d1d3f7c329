import ScriptCore.Proofs.Object.Cycle
import ScriptCore.Proofs.Object.Texts

/-!
# Objects are told apart by their texts

An object is *plain* if it is built from None, integers, strings, tuples and
dictionaries, none of which reaches itself. Two plain objects are *alike* if they have
the same structure.

* `Action.exists_shows`: a plain object can be shown. While the text is put together,
  strings are made and freed; the values of all other objects stay.
* `Shows.alike`, `Alike.shows_eq`: the texts of two objects are equal if and only if
  the objects are alike.
* `Session.repr_eq_iff_alike`: what this says of objects made by any calls.
-/

namespace ScriptCore

open Object Relation

/-! ## Plain values -/

/-- Whether objects of a type can be part of a plain object. -/
def ObjectType.isPlain : ObjectType → Bool
  | none | integer | string | tuple | dict => true
  | _ => false

namespace Object

variable {v : Value} {f f' : Ref → Bytes} {entries entries' : NameMap Ref}

/-- The values of plain objects. -/
inductive Value.IsPlain : Value → Prop
  | none : IsPlain .none
  | integer (n : Int64) : IsPlain (.integer n)
  | string (bs : Bytes) : IsPlain (.string bs)
  | tuple (items : List Ref) : IsPlain (.tuple items)
  | dict (entries : NameMap Ref) : IsPlain (.dict entries)

theorem Value.isPlain_of_type (hs : v.isSuited = true) (htype : v.type.isPlain = true) :
    v.IsPlain := by
  cases v with
  | none => exact .none
  | integer => exact .integer _
  | string => exact .string _
  | tuple => exact .tuple _
  | dict => exact .dict _
  | unsuited t p hp => exact absurd hs (Bool.eq_false_iff.1 hp)
  | _ => cases htype

/-- The text of a plain object, given the texts of the objects in it. -/
def Payload.textBy (f : Ref → Bytes) : Payload → Bytes
  | none => .ofString "None"
  | integer n => .ofString (toString n.toInt)
  | string bs => Quoted.quote bs
  | tuple items => tupleText (items.map f)
  | dict entries => dictText entries.names (entries.values.map f)
  | _ => []

/-- The entries of a dictionary, with texts in place of the values. -/
def shownEntries (entries : NameMap Ref) (f : Ref → Bytes) : List (String × Bytes) :=
  entries.entries.map fun e => (e.1, f e.2)

theorem dictText_shownEntries (entries : NameMap Ref) (f : Ref → Bytes) :
    dictText entries.names (entries.values.map f) =
      dictText ((shownEntries entries f).map (·.1)) ((shownEntries entries f).map (·.2)) := by
  rw [NameMap.names, NameMap.values, shownEntries, List.map_map, List.map_map, List.map_map]
  rfl

theorem textOf_shownEntries (hf : ∀ x ∈ entries.values, TextOf (kind (f x)) (f x)) :
    ∀ e ∈ shownEntries entries f, TextOf (kind e.2) e.2 :=
  List.forall_mem_map.2 fun _ he => hf _ (List.mem_map_of_mem he)

theorem dictText_shownEntries_inj (hf : ∀ x ∈ entries.values, TextOf (kind (f x)) (f x))
    (hf' : ∀ x ∈ entries'.values, TextOf (kind (f' x)) (f' x))
    (h : dictText entries.names (entries.values.map f) =
      dictText entries'.names (entries'.values.map f')) :
    shownEntries entries f = shownEntries entries' f' := by
  rw [dictText_shownEntries, dictText_shownEntries] at h
  exact dictText_inj (textOf_shownEntries hf) (textOf_shownEntries hf') h

theorem Value.IsPlain.textOf_textBy (hv : v.IsPlain)
    (hf : ∀ x ∈ v.refs, TextOf (kind (f x)) (f x)) : TextOf v.type (v.payload.textBy f) := by
  cases hv with
  | none => exact .none
  | integer n => exact .integer n
  | string bs => exact .string bs
  | tuple items => exact .tuple (List.forall_mem_map.2 hf)
  | dict entries =>
    rw [Payload.textBy, dictText_shownEntries]
    exact .dict (textOf_shownEntries hf)

theorem Value.IsPlain.kind_textBy (hv : v.IsPlain)
    (hf : ∀ x ∈ v.refs, TextOf (kind (f x)) (f x)) : kind (v.payload.textBy f) = v.type := by
  have hk := (hv.textOf_textBy hf).kind_append []
  rwa [List.append_nil] at hk

end Object

/-! ## Plain objects -/

namespace Heap

variable {h h' : Heap} {a b p r x : Ref} {s s' : Bytes} {held : Multiset Ref}

/-- Whether an object is built from None, integers, strings, tuples and dictionaries,
    where no dictionary reaches itself. -/
structure Plain (h : Heap) (r : Ref) : Prop where
  type : ∀ x, h.Reaches r x → ∃ v, h.value? x = some v ∧ v.type.isPlain = true
  not_self_reaching : ∀ d entries, h.Reaches r d → h.value? d = some (.dict entries) →
    ¬h.OnCycle d

/-- Whether two objects have the same structure: they are of the same type, and are the
    same integer, strings of the same bytes, tuples of alike items in the same order, or
    dictionaries with the same names and alike values. -/
inductive Alike (h h' : Heap) : Ref → Ref → Prop
  | none {a b : Ref} (ha : h.value? a = some .none) (hb : h'.value? b = some .none) : Alike h h' a b
  | integer {a b : Ref} {n : Int64} (ha : h.value? a = some (.integer n))
    (hb : h'.value? b = some (.integer n)) : Alike h h' a b
  | string {a b : Ref} {bs : Bytes} (ha : h.value? a = some (.string bs))
    (hb : h'.value? b = some (.string bs)) : Alike h h' a b
  | tuple {a b : Ref} {items items' : List Ref} (ha : h.value? a = some (.tuple items))
    (hb : h'.value? b = some (.tuple items')) (hlength : items.length = items'.length)
    (hitems : ∀ i ∈ items.zip items', Alike h h' i.1 i.2) : Alike h h' a b
  | dict {a b : Ref} {entries entries' : NameMap Ref} (ha : h.value? a = some (.dict entries))
    (hb : h'.value? b = some (.dict entries')) (hnames : entries.names = entries'.names)
    (hvalues : ∀ name x x', entries.find? name = some x → entries'.find? name = some x' →
      Alike h h' x x') : Alike h h' a b

/-- How plain objects are shown: by a text that is put together from a text for each
    object in the value. -/
inductive Shows (h : Heap) : Ref → Bytes → Prop
  | intro {r : Ref} {v : Value} {f : Ref → Bytes} (hv : h.value? r = some v)
    (hplain : v.IsPlain) (hrefs : ∀ x ∈ v.refs, Shows h x (f x)) :
    Shows h r (v.payload.textBy f)

/-! ### Texts and structure -/

theorem Shows.textOf (hs : h.Shows r s) : TextOf (kind s) s := by
  induction hs with
  | intro _ hplain _ ih => exact hplain.kind_textBy ih ▸ hplain.textOf_textBy ih

/-- Objects that are shown by the same text are alike. -/
theorem Shows.alike (hs : h.Shows a s) (hs' : h'.Shows b s') (heq : s = s') : h.Alike h' a b := by
  induction hs generalizing b s' with
  | @intro _ v f ha hplain hrefs ih =>
    cases hs' with
    | @intro _ v' f' hb hplain' hrefs' =>
      have hf : ∀ x ∈ v.refs, TextOf (kind (f x)) (f x) := fun x hx => (hrefs x hx).textOf
      have hf' : ∀ x ∈ v'.refs, TextOf (kind (f' x)) (f' x) := fun x hx => (hrefs' x hx).textOf
      -- the first byte tells the type, so the values are of the same one
      have htypes : v.type = v'.type :=
        (hplain.kind_textBy hf).symm.trans (heq ▸ hplain'.kind_textBy hf')
      cases hplain with
      | none =>
        cases hplain' with
        | none => exact .none ha hb
        | _ => cases htypes
      | integer n =>
        cases hplain' with
        | integer n' =>
          obtain rfl := Int64.toInt_inj.1 (Numeral.ofString_inj heq)
          exact .integer ha hb
        | _ => cases htypes
      | string bs =>
        cases hplain' with
        | string bs' =>
          obtain rfl := Quoted.quote_inj.1 heq
          exact .string ha hb
        | _ => cases htypes
      | tuple items =>
        cases hplain' with
        | tuple items' =>
          have hmap := tupleText_inj (List.forall_mem_map.2 hf) (List.forall_mem_map.2 hf') heq
          obtain ⟨hlength, htext⟩ := NameMap.map_eq_map_iff_zip.1 hmap
          refine .tuple ha hb hlength fun i hi => ?_
          obtain ⟨hx, hx'⟩ := List.of_mem_zip hi
          exact ih i.1 hx (hrefs' i.2 hx') (htext i hi)
        | _ => cases htypes
      | dict entries =>
        cases hplain' with
        | dict entries' =>
          have hshown := dictText_shownEntries_inj hf hf' heq
          obtain ⟨hnames, htext⟩ := NameMap.map_entries_eq_iff.1 hshown
          refine .dict ha hb hnames fun name x x' hx hx' => ?_
          exact ih x (NameMap.mem_values_of_find? hx) (hrefs' x' (NameMap.mem_values_of_find? hx'))
            (htext name x x' hx hx')
        | _ => cases htypes

/-- Objects that are alike are shown by the same text. -/
theorem Alike.shows_eq (hab : h.Alike h' a b) (hs : h.Shows a s) (hs' : h'.Shows b s') :
    s = s' := by
  induction hab generalizing s s' with
  | none ha hb | integer ha hb | string ha hb =>
    obtain ⟨hv, -, -⟩ := hs
    obtain ⟨hv', -, -⟩ := hs'
    cases ha.symm.trans hv
    cases hb.symm.trans hv'
    rfl
  | tuple ha hb hlength _ ih =>
    obtain ⟨hv, -, hrefs⟩ := hs
    obtain ⟨hv', -, hrefs'⟩ := hs'
    cases ha.symm.trans hv
    cases hb.symm.trans hv'
    refine congrArg tupleText (NameMap.map_eq_map_iff_zip.2 ⟨hlength, fun i hi => ?_⟩)
    obtain ⟨hx, hx'⟩ := List.of_mem_zip hi
    exact ih i hi (hrefs i.1 hx) (hrefs' i.2 hx')
  | dict ha hb hnames _ ih =>
    obtain ⟨hv, -, hrefs⟩ := hs
    obtain ⟨hv', -, hrefs'⟩ := hs'
    cases ha.symm.trans hv
    cases hb.symm.trans hv'
    have hshown := NameMap.map_entries_eq_iff.2 ⟨hnames, fun name x x' hx hx' =>
      ih name x x' hx hx' (hrefs x (NameMap.mem_values_of_find? hx))
        (hrefs' x' (NameMap.mem_values_of_find? hx'))⟩
    rw [Payload.textBy, Payload.textBy, dictText_shownEntries, shownEntries, hshown,
      dictText_shownEntries, shownEntries]

/-! ### Plain objects are finite -/

theorem Plain.of_mem {v : Value} (hr : h.Plain r) (hv : h.value? r = some v) (hx : x ∈ v.refs) :
    h.Plain x where
  type y hy := hr.type y (.head ⟨v, hv, hx⟩ hy)
  not_self_reaching d entries hd := hr.not_self_reaching d entries (.head ⟨v, hv, hx⟩ hd)

/-- No plain object lies on a cycle: there is a dictionary on every cycle. -/
theorem Plain.not_onCycle (hr : h.Plain r) (ha : Account.Balanced ⟨h, held⟩) : ¬h.OnCycle r := by
  intro hcycle
  obtain ⟨d, entries, hd, hrd, hdr⟩ | hlt := ha.exists_dict_or_lt hcycle
  · exact hr.not_self_reaching d entries hrd hd (hdr.trans_left hrd)
  · exact lt_irrefl _ hlt

/-- Where all objects only refer to older ones, none reaches itself. -/
theorem not_onCycle_of_older (hold : ∀ i < h.cells.size, ∀ v ∈ h.value? ⟨i⟩,
    ∀ x ∈ v.refs, x.index < i) (r : Ref) : ¬h.OnCycle r := by
  have hlt : ∀ p x, TransGen h.Points p x → x.index < p.index := fun p x hpx =>
    hpx.trans_induction_on (fun ⟨v, hv, hx⟩ => hold _ (live_of_value? hv).lt_size v hv _ hx)
      fun _ _ h₁ h₂ => h₂.trans h₁
  exact fun hr => lt_irrefl _ (hlt r r hr)

/-- Objects of plain types that only refer to older ones are plain. -/
theorem plain_of_older (hr : h.Live r) (hold : ∀ i < h.cells.size, ∀ v ∈ h.value? ⟨i⟩,
    v.type.isPlain = true ∧ ∀ x ∈ v.refs, (h.cell? x).isSome = true ∧ x.index < i) :
    h.Plain r := by
  have holder : ∀ i < h.cells.size, ∀ v ∈ h.value? ⟨i⟩, ∀ x ∈ v.refs, x.index < i :=
    fun i hi v hv x hx => ((hold i hi v hv).2 x hx).2
  refine ⟨fun x hx => ?_, fun d _ _ _ => not_onCycle_of_older holder d⟩
  have hlive : h.Live x := by
    rcases hx.cases_tail with rfl | ⟨p, -, hpx⟩
    · exact hr
    · have hp := hpx.live.lt_size
      obtain ⟨v, hv, hx⟩ := hpx
      exact Option.isSome_iff_exists.1 ((hold p.index hp v hv).2 x hx).1
  obtain ⟨c, hc⟩ := hlive
  have hv := value?_of_cell? hc
  exact ⟨c.value, hv, (hold x.index (lt_size_of_cell? hc) c.value hv).1⟩

open Classical in
/-- The objects that are reached from an object. -/
noncomputable def span (h : Heap) (r : Ref) : Finset (Fin h.cells.size) :=
  {i | h.Reaches r ⟨i⟩}

theorem mem_span {i : Fin h.cells.size} : i ∈ h.span r ↔ h.Reaches r ⟨i⟩ := by
  simp [span]

theorem card_span_pos (hr : h.Live r) : 0 < (h.span r).card :=
  Finset.card_pos.2 ⟨⟨r.index, hr.lt_size⟩, mem_span.2 .refl⟩

theorem card_span_le (h : Heap) (r : Ref) : (h.span r).card ≤ h.cells.size :=
  (Finset.card_le_univ _).trans_eq (Fintype.card_fin _)

/-- What the value of an object refers to reaches less, if that is on no cycle. -/
theorem card_span_lt {v : Value} (hv : h.value? r = some v) (hx : x ∈ v.refs)
    (hcycle : ¬h.OnCycle r) : (h.span x).card < (h.span r).card := by
  have hpoints : h.Points r x := ⟨v, hv, hx⟩
  refine Finset.card_lt_card (Finset.ssubset_iff_of_subset ?_ |>.2 ?_)
  · exact fun i hi => mem_span.2 (.head hpoints (mem_span.1 hi))
  · refine ⟨⟨r.index, hpoints.live.lt_size⟩, mem_span.2 .refl, fun hr => hcycle ?_⟩
    exact .head' hpoints (mem_span.1 hr)

end Heap

/-! ## Putting texts together -/

namespace Object.Action

variable {α β γ : Type} {h : Heap} {r : Ref}

/-- Performed on a heap, an action answers `v` and leaves the values of all objects. -/
def Returns (h : Heap) (x : Action α) (v : α) : Prop :=
  ∃ h', x.perform h = (.ok v, h') ∧ h'.value? = h.value?

theorem Returns.pure (v : α) : Returns h (pure v) v :=
  ⟨h, rfl, rfl⟩

theorem Returns.bind {x : Action α} {f : α → Action β} {v : α} {w : β} (hx : Returns h x v)
    (hf : ∀ h', h'.value? = h.value? → Returns h' (f v) w) : Returns h (x >>= f) w := by
  obtain ⟨h₁, hp, hh₁⟩ := hx
  obtain ⟨h₂, hq, hh₂⟩ := hf h₁ hh₁
  exact ⟨h₂, by rw [perform_bind, hp]; exact hq, hh₂.trans hh₁⟩

theorem Returns.of_eq {x : Action α} {v : α} (hp : x.perform h = (.ok v, h)) : Returns h x v :=
  ⟨h, hp, rfl⟩

theorem Returns.mapM {x : γ → Action α} {f : γ → α} (is : List γ)
    (hx : ∀ i ∈ is, ∀ h', h'.value? = h.value? → Returns h' (x i) (f i)) :
    Returns h (is.mapM x) (is.map f) := by
  induction is generalizing h with
  | nil => exact .pure []
  | cons i is ih =>
    obtain ⟨hi, his⟩ := List.forall_mem_cons.1 hx
    rw [List.mapM_cons]
    refine (hi h rfl).bind fun h₁ hh₁ => ?_
    exact (ih fun j hj h₂ hh₂ => his j hj h₂ (hh₂.trans hh₁)).bind fun _ _ => .pure _

/-- The objects that a plain object reaches bound the nested steps by which it is shown. -/
theorem exists_shows {held : Multiset Ref} (ha : Account.Sound ⟨h, held⟩) (n : Nat)
    (hr : h.Plain r) (hn : (h.span r).card ≤ n) :
    ∃ text, h.Shows r text ∧
      ∀ h', h'.value? = h.value? → Returns h' (textTo n r) text := by
  obtain ⟨v, hv, htype⟩ := hr.type r .refl
  induction n generalizing r v with
  | zero =>
    exact absurd (Heap.card_span_pos (Heap.live_of_value? hv)) (Nat.not_lt.2 hn)
  | succ n ih =>
    have hrefs : ∀ x ∈ v.refs, ∃ text, h.Shows x text ∧
        ∀ h', h'.value? = h.value? → Returns h' (textTo n x) text := fun x hx => by
      have hlt := Heap.card_span_lt hv hx (hr.not_onCycle ha.toBalanced)
      obtain ⟨w, hw, hwtype⟩ := (hr.of_mem hv hx).type x .refl
      exact ih (hr.of_mem hv hx) (Nat.le_of_lt_succ (hlt.trans_le hn)) w hw hwtype
    choose! f hf using hrefs
    have hitem : ∀ x ∈ v.refs, ∀ h', h'.value? = h.value? → Returns h' (itemText n x) (f x) :=
      fun x hx h' hh => ((hf x hx).2 h' hh).bind fun h₁ _ =>
        ⟨_, perform_string (f x) h₁, h₁.value?_spent 1⟩
    have hplain := Value.isPlain_of_type (ha.paired r v hv) htype
    refine ⟨v.payload.textBy f, .intro hv hplain fun x hx => (hf x hx).1, fun h' hh => ?_⟩
    replace hv : h'.value? r = some v := hh ▸ hv
    refine (Returns.of_eq (perform_typeOf hv)).bind fun h₁ hh₁ => ?_
    replace hv : h₁.value? r = some v := hh₁ ▸ hv
    replace hh : h₁.value? = h.value? := hh₁.trans hh
    cases hplain with
    | none => exact .pure _
    | integer n => exact (Returns.of_eq (perform_integer hv)).bind fun _ _ => .pure _
    | string bs => exact (Returns.of_eq (perform_bytes hv)).bind fun _ _ => .pure _
    | tuple is =>
      refine (Returns.of_eq (perform_items hv)).bind fun h₂ hh₂ => ?_
      exact (Returns.mapM is fun x hx h₃ hh₃ =>
        hitem x hx h₃ (hh₃.trans (hh₂.trans hh))).bind fun _ _ => .pure _
    | dict es =>
      refine (Returns.of_eq (perform_entries hv)).bind fun h₂ hh₂ => ?_
      exact (Returns.mapM es.values fun x hx h₃ hh₃ =>
        hitem x hx h₃ (hh₃.trans (hh₂.trans hh))).bind fun _ _ => .pure _

/-- Whether `repr` succeeds for an object, and answers with a string of the given bytes. -/
def HasRepr (h : Heap) (r : Ref) (text : Bytes) : Prop :=
  ∃ x h', (repr r).perform h = (.ok x, h') ∧ h'.value? x = some (.string text)

/-- A plain object has a text. -/
theorem exists_repr {held : Multiset Ref} (ha : Account.Sound ⟨h, held⟩) (hr : h.Plain r) :
    ∃ text, HasRepr h r text ∧ h.Shows r text := by
  obtain ⟨text, hs, htext⟩ := exists_shows ha h.depth hr
    ((h.card_span_le r).trans (Nat.le_succ _))
  obtain ⟨h₁, hp, -⟩ := htext h rfl
  have halloc : h₁.alloc (.string text) = (⟨h₁.cells.size⟩, h₁.push (.string text)) :=
    Heap.alloc_eq h₁ _
  refine ⟨text, ⟨⟨h₁.cells.size⟩, h₁.push (.string text), ?_, ?_⟩, hs⟩
  · have htext' : (Action.text r).perform h = (.ok text, h₁) := hp
    rw [repr, perform_bind, htext']
    exact congrArg (Prod.map Except.ok id) halloc
  · rw [Heap.value?, Heap.cell?_push, if_pos rfl]
    rfl

end Object.Action

namespace Object.Session

open ScriptCore.Object.Action

/-- Objects that are built, by any calls, from None, integers, strings, tuples and
    dictionaries that do not reach themselves can be shown, and what `repr` says of two of
    them is equal if and only if they have the same structure. -/
theorem repr_eq_iff_alike {host host' : Host} (hhost : host.IsOrderly) (hhost' : host'.IsOrderly)
    (calls calls' : List (Call × Option String)) {a b : Ref}
    (ha : ((start host).performAll calls).heap.Plain a)
    (hb : ((start host').performAll calls').heap.Plain b) :
    let h := ((start host).performAll calls).heap
    let h' := ((start host').performAll calls').heap
    ∃ text text', HasRepr h a text ∧ HasRepr h' b text' ∧ (text = text' ↔ h.Alike h' a b) := by
  intro h h'
  obtain ⟨text, ht, hs⟩ := exists_repr (sound_performAll hhost calls) ha
  obtain ⟨text', ht', hs'⟩ := exists_repr (sound_performAll hhost' calls') hb
  exact ⟨text, text', ht, ht', hs.alike hs', fun hab => hab.shows_eq hs hs'⟩

/-- Two dictionaries that hold a tuple of an integer, in two sessions. -/
theorem repr_eq_iff_alike_of_dict :
    let build : List (Call × Option String) := [(.make (.integer 5), some "x"),
      (.newTuple ["x"], some "t"), (.make .dict, some "d"),
      (.binary (.dictInsert "k") "d" "t", none)]
    let h := ((start .basic).performAll build).heap
    let h' := ((start .basic).performAll ((.make (.string [97]), some "s") :: build)).heap
    h.Plain ⟨2⟩ ∧ h'.Plain ⟨3⟩ ∧ h.Alike h' ⟨2⟩ ⟨3⟩ ∧
      ∃ text, HasRepr h ⟨2⟩ text ∧ HasRepr h' ⟨3⟩ text := by
  intro build h h'
  have ha : h.Plain ⟨2⟩ := Heap.plain_of_older ⟨_, rfl⟩ (by decide)
  have hb : h'.Plain ⟨3⟩ := Heap.plain_of_older ⟨_, rfl⟩ (by decide)
  have hab : h.Alike h' ⟨2⟩ ⟨3⟩ := by
    refine .dict rfl rfl rfl fun name x x' hx hx' => ?_
    obtain rfl := List.mem_singleton.1 (NameMap.mem_values_of_find? hx)
    obtain rfl := List.mem_singleton.1 (NameMap.mem_values_of_find? hx')
    refine .tuple rfl rfl rfl fun i hi => ?_
    obtain rfl := List.mem_singleton.1 hi
    exact .integer rfl rfl
  obtain ⟨text, text', ht, ht', heq⟩ := 
    repr_eq_iff_alike Host.isOrderly_basic Host.isOrderly_basic _ _ ha hb
  exact ⟨ha, hb, hab, text, ht, heq.2 hab ▸ ht'⟩

end Object.Session

end ScriptCore
