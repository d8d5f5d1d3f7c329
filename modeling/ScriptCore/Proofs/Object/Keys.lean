import Mathlib
import ScriptCore.Proofs.Object.Entry
import ScriptCore.Proofs.Object.Order
import ScriptCore.Proofs.Utf8

/-!
# Keys of dictionaries

A string that is a key stands for the text that its bytes show. Keys that show different texts
are kept apart: what is stored under one is found under it until something else is, or until it
is removed. The bytes of texts are told apart by their texts, but of other bytes some show the
same text, though the strings are not equal.

* `Session.KeysApart`: what holds of the keys of dictionaries.
* `Session.keys_apart`: this holds after any calls.
* `Session.exists_shared_key`: two strings that are not equal, and are the same key.
-/

namespace ScriptCore.Object

namespace Action

variable {h : Heap} {d k : Ref} {entries : NameMap Ref} {bs : Bytes}

theorem perform_subscript (hd : h.value? d = some (.dict entries))
    (hk : h.value? k = some (.string bs)) :
    (subscript d k).perform h = match entries.find? (Utf8.decode bs) with
      | some x => (.ok x, h.retain x)
      | none => (.error (.unknownName (Utf8.decode bs)), h) := by
  rw [subscript, perform_typeOf_bind hd, if_pos rfl, perform_bind_of_ok (perform_key hk),
    perform_bind_of_ok (perform_entries hd)]
  cases hx : entries.find? (Utf8.decode bs) <;> rfl

theorem perform_mappingLength (hd : h.value? d = some (.dict entries)) :
    (mappingLength d).perform h = (.ok entries.names.length, h) := by
  rw [mappingLength, perform_typeOf_bind hd, if_pos rfl, perform_bind_of_ok (perform_entries hd),
    NameMap.names, List.length_map]
  rfl

end Action

namespace Session

open ScriptCore.Object.Action

variable {s : Session} {c : Call} {target : Option String} {d k : Ref} {entries : NameMap Ref}
  {bs : Bytes}

/-! ## What a store leaves as it is -/

theorem store?_storeSubscript {a key : String} {x : Option String} {w : Store}
    (hkey : s.slots.find? key = some k) (hk : s.heap.value? k = some (.string bs))
    (hw : s.store? (.storeSubscript a key x) = some w) : w.name = Utf8.decode bs := by
  rw [store?, hkey] at hw
  obtain ⟨r, -, hw⟩ := Option.bind_eq_some_iff.1 hw
  obtain ⟨k', hk', hw⟩ := Option.bind_eq_some_iff.1 hw
  obtain ⟨o, -, hw⟩ := Option.bind_eq_some_iff.1 hw
  cases hk'
  unfold Heap.keyStore? at hw
  split at hw
  · next hk' =>
    cases hk.symm.trans hk'
    cases hw
    rfl
  · cases hw

theorem find?_of_store (hhost : s.host.IsOrderly) (hs : s.account.Sound)
    (hd : s.heap.value? d = some (.dict entries)) {entries' : NameMap Ref}
    (hd' : (s.perform c target).2.heap.value? d = some (.dict entries'))
    {name : String} (hname : ∀ w, s.store? c = some w → w.name ≠ name) :
    entries'.find? name = entries.find? name := by
  rw [find?_perform hhost hs hd', keep, Heap.under?_eq hd]
  split
  · next w hw => exact if_neg fun heq => hname w hw heq.2
  · rfl

/-- An object that is there before and after a call has its value still, or is a dictionary. -/
theorem value?_of_live (hhost : s.host.IsOrderly) (hs : s.account.Sound) {v : Value}
    (hv : s.heap.value? r = some v) (hr : (s.perform c target).2.heap.Live r) :
    (s.perform c target).2.heap.value? r = some v ∨
      v.type = .dict ∧ (s.perform c target).2.heap.HasType r .dict := by
  obtain ⟨v', hv'⟩ := Heap.live_iff_value?.1 hr
  rcases exists_before hhost hs hv' with ⟨v₀, hv₀, rfl | ⟨es, es', rfl, rfl⟩⟩ | hsize
  · exact .inl (hv.symm.trans hv₀ ▸ hv')
  · cases hv.symm.trans hv₀
    exact .inr ⟨rfl, _, hv', rfl⟩
  · exact absurd hsize (Heap.live_of_value? hv).lt_size.not_ge

/-- What is found under a key does not change where something is stored under another. -/
theorem perform_subscript_of_store (hhost : s.host.IsOrderly) (hs : s.account.Sound)
    (hd : s.heap.HasType d .dict) (hk : s.heap.value? k = some (.string bs)) (hd' : (s.perform c target).2.heap.Live d)
    (hk' : (s.perform c target).2.heap.Live k)
    (hname : ∀ w, s.store? c = some w → w.name ≠ Utf8.decode bs) :
    ((subscript d k).perform (s.perform c target).2.heap).1 =
      ((subscript d k).perform s.heap).1 := by
  have hs' := (safeRun_perform hhost hs c target).sound hs
  obtain ⟨entries, hd⟩ := hd.exists_entries hs.paired
  -- a call changes no string, and a dictionary only into another
  have hk' : (s.perform c target).2.heap.value? k = some (.string bs) :=
    (value?_of_live hhost hs hk hk').resolve_right nofun
  have hd' : (s.perform c target).2.heap.HasType d .dict :=
    (value?_of_live hhost hs hd hd').elim (fun h => ⟨_, h, rfl⟩) And.right
  obtain ⟨entries', hd'⟩ := hd'.exists_entries hs'.paired
  rw [Action.perform_subscript hd hk, Action.perform_subscript hd' hk',
    find?_of_store hhost hs hd hd' hname]
  split <;> rfl

/-! ## Keys after any calls -/

/-- What holds of the keys of a session's dictionaries, where `last` is what was last stored
    under a name of a dictionary, and not removed since. -/
structure KeysApart (s : Session) (last : Ref → String → Option Ref) : Prop where
  /-- Under a key is what was last stored under the text that it shows. -/
  perform_subscript : ∀ d k entries bs, s.heap.value? d = some (.dict entries) →
    s.heap.value? k = some (.string bs) →
    (subscript d k).perform s.heap = match last d (Utf8.decode bs) with
      | some x => (.ok x, s.heap.retain x)
      | none => (.error (.unknownName (Utf8.decode bs)), s.heap)
  /-- A store or a removal under a key does not change what is under one that shows another
      text. -/
  perform_subscript_storeSubscript : ∀ a key x target k₁ bs₁ d k₂ bs₂,
    s.slots.find? key = some k₁ → s.heap.value? k₁ = some (.string bs₁) →
    s.heap.HasType d .dict → s.heap.value? k₂ = some (.string bs₂) →
    Utf8.decode bs₁ ≠ Utf8.decode bs₂ →
    let h' := (s.perform (.storeSubscript a key x) target).2.heap
    h'.Live d → h'.Live k₂ →
    ((subscript d k₂).perform h').1 = ((subscript d k₂).perform s.heap).1
  /-- The length is the number of texts under which something is. -/
  perform_mappingLength : ∀ d entries, s.heap.value? d = some (.dict entries) →
    ∃ names : List String, names.Nodup ∧ (∀ name, name ∈ names ↔ last d name ≠ none) ∧
      (mappingLength d).perform s.heap = (.ok names.length, s.heap)
  /-- Strings that are equal show the same text. -/
  decode_eq_of_compare : ∀ k₁ k₂ bs₁ bs₂, s.heap.value? k₁ = some (.string bs₁) →
    s.heap.value? k₂ = some (.string bs₂) → s.heap.compare k₁ k₂ = .ok .eq →
    Utf8.decode bs₁ = Utf8.decode bs₂
  /-- The bytes of texts are equal if they show the same text. -/
  compare_of_decode_eq : ∀ k₁ k₂ t₁ t₂, s.heap.value? k₁ = some (.string (.ofString t₁)) →
    s.heap.value? k₂ = some (.string (.ofString t₂)) →
    Utf8.decode (.ofString t₁) = Utf8.decode (.ofString t₂) → s.heap.compare k₁ k₂ = .ok .eq

/-- After any calls, the keys of dictionaries are kept apart by the texts that they show. -/
theorem keys_apart {host : Host} (hhost : host.IsOrderly) (calls : List (Call × Option String)) :
    ((start host).performAll calls).KeysApart fun d name =>
      lastKept d name (start host) calls none := by
  have hs := sound_performAll hhost calls
  have hhost' := isOrderly_performAll hhost calls
  have hfind : ∀ {d entries},
      ((start host).performAll calls).heap.value? d = some (.dict entries) →
      ∀ name, entries.find? name = lastKept d name (start host) calls none := fun hd name =>
    find?_performAll (s := start host) hhost (sound_start host) hd
  constructor
  case perform_subscript =>
    intro d k entries bs hd hk
    rw [Action.perform_subscript hd hk, hfind hd]
  case perform_subscript_storeSubscript =>
    intro a key x target k₁ bs₁ d k₂ bs₂ hkey hk₁ hd hk₂ hne h' hd' hk₂'
    refine perform_subscript_of_store hhost' hs hd hk₂ hd' hk₂' fun w hw => ?_
    rwa [store?_storeSubscript hkey hk₁ hw]
  case perform_mappingLength =>
    intro d entries hd
    refine ⟨entries.names, entries.nodup_names, fun name => ?_, Action.perform_mappingLength hd⟩
    rw [NameMap.mem_names_iff, hfind hd]
  case decode_eq_of_compare =>
    intro k₁ k₂ bs₁ bs₂ hk₁ hk₂ heq
    rw [Heap.compare_strings hk₁ hk₂, Except.ok.injEq, Std.compare_eq_iff_eq] at heq
    rw [heq]
  case compare_of_decode_eq =>
    intro k₁ k₂ t₁ t₂ hk₁ hk₂ heq
    rw [Utf8.decode_ofString, Utf8.decode_ofString] at heq
    rw [Heap.compare_strings hk₁ hk₂, heq]
    exact congrArg Except.ok Std.ReflCmp.compare_self

/-- A dictionary with something under the first of four strings, the last two of which show
    nothing but a replacement character. -/
def fourStrings : List (Call × Option String) :=
  [(.make .dict, some "d"), (.make (.string [97]), some "a"), (.make (.string [98]), some "b"),
    (.make (.string [0x80]), some "u"), (.make (.string [0x81]), some "v"),
    (.make (.integer 1), some "x"), (.storeSubscript "d" "a" (some "x"), none)]

/-- What is stored under the third string is not found under the second, and the first has what
    it had. -/
theorem keys_apart_of_store :
    let s := (start .basic).performAll fourStrings
    let h' := (s.perform (.storeSubscript "d" "u" (some "x")) none).2.heap
    (subscript ⟨0⟩ ⟨1⟩).perform s.heap = (.ok ⟨5⟩, s.heap.retain ⟨5⟩) ∧
      ((subscript ⟨0⟩ ⟨1⟩).perform h').1 = .ok ⟨5⟩ ∧
      (subscript ⟨0⟩ ⟨2⟩).perform s.heap = (.error (.unknownName "b"), s.heap) ∧
      ((subscript ⟨0⟩ ⟨2⟩).perform h').1 = .error (.unknownName "b") := by
  intro s h'
  obtain ⟨ht, ha, hb, hu, hslot, hlastA, hlastB, hd', ha', hb'⟩ :
      (((start .basic).performAll fourStrings).heap.value? ⟨0⟩).map Value.type = some .dict ∧
      ((start .basic).performAll fourStrings).heap.value? ⟨1⟩ = some (.string [97]) ∧
      ((start .basic).performAll fourStrings).heap.value? ⟨2⟩ = some (.string [98]) ∧
      ((start .basic).performAll fourStrings).heap.value? ⟨3⟩ = some (.string [0x80]) ∧
      ((start .basic).performAll fourStrings).slots.find? "u" = some ⟨3⟩ ∧
      lastKept ⟨0⟩ (Utf8.decode [97]) (start .basic) fourStrings none = some ⟨5⟩ ∧
      lastKept ⟨0⟩ (Utf8.decode [98]) (start .basic) fourStrings none = none ∧
      ((((start .basic).performAll fourStrings).perform (.storeSubscript "d" "u" (some "x"))
        none).2.heap.value? ⟨0⟩).isSome ∧
      ((((start .basic).performAll fourStrings).perform (.storeSubscript "d" "u" (some "x"))
        none).2.heap.value? ⟨1⟩).isSome ∧
      ((((start .basic).performAll fourStrings).perform (.storeSubscript "d" "u" (some "x"))
        none).2.heap.value? ⟨2⟩).isSome := by cbv
  have hlive : ∀ {r}, (h'.value? r).isSome → h'.Live r := fun hr =>
    Heap.live_iff_value?.2 (Option.isSome_iff_exists.1 hr)
  obtain ⟨hfound, hapart, -, -, -⟩ := keys_apart Host.isOrderly_basic fourStrings
  have hd : s.heap.HasType ⟨0⟩ .dict := Option.map_eq_some_iff.1 ht
  obtain ⟨entries, hentries⟩ :=
    hd.exists_entries (sound_performAll Host.isOrderly_basic fourStrings).paired
  have hfoundA := hfound ⟨0⟩ ⟨1⟩ entries _ hentries ha
  have hfoundB := hfound ⟨0⟩ ⟨2⟩ entries _ hentries hb
  rw [hlastA] at hfoundA
  rw [hlastB] at hfoundB
  have hapartA := hapart "d" "u" (some "x") none _ _ _ _ _ hslot hu hd ha (by decide)
    (hlive hd') (hlive ha')
  have hapartB := hapart "d" "u" (some "x") none _ _ _ _ _ hslot hu hd hb (by decide)
    (hlive hd') (hlive hb')
  exact ⟨hfoundA, hapartA.trans (congrArg Prod.fst hfoundA), hfoundB,
    hapartB.trans (congrArg Prod.fst hfoundB)⟩

/-- The last two strings are not equal, but what is stored under one is found under the other. -/
theorem exists_shared_key :
    let s := (start .basic).performAll fourStrings
    let h' := (s.perform (.storeSubscript "d" "u" (some "x")) none).2.heap
    s.heap.value? ⟨3⟩ = some (.string [0x80]) ∧ s.heap.value? ⟨4⟩ = some (.string [0x81]) ∧
      s.slots.find? "u" = some ⟨3⟩ ∧ s.slots.find? "x" = some ⟨5⟩ ∧
      s.heap.compare ⟨3⟩ ⟨4⟩ = .ok .lt ∧
      ((subscript ⟨0⟩ ⟨4⟩).perform s.heap).1 = .error (.unknownName "\uFFFD") ∧
      ((subscript ⟨0⟩ ⟨4⟩).perform h').1 = .ok ⟨5⟩ := by
  cbv

end Session

end ScriptCore.Object
