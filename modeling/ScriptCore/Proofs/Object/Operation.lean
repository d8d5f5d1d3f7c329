import ScriptCore.Proofs.Object.Host

/-!
# What operations do

An operation on objects reads them, or hands out a reference in the end, whatever the objects
are. What it comes by is among its operands, kept by the heap, or offered by a value.

* `Action.gives_*`, `Action.finds_*`: the operations that answer with a reference.
* `Action.perform_print`: printing makes and frees objects, and tells its error.
* `Action.perform_dictAssign`: a store or a removal writes to one dictionary, where there is
  one, and something under the name if it is to be removed.
-/

namespace ScriptCore.Object.Action

variable {α : Type} {h : Heap} {operands : List Ref} {held : Multiset Ref} {r x : Ref}
  {name : String}

/-! ## Dictionaries -/

theorem finds_dictLookup : Finds h operands (dictLookup r name) :=
  reads_entries.bind fun _ hd =>
    finds_share? fun _ hx => .offered hd (NameMap.mem_values_of_find? hx)

theorem reads_key : Reads h (key r) fun _ => True := by
  refine reads_typeOf.trans fun t _ => ?_
  split
  · exact reads_bytes.trans fun _ _ => .pure trivial
  · exact .throw _

theorem perform_key {bs : Bytes} (hv : h.value? r = some (.string bs)) :
    (key r).perform h = (.ok (Utf8.decode bs), h) :=
  (perform_typeOf_bind hv).trans (perform_bind_of_ok (perform_bytes hv))

theorem perform_key_of_ne {v : Value} (hv : h.value? r = some v) (ht : v.type ≠ .string) :
    (key r).perform h = (.error .keyNotString, h) := by
  rw [key, perform_typeOf_bind hv, if_neg ht]
  rfl

theorem exists_perform_key_eq (hh : h.Paired) (hr : ∀ bs, h.value? r ≠ some (.string bs)) :
    ∃ e, (key r).perform h = (.error e, h) := by
  cases hv : h.value? r with
  | none => exact ⟨_, perform_typeOf_bind_of_none hv⟩
  | some v =>
    refine ⟨_, perform_key_of_ne hv fun ht => ?_⟩
    have hs := hh r v hv
    cases v with
    | string bs => exact hr bs hv
    | unsuited t p hp => exact absurd hs (Bool.eq_false_iff.1 hp)
    | _ => cases ht

theorem reads_mappingLength : Reads h (mappingLength r) fun _ => True := by
  refine reads_typeOf.trans fun t _ => ?_
  split
  · exact reads_entries.trans fun _ _ => .pure trivial
  · split
    · exact .pure trivial
    · exact .throw _

theorem gives_subscript {k : Ref} (hk : k ∈ operands) : Gives h operands (subscript r k) := by
  refine reads_typeOf.bind fun t _ => ?_
  split
  · refine reads_key.bind fun name _ => reads_entries.bind fun es hd => ?_
    split
    · next x hf => exact gives_share (.offered hd (NameMap.mem_values_of_find? hf))
    · exact .throw _
  · split
    · exact gives_share (.operand hk)
    · exact .throw _

/-! ## Functions and native methods -/

theorem gives_functionCode : Gives h operands (functionCode r) :=
  reads_function.bind fun _ hf => gives_share (.offered hf List.mem_cons_self)

theorem gives_functionGlobals : Gives h operands (functionGlobals r) :=
  reads_function.bind fun _ hf => gives_share (.offered hf (List.mem_cons_of_mem _ List.mem_cons_self))

theorem gives_functionAttribute : Gives h operands (functionAttribute r name) := by
  unfold functionAttribute
  split
  · exact gives_functionCode
  · split
    · exact gives_functionGlobals
    · exact .throw _

theorem gives_call {host : Host} (hhost : host.IsOrderly) (ha : Account.Sound ⟨h, held⟩)
    (ho : ∀ r ∈ operands, r ∈ held) (hx : x ∈ operands) : Gives h operands (call host r x) :=
  reads_method.bind fun _ hm =>
    hhost.gives ha ho (fun _ hq => .offered hm (Option.mem_toList.2 hq)) hx

theorem gives_callUnbound {host : Host} (hhost : host.IsOrderly) (ha : Account.Sound ⟨h, held⟩)
    (ho : ∀ r ∈ operands, r ∈ held) (hx : x ∈ operands) :
    Gives h operands (callUnbound host r x) :=
  reads_method.bind fun _ _ => hhost.gives ha ho nofun hx

theorem gives_newMethod {native : Native} {receiver : Option Ref}
    (hr : ∀ r ∈ receiver, r ∈ operands) :
    Gives h operands (alloc (.method name native receiver)) :=
  gives_alloc rfl trivial fun q hq => .operand (hr q (Option.mem_toList.1 hq))

theorem gives_findNative {table : List (String × Native)} (hr : r ∈ operands) :
    Gives h operands (findNative table r name) := by
  unfold findNative
  split
  · exact gives_newMethod fun q hq => Option.some.inj hq ▸ hr
  · exact .throw _

/-! ## Numbers -/

theorem gives_ofInteger (result : Except Error Int64) : Gives h operands (ofInteger result) := by
  unfold ofInteger
  split
  · exact gives_alloc_of_refs_eq_nil rfl rfl
  · exact .throw _

theorem gives_arithmetic {op : Arithmetic} : Gives h operands (arithmetic op r x) := by
  refine reads_typeOf.bind fun t _ => ?_
  split
  · refine reads_typeOf.bind fun u _ => ?_
    split
    · exact reads_integer.bind fun _ _ => reads_integer.bind fun _ _ => gives_ofInteger _
    · exact .throw _
  · split
    · exact reads_typeOf.bind fun _ _ => .throw _
    · exact .throw _

theorem gives_negative : Gives h operands (negative r) := by
  refine reads_typeOf.bind fun t _ => ?_
  split
  · exact reads_integer.bind fun _ _ => gives_ofInteger _
  · split <;> exact .throw _

theorem gives_positive (hr : r ∈ operands) : Gives h operands (positive r) := by
  refine reads_typeOf.bind fun t _ => ?_
  split
  · exact reads_integer.bind fun _ _ => gives_share (.operand hr)
  · split <;> exact .throw _

/-! ## Order -/

theorem reads_compare : Reads h (compare r x) fun o => h.compare r x = .ok o :=
  reads_ofHeap

/-! ## Sequences -/

theorem reads_length : Reads h (length r) fun _ => True := by
  refine reads_typeOf.trans fun t _ => ?_
  split
  · exact reads_bytes.trans fun _ _ => .pure trivial
  · exact reads_items.trans fun _ _ => .pure trivial
  · split
    · exact .pure trivial
    · exact .throw _

theorem gives_concat (hr : r ∈ operands) (hx : x ∈ operands) : Gives h operands (concat r x) := by
  refine reads_typeOf.bind fun t _ => ?_
  split
  · refine reads_typeOf.bind fun u _ => ?_
    split
    · refine reads_bytes.bind fun _ _ => reads_bytes.bind fun _ _ => ?_
      split
      · exact gives_share (.operand hx)
      · split
        · exact gives_share (.operand hr)
        · exact gives_alloc_of_refs_eq_nil rfl rfl
    · exact .throw _
  · refine reads_typeOf.bind fun u _ => ?_
    split
    · refine reads_items.bind fun xs hxs => reads_items.bind fun ys hys => ?_
      refine gives_alloc rfl trivial fun q hq => ?_
      rcases List.mem_append.1 hq with hq | hq
      · exact .offered hxs hq
      · exact .offered hys hq
    · exact .throw _
  · split
    · exact reads_typeOf.bind fun _ _ => .throw _
    · exact .throw _

theorem mem_of_mem_repeated {xs : List α} {n : Nat} {y : α} (hy : y ∈ repeated xs n) :
    y ∈ xs := by
  unfold repeated at hy
  split at hy
  · cases hy
  · obtain ⟨ys, hys, hy⟩ := List.mem_flatten.1 hy
    rwa [List.eq_of_mem_replicate hys] at hy

theorem gives_repetition {count : Int} (hr : r ∈ operands) :
    Gives h operands (repetition r count) := by
  refine reads_typeOf.bind fun t _ => ?_
  split
  · refine reads_bytes.bind fun bs _ => ?_
    split
    · exact gives_share (.operand hr)
    · split
      · exact .throw _
      · exact gives_alloc_of_refs_eq_nil rfl rfl
  · refine reads_items.bind fun is hv => ?_
    split
    · exact gives_share (.operand hr)
    · split
      · exact .throw _
      · exact gives_alloc rfl trivial fun q hq => .offered hv (mem_of_mem_repeated hq)
  · exact .throw _

theorem gives_slice {low high : Nat} (hr : r ∈ operands) : Gives h operands (slice r low high) := by
  refine reads_typeOf.bind fun t _ => ?_
  split
  · refine reads_bytes.bind fun bs _ => ?_
    split
    · exact gives_share (.operand hr)
    · exact gives_alloc_of_refs_eq_nil rfl rfl
  · refine reads_items.bind fun is hv => ?_
    split
    · exact gives_share (.operand hr)
    · exact gives_alloc rfl trivial fun q hq =>
        .offered hv (List.mem_of_mem_take (List.mem_of_mem_drop hq))
  · exact .throw _

theorem gives_tupleItem {index : Nat} : Gives h operands (tupleItem r index) := by
  refine reads_items.bind fun is hv => ?_
  split
  · next hx => exact gives_share (.offered hv (List.mem_of_getElem? hx))
  · exact .throw _

theorem gives_item {index : Nat} (hr : r ∈ operands) : Gives h operands (item r index) := by
  refine reads_typeOf.bind fun t _ => ?_
  split
  · refine reads_bytes.bind fun bs _ => ?_
    split
    · exact gives_slice hr
    · exact .throw _
  · exact gives_tupleItem
  · exact .throw _

theorem reads_assignItem : Reads h (assignItem r) fun _ => False :=
  reads_typeOf.trans fun _ _ => .throw _

theorem reads_assignSlice : Reads h (assignSlice r) fun _ => False :=
  reads_typeOf.trans fun _ _ => .throw _

/-! ## Showing -/

theorem spends_typeOf (r : Ref) : Spends (typeOf r) := .of_reads fun _ => reads_typeOf

theorem spends_nativeText (r : Ref) : Spends (nativeText r) := by
  refine (Spends.of_reads fun _ => reads_method).bind fun m => ?_
  split
  · exact .pure _
  · next receiver => exact (spends_typeOf receiver).bind fun _ => .pure _

/-- The text of an item, which is made as an object of its own and released at once. -/
def itemText (n : Nat) (r : Ref) : Action Bytes := do
  let s ← alloc (.string (← textTo n r))
  let text ← bytes s
  release s
  return text

theorem Spends.itemText {n : Nat} (hr : Spends (textTo n r)) : Spends (itemText n r) :=
  hr.bind fun text h => ⟨_, 1, perform_string text h⟩

theorem spends_textTo (n : Nat) (r : Ref) : Spends (textTo n r) := by
  induction n generalizing r with
  | zero => exact .throw _
  | succ n ih =>
    refine (spends_typeOf r).bind fun t => ?_
    cases t with
    | type => exact (Spends.of_reads fun _ => reads_typeObject).bind fun _ => .pure _
    | none => exact .pure _
    | integer => exact (Spends.of_reads fun _ => reads_integer).bind fun _ => .pure _
    | string => exact (Spends.of_reads fun _ => reads_bytes).bind fun _ => .pure _
    | tuple =>
      exact (Spends.of_reads fun _ => reads_items).bind fun _ =>
        (Spends.mapM fun i _ => (ih i).itemText).bind fun _ => .pure _
    | dict =>
      exact (Spends.of_reads fun _ => reads_entries).bind fun _ =>
        (Spends.mapM fun i _ => (ih i).itemText).bind fun _ => .pure _
    | method => exact spends_nativeText r
    | function | userClass | member | boundMethod | foreign => exact .throw _

theorem spends_itemText (n : Nat) (r : Ref) : Spends (itemText n r) :=
  (spends_textTo n r).itemText

theorem spends_text (r : Ref) : Spends (text r) :=
  Spends.bind (.of_eq fun h => ⟨.ok h, rfl⟩) fun _ => spends_textTo _ r

theorem gives_repr : Gives h operands (repr r) :=
  (spends_text r).gives_alloc (fun _ => rfl) fun _ => rfl

theorem spends_printed (mode : PrintMode) (r : Ref) : Spends (printed mode r) := by
  refine (spends_typeOf r).bind fun t => ?_
  cases t with
  | type => exact (Spends.of_reads fun _ => reads_typeObject).bind fun _ => .pure _
  | none => exact .pure _
  | integer => exact (Spends.of_reads fun _ => reads_integer).bind fun _ => .pure _
  | string => exact (Spends.of_reads fun _ => reads_bytes).bind fun _ => by cases mode <;> exact .pure _
  | tuple | dict | method => exact spends_text r
  | function | userClass | member | boundMethod | foreign => exact .throw _

/-- Printing fails where there is no text, and then nothing was written, or where the writer
    takes no more. -/
theorem perform_print (mode : PrintMode) (limit : Option Nat) (r : Ref) (h : Heap) :
    ∃ p n, (print mode limit r).perform h = (.ok p, h.spent n) ∧
      ∀ e, p.error = some e → (∃ reason, e = .writer reason) ∨ p.written = [] := by
  obtain ⟨result, n, hp⟩ := spends_printed mode r h
  rw [print, perform_tryCatch, map_eq_pure_bind]
  cases result with
  | error e =>
    rw [perform_bind_of_error hp]
    exact ⟨_, n, rfl, fun _ _ => .inr rfl⟩
  | ok bs =>
    rw [perform_bind_of_ok hp]
    refine ⟨Printed.write limit bs, n, rfl, fun e he => .inl ?_⟩
    unfold Printed.write at he
    split at he
    · cases he
    · split at he
      · cases he
      · cases he
        exact ⟨_, rfl⟩

/-! ## Classes -/

theorem exists_of_findFirst {f : Ref → Except Error (Option Ref)} {cs : List Ref}
    (hx : Heap.findFirst f cs = .ok (some x)) : ∃ c ∈ cs, f c = .ok (some x) := by
  induction cs with
  | nil => cases hx
  | cons c cs ih =>
    rw [Heap.findFirst] at hx
    split at hx
    · obtain ⟨c', hc', hf⟩ := ih hx
      exact ⟨c', List.mem_cons_of_mem _ hc', hf⟩
    · exact ⟨c, List.mem_cons_self, hx⟩

/-- What a class has under a name is in a dictionary. -/
theorem obtained_of_classLookupTo {n : Nat} {c : Ref}
    (hx : h.classLookupTo name n c = .ok (some x)) : h.Obtained operands x := by
  induction n generalizing c with
  | zero => cases hx
  | succ n ih =>
    rw [Heap.classLookupTo] at hx
    split at hx
    · split at hx
      · next es hd =>
        split at hx
        · next hf _ =>
          cases hx
          exact .offered hd (NameMap.mem_values_of_find? hf)
        · cases hx
        · split at hx
          · obtain ⟨c', -, hc'⟩ := exists_of_findFirst hx
            exact ih hc'
          · cases hx
      · cases hx
    · cases hx

theorem finds_classLookup : Finds h operands (classLookup r name) := by
  refine reads_ofHeap.bind fun o ho => finds_share? fun x hx => ?_
  exact obtained_of_classLookupTo (Option.mem_def.1 hx ▸ ho)

theorem gives_classAttribute : Gives h operands (classAttribute r name) := by
  refine reads_ofHeap.bind fun o ho => ?_
  split
  · exact gives_share (obtained_of_classLookupTo ho)
  · exact .throw _

/-- Bases whose types are known are a tuple of objects of these types. -/
theorem reads_baseTypes {bases : Option Ref} (hh : h.Paired) :
    Reads h (baseTypes bases) fun types => (∀ t ∈ types, t = .userClass) →
      ∀ b ∈ bases, ∃ items, h.value? b = some (.tuple items) ∧
        ∀ q ∈ items, h.HasType q .userClass := by
  cases bases with
  | none => exact .pure fun _ => nofun
  | some b =>
    refine reads_items.trans fun is his => ?_
    refine (Reads.mapM fun q _ => reads_typeOf (r := q)).mono fun types htypes hall => ?_
    rintro _ ⟨⟩
    refine ⟨is, hh.value?_of_payload? (v := .tuple is) his rfl nofun, fun q hq => ?_⟩
    obtain ⟨t, ht, hqt⟩ := htypes q hq
    exact hall t ht ▸ hqt

theorem gives_newClass {bases : Option Ref} (hh : h.Paired)
    (hbases : ∀ b ∈ bases, b ∈ operands) (hr : r ∈ operands) :
    Gives h operands (newClass bases r) := by
  refine reads_typeOf.bind fun t ht => ?_
  split
  · next hdict =>
    have halloc : (∀ b ∈ bases, ∃ items, h.value? b = some (.tuple items) ∧
        ∀ q ∈ items, h.HasType q .userClass) →
        Gives h operands (do let _ ← entries r; alloc (.userClass bases r)) := by
      refine fun hfits => reads_entries.bind fun _ _ =>
        gives_alloc ⟨hdict ▸ ht, hfits⟩ trivial fun q hq => .operand ?_
      rcases List.mem_append.1 hq with hq | hq
      · exact hbases q (Option.mem_toList.1 hq)
      · exact List.mem_singleton.1 hq ▸ hr
    refine (reads_baseTypes hh).bind fun types htypes => ?_
    split
    · next hall => exact halloc (htypes fun t ht => by simpa using List.all_eq_true.1 hall t ht)
    · exact .throw _
  · exact .throw _

theorem gives_newBoundMethod (hr : h.Obtained operands r) (hx : h.Obtained operands x) :
    Gives h operands (newBoundMethod r x) := by
  refine reads_typeOf.bind fun t ht => ?_
  split
  · next hfunction =>
    refine gives_alloc (hfunction ▸ ht : h.HasType r .function) trivial fun q hq => ?_
    rcases List.mem_cons.1 hq with rfl | hq
    · exact hr
    · exact List.mem_singleton.1 hq ▸ hx
  · exact .throw _

/-- A member holds its dictionary, so the reference that was made to it is released. -/
theorem perform_newMember (hr : h.HasType r .userClass) :
    (newMember r).perform h = (.ok ⟨h.cells.size + 1⟩,
      ((h.push (.dict .empty)).retain r).push (.member r ⟨h.cells.size⟩)) := by
  have hl := hr.live
  obtain ⟨v, hv, ht⟩ := hr
  have hl' : (h.push (.dict .empty)).Live r :=
    Heap.live_of_value? ((Heap.value?_push_of_live hl _).trans hv)
  have hne : (⟨h.cells.size⟩ : Ref) ≠ r := fun heq => absurd hl.lt_size (heq ▸ Nat.lt_irrefl _)
  have hc : ((h.push (.dict .empty)).retain r).cell? ⟨h.cells.size⟩ = some ⟨.dict .empty, 1⟩ := by
    rw [Heap.cell?_retain hl', if_neg hne, Heap.cell?_push, if_pos rfl]
  rw [newMember, perform_typeOf_bind hv, if_pos ht]
  rw [perform_bind_of_ok (perform_alloc _ _), perform_bind_of_ok (perform_alloc _ _)]
  show (Except.ok _, ((((h.push (.dict .empty)).retain r).retain _).push _).release _) = _
  rw [Heap.release_push_retain hc Nat.one_pos]
  congr 2
  exact congrArg Ref.mk (Array.size_push _)

theorem gives_newMember (hr : r ∈ operands) : Gives h operands (newMember r) := by
  by_cases hclass : h.HasType r .userClass
  · exact .ok (perform_newMember hclass) (Heap.Builds.nothing.member hclass (.operand hr))
  · refine reads_typeOf.bind fun t ht => ?_
    split
    · next heq => exact absurd (heq ▸ ht) hclass
    · exact .throw _

theorem gives_memberAttribute (hr : r ∈ operands) : Gives h operands (memberAttribute r name) := by
  refine reads_member.bind fun m _ => ?_
  refine reads_entries.bind fun es hd => ?_
  split
  · next hf => exact gives_share (.offered hd (NameMap.mem_values_of_find? hf))
  · refine reads_ofHeap.bind fun o ho => ?_
    split
    · exact .throw _
    · refine reads_typeOf.bind fun t _ => ?_
      split
      · exact gives_newBoundMethod (obtained_of_classLookupTo ho) (.operand hr)
      · exact .throw _

theorem gives_getAttribute (hr : r ∈ operands) : Gives h operands (getAttribute r name) := by
  refine reads_typeOf.bind fun t _ => ?_
  split
  · exact gives_functionAttribute
  · exact gives_classAttribute
  · exact gives_memberAttribute hr
  · exact .throw _

/-! ## Stores and removals -/

/-- A store or a removal writes to the dictionary, except that there has to be something to
    remove. -/
theorem perform_dictAssign {d : Ref} {entries : NameMap Ref} (name : String)
    (content : Option Ref) (hd : h.value? d = some (.dict entries)) :
    (dictAssign d name content).perform h =
      if content = none ∧ entries.find? name = none then (.error (.unknownName name), h)
      else (.ok (), h.write d entries name content) := by
  have hentries : (Action.entries d).perform h = (.ok entries, h) := perform_entries hd
  cases content with
  | some x =>
    rw [if_neg (fun hn => nomatch hn.1), dictAssign, dictInsert, perform_bind_of_ok hentries]
    cases hf : entries.find? name with
    | some old => rw [Heap.write, hf]; rfl
    | none => rw [Heap.write, hf, Option.toList_none, Heap.releaseAll]; rfl
  | none =>
    rw [dictAssign, dictRemove, perform_bind_of_ok hentries]
    cases hf : entries.find? name with
    | some old => rw [if_neg (fun hn => nomatch hn.2), Heap.write, hf]; rfl
    | none => rw [if_pos ⟨rfl, rfl⟩]; rfl

/-- Where there is no dictionary, nothing is stored. -/
theorem exists_perform_dictAssign_eq {d : Ref} (hh : h.Paired) (name : String)
    (content : Option Ref) (hne : ∀ entries, h.value? d ≠ some (.dict entries)) :
    ∃ e, (dictAssign d name content).perform h = (.error e, h) := by
  cases reads_entries (h := h) (r := d) with
  | ok _ hd => exact absurd (hh.value?_of_payload? (v := .dict _) hd rfl nofun) (hne _)
  | error hp => cases content <;> exact ⟨_, perform_bind_of_error hp⟩

theorem perform_member {c attributes : Ref} (hm : h.value? r = some (.member c attributes)) :
    (member r).perform h = (.ok (c, attributes), h) :=
  perform_payload_bind hm

theorem perform_setMemberAttribute {c attributes : Ref} (name : String) (content : Option Ref)
    (hm : h.value? r = some (.member c attributes)) :
    (setMemberAttribute r name content).perform h =
      (dictAssign attributes name content).perform h := by
  rw [setMemberAttribute, perform_bind_of_ok (perform_member hm)]

theorem perform_setAttribute {c attributes : Ref} (name : String) (content : Option Ref)
    (hm : h.value? r = some (.member c attributes)) :
    (setAttribute r name content).perform h = (dictAssign attributes name content).perform h :=
  (perform_typeOf_bind hm).trans (perform_setMemberAttribute name content hm)

theorem perform_setAttribute_of_ne {v : Value} (hv : h.value? r = some v)
    (ht : v.type ≠ .member) (content : Option Ref) :
    (setAttribute r name content).perform h =
      (.error (.unsupported .attributeAssignment v.type), h) := by
  rw [setAttribute, perform_typeOf_bind hv, if_neg ht]
  rfl

/-- Where there is no member, nothing is stored. -/
theorem exists_perform_setMemberAttribute_eq (hh : h.Paired) (name : String)
    (content : Option Ref) (hne : ∀ c attributes, h.value? r ≠ some (.member c attributes)) :
    ∃ e, (setMemberAttribute r name content).perform h = (.error e, h) := by
  cases reads_member (h := h) (r := r) with
  | ok _ hm => exact absurd (hh.value?_of_payload? (v := .member _ _) hm rfl nofun) (hne _ _)
  | error hp => exact ⟨_, perform_bind_of_error hp⟩

theorem exists_perform_setAttribute_eq {content : Option Ref} (hh : h.Paired)
    (hne : ∀ c attributes, h.value? r ≠ some (.member c attributes)) :
    ∃ e, (setAttribute r name content).perform h = (.error e, h) := by
  cases hv : h.value? r with
  | none => exact ⟨_, perform_typeOf_bind_of_none hv⟩
  | some v =>
    by_cases ht : v.type = .member
    · obtain ⟨e, hp⟩ := exists_perform_setMemberAttribute_eq hh name content hne
      refine ⟨e, ?_⟩
      rw [setAttribute, perform_typeOf_bind hv, if_pos ht, hp]
    · exact ⟨_, perform_setAttribute_of_ne hv ht content⟩

theorem perform_assignSubscript {d k : Ref} {entries : NameMap Ref} {bs : Bytes}
    (content : Option Ref) (hd : h.value? d = some (.dict entries))
    (hk : h.value? k = some (.string bs)) :
    (assignSubscript d k content).perform h = (dictAssign d (Utf8.decode bs) content).perform h :=
  (perform_typeOf_bind hd).trans (perform_bind_of_ok (perform_key hk))

theorem perform_assignSubscript_of_ne {d k : Ref} {v : Value} (hv : h.value? d = some v)
    (ht : v.type ≠ .dict) (content : Option Ref) :
    (assignSubscript d k content).perform h = (.error (.unsupported
      (if v.type.isMapping then .subscriptAssignment else .mapping) v.type), h) := by
  rw [assignSubscript, perform_typeOf_bind hv, if_neg ht]
  rfl

/-- Where there is no dictionary, or no string for a key, nothing is stored. -/
theorem exists_perform_assignSubscript_eq {d k : Ref} (hh : h.Paired) (content : Option Ref)
    (hne : ∀ entries bs, h.value? d = some (.dict entries) → h.value? k ≠ some (.string bs)) :
    ∃ e, (assignSubscript d k content).perform h = (.error e, h) := by
  cases hv : h.value? d with
  | none => exact ⟨_, perform_typeOf_bind_of_none hv⟩
  | some v =>
    by_cases ht : v.type = .dict
    · obtain ⟨entries, hd⟩ := Heap.HasType.exists_entries hh ⟨v, hv, ht⟩
      obtain ⟨e, hkey⟩ := exists_perform_key_eq hh fun bs => hne entries bs hd
      exact ⟨e, (perform_typeOf_bind hd).trans (perform_bind_of_error hkey)⟩
    · exact ⟨_, perform_assignSubscript_of_ne hv ht content⟩

end ScriptCore.Object.Action
