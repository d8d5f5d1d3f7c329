import ScriptCore.Proofs.Object.Frame
import ScriptCore.Proofs.Object.Integer

/-!
# Laws of sequences

Strings and tuples obey the same laws, which are stated for both at once: `IsSequence` says how
a value keeps the elements, and the operations answer with an object that keeps others.

* `Action.answers_slice`, `Action.yields_concat`, `Action.yields_repetition`: the elements that
  an operation answers with are those of the operation on lists.
* `Action.answers_concat_string`, `Action.answers_concat_tuple`: the one joins with nothing by
  answering with an operand, the other makes an object in any case.
* `Action.sequences_lawful`: the equations between slices, joined and repeated sequences.
-/

namespace ScriptCore

namespace Heap

variable {h h' : Heap} {r : Object.Ref} {v : Object.Value}

/-- The reference to the object that is made next. -/
def next (h : Heap) : Object.Ref :=
  ⟨h.cells.size⟩

theorem next_ne (hv : h.value? r = some v) : h.next ≠ r := by
  rintro rfl
  exact Nat.lt_irrefl _ (live_of_value? hv).lt_size

theorem Extends.value?_of_some (he : h.Extends h') (hv : h.value? r = some v) :
    h'.value? r = some v := by
  rw [he.value?_eq r (live_of_value? hv).lt_size, hv]

end Heap

namespace Object

variable {α : Type}

/-! ## Elements -/

section Elements

variable (xs : List α) (i j k l : Nat)

/-- A slice has the elements between its bounds, once these are moved into the sequence. -/
theorem sliceOf_eq_extract : sliceOf xs i j =
    xs.extract (min i xs.length) (max (min i xs.length) (min j xs.length)) := by
  rw [sliceOf, List.drop_take, List.extract_eq_take_drop]
  rcases le_total i xs.length with hi | hi
  · rw [min_eq_left hi, List.take_eq_take_iff, List.length_drop]
    omega
  · rw [min_eq_right hi, List.drop_eq_nil_of_le hi, List.drop_length, List.take_nil, List.take_nil]

/-- Bounds may be moved into the sequence beforehand. -/
theorem sliceOf_min : sliceOf xs (min i xs.length) (min j xs.length) = sliceOf xs i j := by
  rw [sliceOf_eq_extract, sliceOf_eq_extract, min_assoc, min_self, min_assoc, min_self]

theorem sliceOf_sliceOf : sliceOf (sliceOf xs i j) k l = sliceOf xs (i + k) (min (i + l) j) := by
  simp only [sliceOf, List.take_drop, List.drop_drop, List.take_take]

theorem sliceOf_append_sliceOf : sliceOf xs 0 k ++ sliceOf xs k xs.length = xs := by
  rw [sliceOf, sliceOf, List.drop_zero, List.take_length, List.take_append_drop]

theorem sliceOf_succ (hi : i < xs.length) : sliceOf xs i (i + 1) = [xs[i]] := by
  rw [sliceOf, List.drop_take, Nat.add_sub_cancel_left, List.take_one_drop_eq_of_lt_length hi]
  rfl

theorem isWhole_iff : isWhole xs.length i j = true ↔ i = 0 ∧ xs.length ≤ j := by
  rw [isWhole, decide_eq_true_iff]

variable {xs i j} in
theorem sliceOf_of_isWhole (hij : isWhole xs.length i j = true) : sliceOf xs i j = xs := by
  obtain ⟨rfl, hj⟩ := (isWhole_iff xs i j).1 hij
  rw [sliceOf, List.drop_zero, List.take_of_length_le hj]

theorem repeated_eq : repeated xs k = (List.replicate k xs).flatten := by
  rw [repeated]
  split
  · next hxs => rw [List.isEmpty_iff.1 hxs, List.flatten_replicate_nil]
  · rfl

theorem repeated_add : repeated xs (k + l) = repeated xs k ++ repeated xs l := by
  simp only [repeated_eq, ← List.replicate_append_replicate, List.flatten_append]

end Elements

/-- How a value keeps elements: a string keeps bytes, a tuple keeps references. -/
inductive IsSequence : {α : Type} → (List α → Value) → Prop
  | string : IsSequence Value.string
  | tuple : IsSequence Value.tuple

namespace Action

variable {h : Heap} {x y : Action Ref} {a b c r : Ref} {v w : Value} {rs ss : List Ref}
  {wrap : List α → Value} {xs ys zs : List α}

/-! ## Answers -/

/-- Performed on a heap, an action answers with a reference, to an object that has the value;
    the objects of the heap have kept theirs. -/
def Answers (h : Heap) (x : Action Ref) (r : Ref) (v : Value) : Prop :=
  ∃ h', x.perform h = (.ok r, h') ∧ h'.value? r = some v ∧ h.Extends h'

/-- An action answers with some object that has the value. -/
def Yields (h : Heap) (x : Action Ref) (v : Value) : Prop :=
  ∃ r, Answers h x r v

theorem Answers.yields (hx : Answers h x r v) : Yields h x v :=
  ⟨r, hx⟩

theorem Answers.of_eq (hx : Answers h x r v) (hy : y.perform h = x.perform h) :
    Answers h y r v := by
  obtain ⟨h', hp, hr⟩ := hx
  exact ⟨h', hy.trans hp, hr⟩

theorem Yields.bind {f : Ref → Action Ref} (hx : Yields h x v)
    (hf : ∀ r h', h.Extends h' → h'.value? r = some v → Yields h' (f r) w) :
    Yields h (x >>= f) w := by
  obtain ⟨r, h₁, hp, hv, he⟩ := hx
  obtain ⟨r', h₂, hq, hw, he'⟩ := hf r h₁ he hv
  exact ⟨r', h₂, (perform_bind_of_ok hp).trans hq, hw, he.trans he'⟩

theorem answers_share (hv : h.value? r = some v) : Answers h (share r) r v :=
  ⟨h.retain r, rfl, by rw [h.value?_retain, hv], h.extends_retain r⟩

theorem answers_alloc (h : Heap) (v : Value) : Answers h (alloc v) h.next v := by
  have hnext : (⟨(v.refs.foldl Heap.retain h).cells.size⟩ : Ref) = h.next := by
    rw [Heap.size_foldl_retain, Heap.next]
  refine ⟨_, perform_alloc v h, ?_, (h.extends_foldl_retain v.refs).trans (Heap.extends_push _ v)⟩
  rw [← hnext, Heap.value?_push_self]

/-! ## Operations -/

/-- A slice is the sequence itself where it leaves nothing out, and else an object of its own. -/
theorem answers_slice (hwrap : IsSequence wrap) (ha : h.value? a = some (wrap xs)) (i j : Nat) :
    Answers h (slice a i j) (if isWhole xs.length i j then a else h.next)
      (wrap (sliceOf xs i j)) := by
  have hp : (slice a i j).perform h = (if isWhole xs.length i j then share a
      else alloc (wrap (sliceOf xs i j))).perform h := by
    cases hwrap with
    | string => exact (perform_typeOf_bind ha).trans (perform_bind_of_ok (perform_bytes ha))
    | tuple => exact (perform_typeOf_bind ha).trans (perform_bind_of_ok (perform_items ha))
  refine Answers.of_eq ?_ hp
  split
  · next hij =>
    rw [sliceOf_of_isWhole hij]
    exact answers_share ha
  · exact answers_alloc h _

/-- Joined with an empty string, a string is not copied. -/
theorem answers_concat_string {bs cs : Bytes} (ha : h.value? a = some (.string bs))
    (hb : h.value? b = some (.string cs)) : Answers h (concat a b)
      (if bs = [] then b else if cs = [] then a else h.next) (.string (bs ++ cs)) := by
  have hp : (concat a b).perform h = (if bs = [] then share b else if cs = [] then share a
      else alloc (.string (bs ++ cs))).perform h := by
    rw [concat, perform_typeOf_bind ha]
    dsimp only
    rw [perform_typeOf_bind hb, if_pos rfl, perform_bind_of_ok (perform_bytes ha),
      perform_bind_of_ok (perform_bytes hb)]
  refine Answers.of_eq ?_ hp
  split_ifs with hbs hcs
  · rw [hbs, List.nil_append]
    exact answers_share hb
  · rw [hcs, List.append_nil]
    exact answers_share ha
  · exact answers_alloc h _

/-- Joined tuples are an object of their own, also where one of them is empty. -/
theorem answers_concat_tuple (ha : h.value? a = some (.tuple rs))
    (hb : h.value? b = some (.tuple ss)) :
    Answers h (concat a b) h.next (.tuple (rs ++ ss)) := by
  refine (answers_alloc h _).of_eq ?_
  rw [concat, perform_typeOf_bind ha]
  dsimp only
  rw [perform_typeOf_bind hb, if_pos rfl, perform_bind_of_ok (perform_items ha),
    perform_bind_of_ok (perform_items hb)]

theorem yields_concat (hwrap : IsSequence wrap) (ha : h.value? a = some (wrap xs))
    (hb : h.value? b = some (wrap ys)) : Yields h (concat a b) (wrap (xs ++ ys)) := by
  cases hwrap with
  | string => exact (answers_concat_string ha hb).yields
  | tuple => exact (answers_concat_tuple ha hb).yields

/-- Repeated less often than once, a sequence is empty. -/
theorem yields_repetition (hwrap : IsSequence wrap) (ha : h.value? a = some (wrap xs))
    (count : Int) (hlen : xs.length * count.toNat ≤ largestLength) :
    Yields h (repetition a count) (wrap (repeated xs count.toNat)) := by
  -- the length is not too large, so that strings and tuples have no error of their own
  have hp : (repetition a count).perform h = (if count.toNat = 1 then share a
      else alloc (wrap (repeated xs count.toNat))).perform h := by
    cases hwrap with
    | string =>
      refine (perform_typeOf_bind ha).trans ((perform_bind_of_ok (perform_bytes ha)).trans ?_)
      rw [if_neg (Nat.not_lt.2 hlen)]
    | tuple =>
      refine (perform_typeOf_bind ha).trans ((perform_bind_of_ok (perform_items ha)).trans ?_)
      rw [if_neg (Nat.not_lt.2 hlen)]
  split at hp
  · next hone =>
    rw [hone, repeated_eq, List.replicate_one, List.flatten_singleton]
    exact ((answers_share ha).of_eq hp).yields
  · exact ((answers_alloc h _).of_eq hp).yields

theorem perform_tupleItem (ha : h.value? a = some (.tuple rs)) (i : Nat) :
    (tupleItem a i).perform h = (match rs[i]? with
      | some r => share r
      | none => throw (.outOfRange .tuple) : Action Ref).perform h :=
  perform_bind_of_ok (perform_items ha)

/-- An element of a string is a string with one byte. -/
theorem yields_item_string {bs : Bytes} (ha : h.value? a = some (.string bs)) {i : Nat}
    (hi : i < bs.length) : Yields h (item a i) (.string [bs[i]]) := by
  have hp : (item a i).perform h = (slice a i (i + 1)).perform h := by
    refine (perform_typeOf_bind ha).trans ((perform_bind_of_ok (perform_bytes ha)).trans ?_)
    rw [if_pos hi]
  rw [← sliceOf_succ bs i hi]
  exact ((answers_slice .string ha i (i + 1)).of_eq hp).yields

/-- An element of a tuple is the object that the tuple refers to. -/
theorem perform_item_tuple (ha : h.value? a = some (.tuple rs)) {i : Nat} (hi : i < rs.length) :
    (item a i).perform h = (.ok rs[i], h.retain rs[i]) := by
  refine (perform_typeOf_bind ha).trans ((perform_tupleItem ha i).trans ?_)
  rw [List.getElem?_eq_getElem hi]
  rfl

theorem refuses_item (hwrap : IsSequence wrap) (ha : h.value? a = some (wrap xs)) {i : Nat}
    (hi : xs.length ≤ i) : Refuses h (item a i) (.outOfRange (wrap xs).type) := by
  refine (perform_typeOf_bind ha).trans ?_
  cases hwrap with
  | string =>
    refine (perform_bind_of_ok (perform_bytes ha)).trans ?_
    rw [if_neg (Nat.not_lt.2 hi)]
    rfl
  | tuple =>
    refine (perform_tupleItem ha i).trans ?_
    rw [List.getElem?_eq_none hi]
    rfl

/-! ## Laws -/

/-- The slices of a sequence: which elements they have, and what becomes of slices that are
    joined or sliced again. -/
structure SliceLaws (h : Heap) (a : Ref) (wrap : List α → Value) (xs : List α) : Prop where
  /-- Both bounds are moved into the sequence, and the upper one up to the lower one. -/
  elements (i j : Nat) : ∃ r, Answers h (slice a i j) r
    (wrap (xs.extract (min i xs.length) (max (min i xs.length) (min j xs.length)))) ∧
    (r = a ↔ i = 0 ∧ xs.length ≤ j)
  joined (k : Nat) : Yields h (do concat (← slice a 0 k) (← slice a k xs.length)) (wrap xs)
  sliced (i j k l : Nat) : ∃ v, Yields h (do slice (← slice a i j) k l) v ∧
    Yields h (slice a (min (i + k) xs.length) (min (min (i + l) j) xs.length)) v

/-- Three sequences joined: in which order does not matter. Strings are not copied where one is
    empty, tuples always are. -/
structure ConcatLaws (h : Heap) (a b c : Ref) (wrap : List α → Value) (xs ys zs : List α) :
    Prop where
  elements : Yields h (concat a b) (wrap (xs ++ ys))
  assoc : ∃ v, Yields h (do concat (← concat a b) c) v ∧ Yields h (do concat a (← concat b c)) v
  left_of_string (hs : (wrap xs).type = .string) (hxs : xs = []) :
    Answers h (concat a b) b (wrap ys)
  right_of_string (hs : (wrap xs).type = .string) (hxs : xs ≠ []) (hys : ys = []) :
    Answers h (concat a b) a (wrap xs)
  new_of_tuple (ht : (wrap xs).type = .tuple) : Answers h (concat a b) h.next (wrap (xs ++ ys))

/-- A sequence repeated a number of times, as far as the length is no more than the largest. -/
structure RepetitionLaws (h : Heap) (a : Ref) (wrap : List α → Value) (xs : List α) : Prop where
  elements (m : Nat) (hm : xs.length * m ≤ largestLength) :
    Yields h (repetition a m) (wrap (List.replicate m xs).flatten)
  add (m p : Nat) (hlen : xs.length * (m + p) ≤ largestLength) :
    ∃ v, Yields h (repetition a (m + p)) v ∧
      Yields h (do concat (← repetition a m) (← repetition a p)) v
  negative (count : Int) (hc : count < 0) :
    (repetition a count).perform h = (repetition a 0).perform h ∧
      Yields h (repetition a count) (wrap [])

/-- The elements of a sequence: of a string as strings, of a tuple as they are. -/
structure ItemLaws (h : Heap) (a : Ref) (wrap : List α → Value) (xs : List α) : Prop where
  of_string (bs : Bytes) (hs : wrap xs = .string bs) (i : Nat) (hi : i < bs.length) :
    Yields h (item a i) (.string [bs[i]])
  of_tuple (rs : List Ref) (ht : wrap xs = .tuple rs) (i : Nat) (hi : i < rs.length) :
    (item a i).perform h = (.ok rs[i], h.retain rs[i])
  outside (i : Nat) (hi : xs.length ≤ i) : Refuses h (item a i) (.outOfRange (wrap xs).type)

theorem sliceLaws (hwrap : IsSequence wrap) (ha : h.value? a = some (wrap xs)) :
    SliceLaws h a wrap xs where
  elements i j := by
    refine ⟨_, sliceOf_eq_extract xs i j ▸ answers_slice hwrap ha i j, ?_⟩
    rw [← isWhole_iff, ite_eq_left_iff]
    exact ⟨fun hne => by_contra fun hij => Heap.next_ne ha (hne hij), absurd⟩
  joined k := by
    -- the second slice is taken where the first one is there already
    refine (answers_slice hwrap ha 0 k).yields.bind fun r₁ h₁ he₁ hr₁ => ?_
    refine (answers_slice hwrap (he₁.value?_of_some ha) k xs.length).yields.bind
      fun r₂ h₂ he₂ hr₂ => ?_
    have hjoined := yields_concat hwrap (he₂.value?_of_some hr₁) hr₂
    rwa [sliceOf_append_sliceOf] at hjoined
  sliced i j k l := by
    -- the sums may be beyond the sequence, and are moved into it for the one slice
    refine ⟨wrap (sliceOf xs (i + k) (min (i + l) j)), ?_, ?_⟩
    · rw [← sliceOf_sliceOf]
      exact (answers_slice hwrap ha i j).yields.bind fun r h' _ hr =>
        (answers_slice hwrap hr k l).yields
    · rw [← sliceOf_min]
      exact (answers_slice hwrap ha _ _).yields

theorem concatLaws (hwrap : IsSequence wrap) (ha : h.value? a = some (wrap xs))
    (hb : h.value? b = some (wrap ys)) (hc : h.value? c = some (wrap zs)) :
    ConcatLaws h a b c wrap xs ys zs where
  elements := yields_concat hwrap ha hb
  assoc := by
    refine ⟨wrap (xs ++ ys ++ zs), ?_, ?_⟩
    · exact (yields_concat hwrap ha hb).bind fun r h' he hr =>
        yields_concat hwrap hr (he.value?_of_some hc)
    · rw [List.append_assoc]
      exact (yields_concat hwrap hb hc).bind fun r h' he hr =>
        yields_concat hwrap (he.value?_of_some ha) hr
  left_of_string hs hxs := by
    cases hwrap with
    | string =>
      have hjoined := answers_concat_string ha hb
      rwa [if_pos hxs, hxs, List.nil_append] at hjoined
    | tuple => cases hs
  right_of_string hs hxs hys := by
    cases hwrap with
    | string =>
      have hjoined := answers_concat_string ha hb
      rwa [if_neg hxs, if_pos hys, hys, List.append_nil] at hjoined
    | tuple => cases hs
  new_of_tuple ht := by
    cases hwrap with
    | string => cases ht
    | tuple => exact answers_concat_tuple ha hb

theorem repetitionLaws (hwrap : IsSequence wrap) (ha : h.value? a = some (wrap xs)) :
    RepetitionLaws h a wrap xs where
  elements m hm := by
    rw [← repeated_eq]
    exact yields_repetition hwrap ha m hm
  add m p hlen := by
    have hm : xs.length * m ≤ largestLength := (Nat.mul_le_mul_left _ (m.le_add_right p)).trans hlen
    have hp : xs.length * p ≤ largestLength := (Nat.mul_le_mul_left _ (p.le_add_left m)).trans hlen
    refine ⟨wrap (repeated xs (m + p)), yields_repetition hwrap ha ↑(m + p) hlen, ?_⟩
    rw [repeated_add]
    refine (yields_repetition hwrap ha m hm).bind fun r₁ h₁ he₁ hr₁ => ?_
    refine (yields_repetition hwrap (he₁.value?_of_some ha) p hp).bind
      fun r₂ h₂ he₂ hr₂ => ?_
    exact yields_concat hwrap (he₂.value?_of_some hr₁) hr₂
  negative count hc := by
    have hzero : count.toNat = 0 := Int.toNat_of_nonpos hc.le
    refine ⟨?_, ?_⟩
    · rw [repetition, repetition, hzero, Int.toNat_zero]
    · have hempty := yields_repetition hwrap ha count (by rw [hzero]; exact Nat.zero_le _)
      rwa [hzero, repeated_eq, List.replicate_zero, List.flatten_nil] at hempty

theorem itemLaws (hwrap : IsSequence wrap) (ha : h.value? a = some (wrap xs)) :
    ItemLaws h a wrap xs where
  of_string _ hs _ hi := yields_item_string (ha.trans (congrArg some hs)) hi
  of_tuple _ ht _ hi := perform_item_tuple (ha.trans (congrArg some ht)) hi
  outside _ hi := refuses_item hwrap ha hi

/-- **Sequences are lawful.** Slices, joined and repeated sequences and elements of strings and
    of tuples are those of the lists of their elements, for all bounds and counts. -/
theorem sequences_lawful (hwrap : IsSequence wrap) (ha : h.value? a = some (wrap xs))
    (hb : h.value? b = some (wrap ys)) (hc : h.value? c = some (wrap zs)) :
    SliceLaws h a wrap xs ∧ ConcatLaws h a b c wrap xs ys zs ∧ RepetitionLaws h a wrap xs ∧
      ItemLaws h a wrap xs :=
  ⟨sliceLaws hwrap ha, concatLaws hwrap ha hb hc, repetitionLaws hwrap ha, itemLaws hwrap ha⟩

/-- The heap of a session that made the strings `ab`, an empty one and `c`. -/
def threeStrings : Heap :=
  ((Session.start .basic).performAll [(.make (.string [97, 98]), some "x"), (.make (.string []), some "y"),
    (.make (.string [99]), some "z")]).heap

/-- The heap of a session that made an integer, and three tuples: of the integer, an empty one
    and of the integer twice. -/
def threeTuples : Heap :=
  ((Session.start .basic).performAll [(.make (.integer 7), some "n"), (.newTuple ["n"], some "x"),
    (.newTuple [], some "y"), (.newTuple ["n", "n"], some "z")]).heap

/-- Strings and tuples differ in what an empty operand comes to. -/
theorem sequences_lawful_of_empty :
    (∃ r, Answers threeStrings (slice ⟨0⟩ 1 9) r (.string [98]) ∧ r ≠ ⟨0⟩) ∧
    Answers threeStrings (concat ⟨0⟩ ⟨1⟩) ⟨0⟩ (.string [97, 98]) ∧
    Yields threeStrings (repetition ⟨0⟩ 2) (.string [97, 98, 97, 98]) ∧
    Yields threeStrings (item ⟨0⟩ 1) (.string [98]) ∧
    Answers threeTuples (concat ⟨1⟩ ⟨2⟩) ⟨4⟩ (.tuple [⟨0⟩]) ∧
    (item ⟨3⟩ 1).perform threeTuples = (.ok ⟨0⟩, threeTuples.retain ⟨0⟩) ∧
    Refuses threeTuples (item ⟨3⟩ 2) (.outOfRange .tuple) := by
  obtain ⟨hslice, hconcat, hrep, hitem⟩ := sequences_lawful .string
    (show threeStrings.value? ⟨0⟩ = some (.string [97, 98]) from rfl)
    (show threeStrings.value? ⟨1⟩ = some (.string []) from rfl)
    (show threeStrings.value? ⟨2⟩ = some (.string [99]) from rfl)
  obtain ⟨-, hconcat', -, -⟩ := sequences_lawful .tuple
    (show threeTuples.value? ⟨1⟩ = some (.tuple [⟨0⟩]) from rfl)
    (show threeTuples.value? ⟨2⟩ = some (.tuple []) from rfl)
    (show threeTuples.value? ⟨3⟩ = some (.tuple [⟨0⟩, ⟨0⟩]) from rfl)
  obtain ⟨-, -, -, hitem'⟩ := sequences_lawful .tuple
    (show threeTuples.value? ⟨3⟩ = some (.tuple [⟨0⟩, ⟨0⟩]) from rfl)
    (show threeTuples.value? ⟨2⟩ = some (.tuple []) from rfl)
    (show threeTuples.value? ⟨1⟩ = some (.tuple [⟨0⟩]) from rfl)
  obtain ⟨r, hr, hwhole⟩ := hslice.elements 1 9
  exact ⟨⟨r, hr, fun h => absurd (hwhole.1 h).1 (by decide)⟩,
    hconcat.right_of_string rfl (by decide) rfl, hrep.elements 2 (by decide),
    hitem.of_string _ rfl 1 (by decide), hconcat'.new_of_tuple rfl,
    hitem'.of_tuple _ rfl 1 (by decide), hitem'.outside 2 (by decide)⟩

end Action

end Object

end ScriptCore
