import Mathlib
import ScriptCore.Proofs.Object.Session

/-!
# Comparing objects is an order

A comparison finds an answer or an error, however deep the tuples are nested, as items are older
than the tuples that hold them. Where it answers, its answers fit together: an object equals
itself, the other way round the answer is reversed, and what is at most equal leads on.

* `Account.Balanced.compare_tuples`: tuples are compared item by item, without a bound.
* `Account.Sound.compare_swap`, `Account.Sound.compare_trans`: comparisons fit together,
  also where objects that cannot be compared hide behind a difference, or are the same.
* `Datum`, `Datum.Precedes`: what integers, strings and tuples of these amount to, and the
  lexicographic order of that.
* `Account.Balanced.compare_decides`: a comparison of such objects decides their order.
* `Session.compare_is_order`: this holds after any calls.
-/

namespace ScriptCore

open Object

/-- The types whose objects have an order. -/
def ObjectType.isOrdered : ObjectType → Bool
  | integer | string | tuple => true
  | _ => false

/-! ## Data -/

namespace Object

/-- Whether an error says that objects of a type do not support what was asked of them. -/
def Error.isTypeError : Error → Bool
  | unsupported .. | unsupportedPair .. | incomparable .. | keyNotString => true
  | _ => false

/-- What an integer, a string, or a tuple of such objects amounts to. -/
inductive Datum
  | integer (n : Int64)
  | string (bs : Bytes)
  | tuple (items : List Datum)

/-- The order of data: integers by value, strings by the first bytes that differ, tuples by the
    first items that differ; what begins another comes before it. -/
inductive Datum.Precedes : Datum → Datum → Prop
  | integer {m n : Int64} (hlt : m.toInt < n.toInt) : Precedes (.integer m) (.integer n)
  | string {bs bs' : Bytes} (hlt : List.Lex (· < ·) bs bs') : Precedes (.string bs) (.string bs')
  | tuple {ds ds' : List Datum} (hlt : List.Lex Precedes ds ds') :
    Precedes (.tuple ds) (.tuple ds')

/-- What the answer to a comparison has to be, given when it is to be which. -/
structure Tells (answer : Except Error Ordering) (less equal greater : Prop) : Prop where
  lt_iff : answer = .ok .lt ↔ less
  eq_iff : answer = .ok .eq ↔ equal
  gt_iff : answer = .ok .gt ↔ greater

theorem Tells.of_error {e : Error} {less equal greater : Prop} (hless : ¬less) (hequal : ¬equal)
    (hgreater : ¬greater) : Tells (.error e) less equal greater where
  lt_iff := iff_of_false nofun hless
  eq_iff := iff_of_false nofun hequal
  gt_iff := iff_of_false nofun hgreater

theorem Tells.of_ok {α : Type} [Ord α] [Std.OrientedOrd α] {x y : α} {less equal greater : Prop}
    (hless : Ord.compare x y = .lt ↔ less) (hequal : Ord.compare x y = .eq ↔ equal)
    (hgreater : Ord.compare y x = .lt ↔ greater) :
    Tells (.ok (Ord.compare x y)) less equal greater where
  lt_iff := by rw [Except.ok.injEq, hless]
  eq_iff := by rw [Except.ok.injEq, hequal]
  gt_iff := by rw [Except.ok.injEq, Std.OrientedCmp.gt_iff_lt, hgreater]

end Object

/-! ## Answers that fit together -/

theorem eq_lt_of_ne {o : Ordering} (heq : o ≠ .eq) (hgt : o ≠ .gt) : o = .lt := by
  cases o <;> first | rfl | contradiction

theorem then_eq_ite {o o' : Ordering} (hgt : o ≠ .gt) (hgt' : o' ≠ .gt) :
    o.then o' = if o = .eq ∧ o' = .eq then .eq else .lt := by
  cases o <;> cases o' <;> first | rfl | contradiction

section Ord

variable {α : Type} [Ord α] {x y z : α}

theorem compare_then [Std.TransOrd α] (hxy : compare x y ≠ .gt) (hyz : compare y z ≠ .gt) :
    compare x z = (compare x y).then (compare y z) := by
  cases ho : compare x y with
  | lt => exact Std.TransCmp.lt_of_lt_of_isLE ho (Ordering.isLE_iff_ne_gt.2 hyz)
  | eq => exact Std.TransCmp.congr_left ho
  | gt => exact absurd ho hxy

/-- Bytes are compared by the first that differ. -/
theorem compare_bytes_eq_lt {bs bs' : Bytes} :
    compare bs bs' = .lt ↔ List.Lex (· < ·) bs bs' := by
  induction bs generalizing bs' with
  | nil => cases bs' <;> simp
  | cons b bs ih =>
    cases bs' with
    | nil => simp
    | cons b' bs' =>
      rw [List.compare_cons_cons, Ordering.then_eq_lt, List.cons_lex_cons_iff, ih,
        Std.compare_eq_lt, Std.compare_eq_iff_eq]

end Ord

namespace Heap

variable {h : Heap} {a b : Ref} {xs ys zs : List Ref} {o o' : Ordering}
  {f g : Ref → Ref → Except Error Ordering}

/-! ### Lists of items -/

theorem compareItems_cons_of_eq {x y : Ref} (hxy : f x y = .ok .eq) :
    compareItems f (x :: xs) (y :: ys) = compareItems f xs ys := by
  rw [compareItems, hxy]

theorem compareItems_cons_of_ne {x y : Ref} (hxy : f x y ≠ .ok .eq) :
    compareItems f (x :: xs) (y :: ys) = f x y := by
  rw [compareItems]
  split
  · next heq => exact absurd heq hxy
  · rfl

theorem compareItems_congr (hfg : ∀ x ∈ xs, ∀ y, f x y = g x y) :
    compareItems f xs ys = compareItems g xs ys := by
  induction xs generalizing ys with
  | nil => cases ys <;> rfl
  | cons x xs ih =>
    obtain ⟨hx, hxs⟩ := List.forall_mem_cons.1 hfg
    cases ys with
    | nil => rfl
    | cons y ys => simp only [compareItems, hx, ih hxs]

/-- Only tuples are compared by way of other objects. -/
theorem comparePayloads_congr {t : ObjectType} {p q : Payload}
    (hfg : ∀ xs, t = .tuple → p = .tuple xs → ∀ x ∈ xs, ∀ y, f x y = g x y) :
    comparePayloads f t p q = comparePayloads g t p q := by
  unfold comparePayloads
  split
  · rfl
  · rfl
  · split
    · exact compareItems_congr (hfg _ rfl rfl)
    · rfl
  · rfl

theorem comparePayloads_of_not_isOrdered {t : ObjectType} (ht : t.isOrdered = false)
    (p q : Payload) : comparePayloads f t p q = .error (.unsupported .comparison t) := by
  cases t <;> first | rfl | cases ht

theorem compareItems_self (hf : ∀ x ∈ xs, f x x = .ok .eq) : compareItems f xs xs = .ok .eq := by
  induction xs with
  | nil => rfl
  | cons x xs ih =>
    obtain ⟨hx, hxs⟩ := List.forall_mem_cons.1 hf
    rw [compareItems_cons_of_eq hx, ih hxs]

/-- The comparison of lists fails only where that of two items does. -/
theorem exists_of_compareItems {e : Error} (he : compareItems f xs ys = .error e) :
    ∃ x ∈ xs, ∃ y ∈ ys, f x y = .error e := by
  induction xs generalizing ys with
  | nil => cases ys <;> cases he
  | cons x xs ih =>
    cases ys with
    | nil => cases he
    | cons y ys =>
      by_cases hxy : f x y = .ok .eq
      · rw [compareItems_cons_of_eq hxy] at he
        obtain ⟨x', hx', y', hy', hf⟩ := ih he
        exact ⟨x', List.mem_cons_of_mem x hx', y', List.mem_cons_of_mem y hy', hf⟩
      · rw [compareItems_cons_of_ne hxy] at he
        exact ⟨x, List.mem_cons_self, y, List.mem_cons_self, he⟩

theorem compareItems_swap (hf : ∀ x ∈ xs, ∀ y o, f x y = .ok o → f y x = .ok o.swap)
    (ho : compareItems f xs ys = .ok o) : compareItems f ys xs = .ok o.swap := by
  induction xs generalizing ys with
  | nil => cases ys <;> cases ho <;> rfl
  | cons x xs ih =>
    obtain ⟨hx, hxs⟩ := List.forall_mem_cons.1 hf
    cases ys with
    | nil => cases ho; rfl
    | cons y ys =>
      by_cases hxy : f x y = .ok .eq
      · rw [compareItems_cons_of_eq hxy] at ho
        rw [compareItems_cons_of_eq (hx y _ hxy), ih hxs ho]
      · rw [compareItems_cons_of_ne hxy] at ho
        have hyx := hx y o ho
        rw [compareItems_cons_of_ne, hyx]
        intro heq
        have hswap : o.swap = .eq := Except.ok.inj (hyx.symm.trans heq)
        exact hxy (ho.trans (congrArg Except.ok (Ordering.swap_eq_eq.1 hswap)))

/-- What leads on for the items leads on for the lists: the first difference between the outer
    two is the first of both differences. -/
theorem compareItems_trans
    (hf : ∀ x ∈ xs, ∀ y z o o', f x y = .ok o → f y z = .ok o' → o ≠ .gt → o' ≠ .gt →
      f x z = .ok (o.then o'))
    (ho : compareItems f xs ys = .ok o) (ho' : compareItems f ys zs = .ok o')
    (hgt : o ≠ .gt) (hgt' : o' ≠ .gt) : compareItems f xs zs = .ok (o.then o') := by
  induction xs generalizing ys zs with
  | nil =>
    cases ys with
    | nil => cases ho; exact ho'
    | cons y ys =>
      cases zs with
      | nil => cases ho'; exact absurd rfl hgt'
      | cons z zs => cases ho; rfl
  | cons x xs ih =>
    obtain ⟨hx, hxs⟩ := List.forall_mem_cons.1 hf
    cases ys with
    | nil => cases ho; exact absurd rfl hgt
    | cons y ys =>
      cases zs with
      | nil => cases ho'; exact absurd rfl hgt'
      | cons z zs =>
        by_cases hxy : f x y = .ok .eq
        · rw [compareItems_cons_of_eq hxy] at ho
          by_cases hyz : f y z = .ok .eq
          · rw [compareItems_cons_of_eq hyz] at ho'
            rw [compareItems_cons_of_eq (hx y z _ _ hxy hyz nofun nofun), ih hxs ho ho']
          · rw [compareItems_cons_of_ne hyz] at ho'
            have hxz := hx y z _ _ hxy ho' nofun hgt'
            obtain rfl := eq_lt_of_ne (fun heq => hyz (heq ▸ ho')) hgt'
            rw [compareItems_cons_of_ne (by simp [hxz]), hxz, then_eq_ite hgt hgt']
            simp
        · rw [compareItems_cons_of_ne hxy] at ho
          obtain rfl := eq_lt_of_ne (fun heq => hxy (heq ▸ ho)) hgt
          have hxz : f x z = .ok .lt := by
            by_cases hyz : f y z = .ok .eq
            · exact hx y z _ _ ho hyz nofun nofun
            · rw [compareItems_cons_of_ne hyz] at ho'
              exact hx y z _ _ ho ho' nofun hgt'
          rw [compareItems_cons_of_ne (by simp [hxz]), hxz]
          rfl

/-- Lists of items are in the order of the lists of what the items amount to. -/
theorem compareItems_tells {α : Type} {less : α → α → Prop} {p q : Ref → α}
    (hf : ∀ x ∈ xs, ∀ y ∈ ys, Tells (f x y) (less (p x) (q y)) (p x = q y) (less (q y) (p x))) :
    Tells (compareItems f xs ys) (List.Lex less (xs.map p) (ys.map q)) (xs.map p = ys.map q)
      (List.Lex less (ys.map q) (xs.map p)) := by
  induction xs generalizing ys with
  | nil => cases ys <;> constructor <;> simp [compareItems, Nat.compare_eq_lt, Nat.compare_eq_gt]
  | cons x xs ih =>
    cases ys with
    | nil => constructor <;> simp [compareItems, Nat.compare_eq_lt, Nat.compare_eq_gt]
    | cons y ys =>
      have hxy := hf x List.mem_cons_self y List.mem_cons_self
      have hrest := ih fun x' hx y' hy =>
        hf x' (List.mem_cons_of_mem x hx) y' (List.mem_cons_of_mem y hy)
      simp only [List.map_cons]
      by_cases heq : f x y = .ok .eq
      · -- first items that are equal decide nothing
        have hpq := hxy.eq_iff.1 heq
        have hlt : ¬less (p x) (q y) := fun hl => nomatch heq.symm.trans (hxy.lt_iff.2 hl)
        have hgt : ¬less (q y) (p x) := fun hg => nomatch heq.symm.trans (hxy.gt_iff.2 hg)
        rw [compareItems_cons_of_eq heq]
        refine ⟨hrest.lt_iff.trans ?_, hrest.eq_iff.trans ?_, hrest.gt_iff.trans ?_⟩
        · rw [List.cons_lex_cons_iff]
          tauto
        · rw [List.cons.injEq]
          tauto
        · rw [List.cons_lex_cons_iff]
          have := hpq.symm
          tauto
      · have hpq : p x ≠ q y := fun hpq => heq (hxy.eq_iff.2 hpq)
        rw [compareItems_cons_of_ne heq]
        refine ⟨hxy.lt_iff.trans ?_, ⟨fun h => absurd h heq, fun h => ?_⟩, hxy.gt_iff.trans ?_⟩
        · rw [List.cons_lex_cons_iff]
          tauto
        · exact absurd (List.cons.inj h).1 hpq
        · rw [List.cons_lex_cons_iff]
          have := hpq.symm
          tauto

/-! ### What a comparison comes to -/

/-- What two objects are to a comparison: the same, or both of one of the types whose objects
    have an order, or apart. -/
inductive Comparison (h : Heap) (a b : Ref) : Prop
  | same (hab : a = b)
  | integers {x y : Int64} (hx : h.value? a = some (.integer x))
    (hy : h.value? b = some (.integer y))
  | strings {x y : Bytes} (hx : h.value? a = some (.string x)) (hy : h.value? b = some (.string y))
  | tuples {xs ys : List Ref} (hx : h.value? a = some (.tuple xs))
    (hy : h.value? b = some (.tuple ys))
  | apart (hab : a ≠ b)
    (ht : ∀ t : ObjectType, t.isOrdered = true → h.HasType a t → ¬h.HasType b t)

theorem Paired.comparison (hh : h.Paired) (a b : Ref) : h.Comparison a b := by
  by_cases hab : a = b
  · exact .same hab
  · by_cases hranks : ∃ t : ObjectType, t.isOrdered = true ∧ h.HasType a t ∧ h.HasType b t
    · obtain ⟨t, ht, ha, hb⟩ := hranks
      obtain ⟨p, hv, hp⟩ := ha.exists_payload hh
      obtain ⟨q, hw, hq⟩ := hb.exists_payload hh
      cases t <;> cases ht <;> cases p <;> cases hp <;> cases q <;> cases hq
      · exact .integers hv hw
      · exact .strings hv hw
      · exact .tuples hv hw
    · exact .apart hab fun t ht ha hb => hranks ⟨t, ht, ha, hb⟩

theorem compare_self (h : Heap) (a : Ref) : h.compare a a = .ok .eq := by
  rw [compare, depth, compareTo, if_pos rfl]

/-- Two objects are compared by their types first. -/
theorem compare_of_ne {v w : Value} (hab : a ≠ b) (hx : h.value? a = some v)
    (hy : h.value? b = some w) : h.compare a b =
      if v.type = w.type then
        comparePayloads (h.compareTo h.cells.size) v.type v.payload w.payload
      else .error (.incomparable v.type w.type) := by
  rw [compare, depth, compareTo, if_neg hab, hx, hy]

theorem compare_integers {x y : Int64} (hx : h.value? a = some (.integer x))
    (hy : h.value? b = some (.integer y)) : h.compare a b = .ok (Ord.compare x.toInt y.toInt) := by
  by_cases hab : a = b
  · cases (hab ▸ hx).symm.trans hy
    rw [hab, compare_self]
    exact congrArg Except.ok Std.ReflCmp.compare_self.symm
  · rw [compare_of_ne hab hx hy, if_pos rfl]
    rfl

theorem compare_strings {x y : Bytes} (hx : h.value? a = some (.string x))
    (hy : h.value? b = some (.string y)) : h.compare a b = .ok (Ord.compare x y) := by
  by_cases hab : a = b
  · cases (hab ▸ hx).symm.trans hy
    rw [hab, compare_self]
    exact congrArg Except.ok Std.ReflCmp.compare_self.symm
  · rw [compare_of_ne hab hx hy, if_pos rfl]
    rfl

/-- Why objects that have no order are not compared. -/
def comparisonError (h : Heap) (a b : Ref) : Error :=
  match h.value? a, h.value? b with
  | some v, some w =>
    if v.type = w.type then .unsupported .comparison v.type else .incomparable v.type w.type
  | _, _ => .badCall

theorem compare_of_apart (hab : a ≠ b)
    (ht : ∀ t : ObjectType, t.isOrdered = true → h.HasType a t → ¬h.HasType b t) :
    h.compare a b = .error (h.comparisonError a b) := by
  cases hx : h.value? a with
  | none => rw [compare, depth, compareTo, if_neg hab, comparisonError, hx]
  | some v => cases hy : h.value? b with
    | none => rw [compare, depth, compareTo, if_neg hab, comparisonError, hx, hy]
    | some w =>
      rw [compare_of_ne hab hx hy, comparisonError, hx, hy]
      dsimp only
      split
      · next htype =>
        have hordered : v.type.isOrdered = false :=
          Bool.eq_false_iff.2 fun hv => ht v.type hv ⟨v, hx, rfl⟩ ⟨w, hy, htype.symm⟩
        exact comparePayloads_of_not_isOrdered hordered _ _
      · rfl

end Heap

namespace Object.Account

variable {h : Heap} {held : Multiset Ref} {a b c : Ref} {xs ys : List Ref} {o o' : Ordering}

/-! ## Comparisons need no bound -/

/-- More steps than there are objects before the first one make no difference. -/
theorem Balanced.compareTo_congr (hb : Balanced ⟨h, held⟩) {m n : Nat} (hm : a.index < m)
    (hn : a.index < n) : h.compareTo m a b = h.compareTo n a b := by
  induction m generalizing a b n with
  | zero => cases hm
  | succ m ih =>
    cases n with
    | zero => cases hn
    | succ n =>
      rw [Heap.compareTo, Heap.compareTo]
      split
      · rfl
      · split
        · next v w hx hy =>
          split
          · refine Heap.comparePayloads_congr fun xs ht hp x hxs y => ?_
            obtain ⟨t, p⟩ := v
            obtain rfl : t = .tuple := ht
            obtain rfl : p = .tuple xs := hp
            have hlt : x.index < a.index := hb.older a _ hx nofun x hxs
            exact ih (by omega) (by omega)
          · rfl
        · rfl

/-- Tuples are compared item by item. -/
theorem Balanced.compare_tuples (hb : Balanced ⟨h, held⟩) (hx : h.value? a = some (.tuple xs))
    (hy : h.value? b = some (.tuple ys)) : h.compare a b = Heap.compareItems h.compare xs ys := by
  by_cases hab : a = b
  · cases (hab ▸ hx).symm.trans hy
    rw [hab, h.compare_self, Heap.compareItems_self fun x _ => h.compare_self x]
  · rw [Heap.compare_of_ne hab hx hy, if_pos rfl]
    refine Heap.compareItems_congr fun x hxs y => ?_
    have hsize : a.index < h.cells.size := (Heap.live_of_value? hx).lt_size
    have hlt : x.index < a.index := hb.older a _ hx nofun x hxs
    exact hb.compareTo_congr (by omega) (by rw [Heap.depth]; omega)

/-- A comparison of objects has an answer, or tells that some of them have no order. -/
theorem Sound.isTypeError_of_compare (hb : Sound ⟨h, held⟩) {e : Error} (ha : h.Live a)
    (hl : h.Live b) (he : h.compare a b = .error e) : e.isTypeError = true := by
  induction hn : a.index using Nat.strong_induction_on generalizing a b with
  | _ n ih =>
    cases hb.paired.comparison a b with
    | same hab =>
      subst hab
      cases (h.compare_self a).symm.trans he
    | integers hx hy => cases (h.compare_integers hx hy).symm.trans he
    | strings hx hy => cases (h.compare_strings hx hy).symm.trans he
    | tuples hx hy =>
      rw [hb.compare_tuples hx hy] at he
      obtain ⟨x, hxs, y, hys, he⟩ := Heap.exists_of_compareItems he
      exact ih x.index (hn ▸ hb.older a _ hx nofun x hxs) (hb.live_of_mem_refs hx hxs)
        (hb.live_of_mem_refs hy hys) he rfl
    | apart hab ht =>
      cases (h.compare_of_apart hab ht).symm.trans he
      obtain ⟨v, hx⟩ := Heap.live_iff_value?.1 ha
      obtain ⟨w, hy⟩ := Heap.live_iff_value?.1 hl
      rw [Heap.comparisonError, hx, hy]
      dsimp only
      split <;> rfl

/-! ## Comparisons fit together -/

/-- The other way round, the answer is reversed. -/
theorem Sound.compare_swap (hb : Sound ⟨h, held⟩) (ho : h.compare a b = .ok o) :
    h.compare b a = .ok o.swap := by
  induction hn : a.index using Nat.strong_induction_on generalizing a b o with
  | _ n ih =>
    cases hb.paired.comparison a b with
    | same hab =>
      subst hab
      cases h.compare_self a ▸ ho
      exact h.compare_self a
    | integers hx hy =>
      cases h.compare_integers hx hy ▸ ho
      rw [h.compare_integers hy hx]
      exact congrArg Except.ok Std.OrientedCmp.eq_swap
    | strings hx hy =>
      cases h.compare_strings hx hy ▸ ho
      rw [h.compare_strings hy hx]
      exact congrArg Except.ok Std.OrientedCmp.eq_swap
    | tuples hx hy =>
      rw [hb.compare_tuples hx hy] at ho
      rw [hb.compare_tuples hy hx]
      refine Heap.compareItems_swap (fun x hxs y o hxy => ?_) ho
      exact ih x.index (hn ▸ hb.older a _ hx nofun x hxs) hxy rfl
    | apart hab ht =>
      cases (h.compare_of_apart hab ht).symm.trans ho

/-- An object is only compared with one of its type. -/
theorem hasType_of_compare {v : Value} (hx : h.value? a = some v) (ho : h.compare a b = .ok o) :
    h.HasType b v.type := by
  by_contra hb
  have hab : a ≠ b := fun hab => hb ⟨v, hab ▸ hx, rfl⟩
  have he := h.compare_of_apart hab fun t _ hta htb => by
    obtain ⟨w, hw, rfl⟩ := hta
    cases hx.symm.trans hw
    exact hb htb
  cases he.symm.trans ho

/-- What is at most equal leads on to what is at most equal. -/
theorem Sound.compare_trans (hb : Sound ⟨h, held⟩) (ho : h.compare a b = .ok o)
    (ho' : h.compare b c = .ok o') (hgt : o ≠ .gt) (hgt' : o' ≠ .gt) :
    h.compare a c = .ok (o.then o') := by
  induction hn : a.index using Nat.strong_induction_on generalizing a b c o o' with
  | _ n ih =>
    cases hb.paired.comparison a b with
    | same hab =>
      subst hab
      cases h.compare_self a ▸ ho
      exact ho'
    | integers hx hy =>
      obtain ⟨p, hz, hp⟩ := (hasType_of_compare hy ho').exists_payload hb.paired
      cases p <;> cases hp
      cases h.compare_integers hx hy ▸ ho
      cases h.compare_integers hy hz ▸ ho'
      rw [h.compare_integers hx hz, compare_then hgt hgt']
    | strings hx hy =>
      obtain ⟨p, hz, hp⟩ := (hasType_of_compare hy ho').exists_payload hb.paired
      cases p <;> cases hp
      cases h.compare_strings hx hy ▸ ho
      cases h.compare_strings hy hz ▸ ho'
      rw [h.compare_strings hx hz, compare_then hgt hgt']
    | tuples hx hy =>
      obtain ⟨p, hz, hp⟩ := (hasType_of_compare hy ho').exists_payload hb.paired
      cases p <;> cases hp
      rw [hb.compare_tuples hx hy] at ho
      rw [hb.compare_tuples hy hz] at ho'
      rw [hb.compare_tuples hx hz]
      refine Heap.compareItems_trans (fun x hxs y z o o' hxy hyz hlt hlt' => ?_) ho ho' hgt hgt'
      exact ih x.index (hn ▸ hb.older a _ hx nofun x hxs) hxy hyz hlt hlt' rfl
    | apart hab ht =>
      cases (h.compare_of_apart hab ht).symm.trans ho

/-! ## Comparisons decide the order of data -/

theorem exists_compare_of_ne {v w : Value} (hx : h.value? a = some v) (hy : h.value? b = some w)
    (hvw : v.type ≠ w.type) : ∃ e, h.compare a b = .error e := by
  have hab : a ≠ b := fun hab => by
    cases (hab ▸ hx).symm.trans hy
    exact hvw rfl
  refine ⟨_, h.compare_of_apart hab fun t _ hta htb => ?_⟩
  obtain ⟨v', hv', rfl⟩ := hta
  obtain ⟨w', hw', heq⟩ := htb
  cases hx.symm.trans hv'
  cases hy.symm.trans hw'
  exact hvw heq.symm

end Object.Account

namespace Heap

/-- What an object amounts to, if it is an integer, a string, or a tuple of such objects. -/
inductive Denotes (h : Heap) : Ref → Datum → Prop
  | integer {r : Ref} {n : Int64} (hv : h.value? r = some (.integer n)) : Denotes h r (.integer n)
  | string {r : Ref} {bs : Bytes} (hv : h.value? r = some (.string bs)) : Denotes h r (.string bs)
  | tuple {r : Ref} {items : List Ref} {datum : Ref → Datum} (hv : h.value? r = some (.tuple items))
    (hitems : ∀ x ∈ items, Denotes h x (datum x)) : Denotes h r (.tuple (items.map datum))

end Heap

namespace Object.Account

variable {h : Heap} {held : Multiset Ref} {a b : Ref} {d d' : Datum}

/-- A comparison decides which of two data comes first. -/
theorem Balanced.compare_decides (hb : Balanced ⟨h, held⟩) (ha : h.Denotes a d)
    (hd : h.Denotes b d') :
    Tells (h.compare a b) (d.Precedes d') (d = d') (d'.Precedes d) := by
  induction ha generalizing b d' with
  | @integer _ m hx =>
    cases hd with
    | @integer _ n hy =>
      rw [h.compare_integers hx hy]
      refine .of_ok ?_ ?_ ?_
      · rw [Std.compare_eq_lt]
        exact ⟨.integer, fun | .integer hlt => hlt⟩
      · rw [Std.compare_eq_iff_eq, Int64.toInt_inj, Datum.integer.injEq]
      · rw [Std.compare_eq_lt]
        exact ⟨.integer, fun | .integer hlt => hlt⟩
    | string hy | tuple hy =>
      obtain ⟨e, he⟩ := exists_compare_of_ne hx hy nofun
      exact he ▸ .of_error nofun nofun nofun
  | string hx =>
    cases hd with
    | string hy =>
      rw [h.compare_strings hx hy]
      refine .of_ok ?_ ?_ ?_
      · rw [compare_bytes_eq_lt]
        exact ⟨.string, fun | .string hlt => hlt⟩
      · rw [Std.compare_eq_iff_eq, Datum.string.injEq]
      · rw [compare_bytes_eq_lt]
        exact ⟨.string, fun | .string hlt => hlt⟩
    | integer hy | tuple hy =>
      obtain ⟨e, he⟩ := exists_compare_of_ne hx hy nofun
      exact he ▸ .of_error nofun nofun nofun
  | tuple hx hitems ih =>
    cases hd with
    | integer hy | string hy =>
      obtain ⟨e, he⟩ := exists_compare_of_ne hx hy nofun
      exact he ▸ .of_error nofun nofun nofun
    | tuple hy hitems' =>
      obtain ⟨hlt, heq, hgt⟩ :=
        Heap.compareItems_tells fun x hxs y hys => ih x hxs (hitems' y hys)
      rw [hb.compare_tuples hx hy]
      refine ⟨hlt.trans ?_, heq.trans ?_, hgt.trans ?_⟩
      · exact ⟨.tuple, fun | .tuple hlex => hlex⟩
      · rw [Datum.tuple.injEq]
      · exact ⟨.tuple, fun | .tuple hlex => hlex⟩

end Object.Account

/-! ## Comparisons after any calls -/

namespace Object.Session

open ScriptCore.Object.Action

/-- After any calls, comparisons of objects are an order: they come to an end, whatever the
    bound, with an answer or with the error that there is none; an object equals itself; the
    other way round the answer is reversed, and so is missing where it was; and what is at most
    equal leads on. Integers, strings and tuples of these are in the lexicographic order of what
    they amount to. -/
theorem compare_is_order {host : Host} (hhost : host.IsOrderly)
    (calls : List (Call × Option String)) :
    let h := ((start host).performAll calls).heap
    (∀ a b, (Action.compare a b).perform h = (h.compare a b, h)) ∧
    (∀ a b, h.Live a → h.Live b → (∀ e, h.compare a b = .error e → e.isTypeError = true) ∧
      ∀ n, h.depth ≤ n → h.compareTo n a b = h.compare a b) ∧
    (∀ a, h.compare a a = .ok .eq) ∧
    (∀ a b o, h.compare b a = .ok o.swap ↔ h.compare a b = .ok o) ∧
    (∀ a b c o o', h.compare a b = .ok o → h.compare b c = .ok o' → o ≠ .gt → o' ≠ .gt →
      h.compare a c = .ok (if o = .eq ∧ o' = .eq then .eq else .lt)) ∧
    ∀ a b d d', h.Denotes a d → h.Denotes b d' →
      Tells (h.compare a b) (d.Precedes d') (d = d') (d'.Precedes d) := by
  intro h
  have hb : Account.Sound ⟨h, _⟩ := sound_performAll hhost calls
  refine ⟨fun a b => perform_ofHeap _ h,
    fun a b ha hl => ⟨fun e => hb.isTypeError_of_compare ha hl, fun n hn => ?_⟩,
    h.compare_self, fun a b o => ⟨fun ho => ?_, hb.compare_swap⟩,
    fun a b c o o' ho ho' hgt hgt' => ?_, fun a b d d' => hb.compare_decides⟩
  · have hdepth : a.index < h.depth := Nat.lt_succ_of_lt ha.lt_size
    exact hb.compareTo_congr (hdepth.trans_le hn) hdepth
  · rw [← o.swap_swap]
    exact hb.compare_swap ho
  · rw [hb.compare_trans ho ho' hgt hgt', then_eq_ite hgt hgt']

/-- Three pairs of an integer and an object that has no order, and two of an integer and a
    string. -/
def fivePairs : List (Call × Option String) :=
  [(.make .dict, some "d"), (.make .dict, some "e"), (.make (.integer 1), some "x"),
    (.make (.integer 1), some "y"), (.make (.integer 2), some "z"),
    (.newTuple ["x", "d"], some "a"), (.newTuple ["y", "d"], some "b"),
    (.newTuple ["z", "e"], some "c"), (.make (.string [115]), some "s"),
    (.newTuple ["y", "s"], some "p"), (.newTuple ["z", "s"], some "q")]

/-- The first two pairs are equal, as they have the same dictionary, and come before the third,
    whose dictionary is another; the dictionaries alone are not compared. The last two are in the
    order of their integers. -/
theorem compare_is_order_of_pairs :
    let h := ((start .basic).performAll fivePairs).heap
    h.compare ⟨5⟩ ⟨6⟩ = .ok .eq ∧ h.compare ⟨6⟩ ⟨7⟩ = .ok .lt ∧ h.compare ⟨5⟩ ⟨7⟩ = .ok .lt ∧
      h.compare ⟨0⟩ ⟨1⟩ = .error (.unsupported .comparison .dict) ∧
      h.compareTo 20 ⟨0⟩ ⟨1⟩ = h.compare ⟨0⟩ ⟨1⟩ ∧ h.compare ⟨9⟩ ⟨10⟩ = .ok .lt := by
  intro h
  obtain ⟨hab, hbc, hde⟩ : h.compare ⟨5⟩ ⟨6⟩ = .ok .eq ∧ h.compare ⟨6⟩ ⟨7⟩ = .ok .lt ∧
      h.compare ⟨0⟩ ⟨1⟩ = .error (.unsupported .comparison .dict) := by decide
  obtain ⟨-, hends, -, -, htrans, hdata⟩ := compare_is_order Host.isOrderly_basic fivePairs
  have hd : h.value? ⟨0⟩ = some (.dict .empty) := by decide
  have he : h.value? ⟨1⟩ = some (.dict .empty) := by decide
  have hs : h.Denotes ⟨8⟩ (.string [115]) := .string (by decide)
  have hp : h.Denotes ⟨9⟩ (.tuple [.integer 1, .string [115]]) := by
    refine @Heap.Denotes.tuple h ⟨9⟩ [⟨3⟩, ⟨8⟩]
      (fun r => if r = ⟨3⟩ then .integer 1 else .string [115]) (by decide) ?_
    exact List.forall_mem_cons.2 ⟨.integer (by decide), List.forall_mem_singleton.2 hs⟩
  have hq : h.Denotes ⟨10⟩ (.tuple [.integer 2, .string [115]]) := by
    refine @Heap.Denotes.tuple h ⟨10⟩ [⟨4⟩, ⟨8⟩]
      (fun r => if r = ⟨4⟩ then .integer 2 else .string [115]) (by decide) ?_
    exact List.forall_mem_cons.2 ⟨.integer (by decide), List.forall_mem_singleton.2 hs⟩
  have hend := (hends _ _ (Heap.live_of_value? hd) (Heap.live_of_value? he)).2
  refine ⟨hab, hbc, htrans _ _ _ _ _ hab hbc nofun nofun, hde, hend 20 (by decide), ?_⟩
  exact (hdata _ _ _ _ hp hq).lt_iff.2 (.tuple (.rel (.integer (by decide))))

end Object.Session

end ScriptCore
