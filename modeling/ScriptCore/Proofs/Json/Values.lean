import Mathlib.Data.List.Nodup
import ScriptCore.Json
import ScriptCore.Proofs.Numeral

/-!
# Values in JSON

Texts, integers, lists and records are found again in the JSON values that they are written as.

* `Json.text?_ofString`, `Json.int?_ofInt`, `Json.listOf?_array`: texts, integers and lists.
* `Json.record?_object`: a record whose fields have different names.
-/

namespace ScriptCore.Json

/-! ## Lists -/

theorem mapM_map_eq_some {α β : Type} {f : β → Option α} {g : α → β} {xs : List α}
    (h : ∀ x ∈ xs, f (g x) = some x) : (xs.map g).mapM f = some xs := by
  induction xs with
  | nil => rfl
  | cons x xs ih =>
    rw [List.map_cons, List.mapM_cons, h x List.mem_cons_self,
      ih fun y hy => h y (List.mem_cons_of_mem x hy)]
    rfl

theorem listOf?_array {α : Type} {f : Json → Option α} {g : α → Json} {xs : List α}
    (h : ∀ x ∈ xs, f (g x) = some x) : (Json.array (xs.map g)).listOf? f = some xs :=
  mapM_map_eq_some h

/-! ## Texts and integers -/

theorem Symbol.text?_char (s : String) : Symbol.text? (s.toList.map .char) = some s := by
  have hchars : (s.toList.map Symbol.char).mapM Symbol.char? = some s.toList :=
    mapM_map_eq_some fun _ _ => rfl
  rw [Symbol.text?, hchars, Option.map_some, String.ofList_toList]

theorem text?_ofString (s : String) : (ofString s).text? = some s :=
  Symbol.text?_char s

/-- The JSON number of a natural number is that of an integer. -/
theorem ofNat_eq_ofInt (n : Nat) : ofNat n = ofInt n := by
  rw [ofNat, ofInt, if_neg (Int.not_lt.2 (Int.natCast_nonneg n)), Int.natAbs_natCast]

theorem int?_ofInt (n : Int) : (ofInt n).int? = some n := by
  rw [ofInt]
  split
  · next h =>
    have hne : n.natAbs ≠ 0 := Int.natAbs_ne_zero.2 (Int.ne_of_lt h)
    rw [int?, Numeral.value?_toDigits, Option.bind_some, if_neg hne, Int.ofNat_natAbs_of_nonpos
      (Int.le_of_lt h), Int.neg_neg]
  · next h =>
    rw [int?, Numeral.value?_toDigits, Option.map_some, Int.ofNat_eq_natCast,
      Int.natAbs_of_nonneg (Int.not_lt.1 h)]
    -- a sign is no digit
    intro ds hds
    have hdigit : '-'.isDigit = true :=
      Numeral.isDigit_of_mem_toDigits (hds ▸ List.mem_cons_self)
    exact absurd hdigit (by decide)

theorem intWithin?_ofInt {low high n : Int} (h : low ≤ n ∧ n ≤ high) :
    (ofInt n).intWithin? low high = some n := by
  rw [intWithin?, int?_ofInt, Option.bind_some, if_pos h]

theorem natUpTo?_ofNat {high n : Nat} (h : n ≤ high) : (ofNat n).natUpTo? high = some n := by
  rw [natUpTo?, ofNat_eq_ofInt,
    intWithin?_ofInt ⟨Int.natCast_nonneg n, Int.ofNat_le.2 h⟩, Option.map_some, Int.toNat_natCast]

/-! ## Records -/

variable {fs : List (String × Json)}

/-- A field is found under its name, if no other has that. -/
theorem field?_of_mem (hnodup : (fs.map Prod.fst).Nodup) {f : String × Json} (hf : f ∈ fs) :
    field? fs f.1 = some f.2 := by
  induction fs with
  | nil => cases hf
  | cons f' fs ih =>
    rw [List.map_cons, List.nodup_cons] at hnodup
    rw [field?, List.lookup_cons]
    rcases List.mem_cons.1 hf with rfl | hf
    · rw [beq_self_eq_true]
    · have hne : f.1 ≠ f'.1 := fun heq => hnodup.1 (heq ▸ List.mem_map_of_mem hf)
      rw [beq_false_of_ne hne]
      exact ih hnodup.2 hf

/-- A record is found again, if its fields have different names. -/
theorem record?_object {names : List String} (hfs : fs.map Prod.fst = names)
    (hnodup : names.Nodup) (least : Nat) :
    record? names least (.object (fs.map fun (name, j) => (name.toList.map .char, j))) =
      some (fs.map fun f => some f.2) := by
  subst hfs
  have honce : (fs.map Prod.fst).all fun name =>
      (fs.filter (·.1 == name)).length ≤ 1 := by
    -- as many fields have a name as it occurs among the names
    refine List.all_eq_true.2 fun name _ => decide_eq_true ?_
    rw [← List.countP_eq_length_filter, ← Function.comp_def (· == name) Prod.fst,
      ← List.countP_map]
    exact List.nodup_iff_count_le_one.1 hnodup name
  have hfields : (fs.map Prod.fst).map (field? fs) = fs.map fun f => some f.2 := by
    rw [List.map_map]
    exact List.map_congr_left fun f hf => field?_of_mem hnodup hf
  rw [record?, mapM_map_eq_some]
  · dsimp only [Option.bind_eq_bind, Option.bind_some]
    rw [if_pos honce, hfields]
  · exact fun f _ => congrArg (Option.map (·, f.2)) (Symbol.text?_char f.1)

end ScriptCore.Json
