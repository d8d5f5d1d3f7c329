import Mathlib.Data.List.Forall2
import Mathlib.Data.Multiset.AddSub
import ScriptCore.NameMap

/-!
# What the values of a map are

A store puts one value in the place of the one that was stored under the name,
and a removal takes that away: as multisets, the values of the map change by
just these (`values_insert`, `values_erase`). Two maps are told apart by their
names and by what is stored under a name (`map_entries_eq_iff`).
-/

namespace ScriptCore.NameMap

variable {α : Type}

theorem lookup_eq_none_of_forall_lt {k : String} {es : List (String × α)}
    (h : ∀ e ∈ es, k < e.1) : es.lookup k = none := by
  refine List.lookup_eq_none_iff.2 fun e he => ?_
  have hne : k ≠ e.1 := fun heq => String.lt_irrefl _ (heq ▸ h e he)
  simpa using hne

theorem values_insertEntry (k : String) (v : α) {es : List (String × α)}
    (hs : es.Pairwise (·.1 < ·.1)) :
    (↑((insertEntry k v es).map (·.2)) + ↑(es.lookup k).toList : Multiset α) =
      v ::ₘ ↑(es.map (·.2)) := by
  induction es with
  | nil => rfl
  | cons e es ih =>
    obtain ⟨k', v'⟩ := e
    obtain ⟨he, hs⟩ := List.pairwise_cons.1 hs
    rw [insertEntry]
    split
    · next hlt =>
      rw [lookup_eq_none_of_forall_lt (List.forall_mem_cons.2
        ⟨hlt, fun e hm => String.lt_trans hlt (he e hm)⟩)]
      exact Multiset.add_zero _
    · split
      · next heq =>
        subst heq
        rw [List.lookup_cons_self, List.map_cons, List.map_cons]
        exact Multiset.coe_eq_coe.2 (.cons _ (List.perm_append_comm))
      · next hne =>
        rw [List.lookup_cons, beq_false_of_ne hne]
        simp only [List.map_cons, ← Multiset.cons_coe, Multiset.cons_add, ih hs]
        exact Multiset.cons_swap _ _ _

theorem values_insert (m : NameMap α) (k : String) (v : α) :
    (↑(m.insert k v).values + ↑(m.find? k).toList : Multiset α) = v ::ₘ ↑m.values :=
  values_insertEntry k v m.sorted

theorem values_eraseEntry (k : String) {es : List (String × α)}
    (hs : es.Pairwise (·.1 < ·.1)) :
    (↑((es.filter (·.1 ≠ k)).map (·.2)) + ↑(es.lookup k).toList : Multiset α) =
      ↑(es.map (·.2)) := by
  induction es with
  | nil => rfl
  | cons e es ih =>
    obtain ⟨k', v'⟩ := e
    obtain ⟨he, hs⟩ := List.pairwise_cons.1 hs
    rcases eq_or_ne k' k with rfl | hne
    · have hf : es.filter (·.1 ≠ k') = es := List.filter_eq_self.2 fun e hm => by
        have hne : e.1 ≠ k' := fun heq => String.lt_irrefl _ (heq ▸ he e hm)
        simpa using hne
      rw [List.filter_cons_of_neg (by simp), hf, List.lookup_cons_self, List.map_cons]
      exact Multiset.coe_eq_coe.2 (List.perm_append_singleton _ _)
    · rw [List.filter_cons_of_pos (by simpa using hne), List.lookup_cons,
        beq_false_of_ne hne.symm]
      simp only [List.map_cons, ← Multiset.cons_coe, Multiset.cons_add, ih hs]

theorem values_erase (m : NameMap α) (k : String) :
    (↑(m.erase k).values + ↑(m.find? k).toList : Multiset α) = ↑m.values :=
  values_eraseEntry k m.sorted

theorem mem_values_of_find? {m : NameMap α} {k : String} {v : α} (h : m.find? k = some v) :
    v ∈ m.values := by
  have hm := values_erase m k
  rw [h] at hm
  exact Multiset.mem_coe.1 (hm ▸ Multiset.mem_add.2 (.inr (Multiset.mem_singleton_self v)))

theorem nodup_names (m : NameMap α) : m.names.Nodup := by
  refine (List.pairwise_map.2 m.sorted).imp fun {k k'} hlt heq => ?_
  exact String.lt_irrefl k (heq ▸ hlt)

theorem mem_names_iff {m : NameMap α} {k : String} : k ∈ m.names ↔ m.find? k ≠ none := by
  rw [names, find?, Ne, List.lookup_eq_none_iff]
  simp

/-! ## Mapped values -/

theorem map_eq_map_iff_zip {β γ : Type} {f : α → γ} {g : β → γ} {xs : List α} {ys : List β} :
    xs.map f = ys.map g ↔ xs.length = ys.length ∧ ∀ i ∈ xs.zip ys, f i.1 = g i.2 := by
  rw [← List.forall₂_eq_eq_eq, List.forall₂_map_left_iff, List.forall₂_map_right_iff,
    List.forall₂_iff_zip]
  simp only [Prod.forall]

theorem lookup_map {β : Type} (k : String) (f : α → β) (es : List (String × α)) :
    (es.map fun e => (e.1, f e.2)).lookup k = (es.lookup k).map f := by
  induction es with
  | nil => rfl
  | cons e es ih =>
    rw [List.map_cons, List.lookup_cons, List.lookup_cons, ih]
    cases k == e.1 <;> rfl

theorem find?_of_mem {m : NameMap α} {e : String × α} (he : e ∈ m.entries) :
    m.find? e.1 = some e.2 := by
  obtain ⟨es, hs⟩ := m
  simp only [find?] at he ⊢
  induction es with
  | nil => cases he
  | cons e' es ih =>
    obtain ⟨hlt, hs⟩ := List.pairwise_cons.1 hs
    rcases List.mem_cons.1 he with rfl | he
    · exact List.lookup_cons_self
    · have hne : e.1 ≠ e'.1 := fun heq => String.lt_irrefl _ (heq ▸ hlt e he)
      rw [List.lookup_cons, beq_false_of_ne hne]
      exact ih hs he

/-- Two maps are equal once their values are mapped if they have the same names, and what
    is stored under a name is mapped to the same. -/
theorem map_entries_eq_iff {β : Type} {m m' : NameMap α} {f f' : α → β} :
    (m.entries.map fun e => (e.1, f e.2)) = (m'.entries.map fun e => (e.1, f' e.2)) ↔
      m.names = m'.names ∧
        ∀ k v v', m.find? k = some v → m'.find? k = some v' → f v = f' v' := by
  constructor
  · intro h
    refine ⟨?_, fun k v v' hv hv' => ?_⟩
    · have hfst := congrArg (List.map (·.1)) h
      rw [List.map_map, List.map_map] at hfst
      exact hfst
    · have hlookup := congrArg (List.lookup k) h
      rw [lookup_map, lookup_map, ← find?, ← find?, hv, hv'] at hlookup
      exact Option.some.inj hlookup
  · rintro ⟨hnames, hvalues⟩
    rw [map_eq_map_iff_zip]
    obtain ⟨hlength, hfst⟩ := map_eq_map_iff_zip.1 hnames
    refine ⟨hlength, fun i hi => ?_⟩
    obtain ⟨he, he'⟩ := List.of_mem_zip (a := i.1) (b := i.2) hi
    refine Prod.ext (hfst i hi) ?_
    exact hvalues i.1.1 _ _ (find?_of_mem he) (hfst i hi ▸ find?_of_mem he')

end ScriptCore.NameMap
