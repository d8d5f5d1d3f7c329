import Mathlib.Tactic.SplitIfs
import ScriptCore.CommandLine.FileTree

/-!
# Growing file trees

A file tree only grows when a file is opened for writing: whatever a path led to, it leads to
still.

* `FileTree.Extends`: trees that have all that another one has.
* `FileTree.Extends.look`: what a path leads to is the same in them.
* `FileTree.extends_openFile`: opening a file gives such a tree.
-/

namespace ScriptCore.CommandLine.FileTree

variable {t t' t'' : FileTree} {place here : List String} {n : Node} {contents : Bytes}

theorem bind_eq_ok_iff {ε α β : Type} {x : Except ε α} {f : α → Except ε β} {b : β} :
    (x >>= f) = .ok b ↔ ∃ a, x = .ok a ∧ f a = .ok b := by
  cases x with
  | error e => exact ⟨nofun, fun ⟨_, h, _⟩ => nomatch h⟩
  | ok a => exact ⟨fun h => ⟨a, rfl, h⟩, fun ⟨_, heq, h⟩ => Except.ok.inj heq ▸ h⟩

/-- Whether a tree has all that another one has, and perhaps more. -/
def Extends (t t' : FileTree) : Prop :=
  ∀ place n, t.node? place = some n → t'.node? place = some n

theorem Extends.refl (t : FileTree) : Extends t t :=
  fun _ _ h => h

theorem Extends.trans (h : Extends t t') (h' : Extends t' t'') : Extends t t'' :=
  fun place n hn => h' place n (h place n hn)

/-! ## What was there -/

theorem Extends.step (h : Extends t t') {name : String} {place' : List String}
    (hstep : t.step place name = .ok place') : t'.step place name = .ok place' := by
  rw [FileTree.step] at hstep ⊢
  cases hn : t.node? place with
  | none =>
    rw [hn] at hstep
    cases hstep
  | some n =>
    rw [h place n hn]
    rwa [hn] at hstep

theorem Extends.foldlM_step (h : Extends t t') {names : List String} {place' : List String}
    (hsteps : names.foldlM t.step place = .ok place') :
    names.foldlM t'.step place = .ok place' := by
  induction names generalizing place with
  | nil => exact hsteps
  | cons name names ih =>
    rw [List.foldlM_cons, bind_eq_ok_iff] at hsteps ⊢
    obtain ⟨next, hstep, hsteps⟩ := hsteps
    exact ⟨next, h.step hstep, ih hsteps⟩

/-- What a path leads to, it leads to in a larger tree. -/
theorem Extends.look (h : Extends t t') {path : String} (hlook : t.look here path = .ok n) :
    t'.look here path = .ok n := by
  simp only [FileTree.look, bind_eq_ok_iff] at hlook ⊢
  obtain ⟨⟨start, names⟩, hstart, place, hplace, hnode⟩ := hlook
  refine ⟨(start, names), hstart, place, h.foldlM_step hplace, ?_⟩
  cases hn : t.node? place with
  | none =>
    rw [hn] at hnode
    cases hnode
  | some n' =>
    rw [hn] at hnode
    rwa [h place n' hn]

/-! ## What is made -/

theorem extends_directories (t : FileTree) (place : List String) :
    Extends t { t with directories := place :: t.directories } := by
  intro place' n hn
  rw [node?] at hn ⊢
  split at hn
  · next contents hcontents =>
    rw [hcontents]
    exact hn
  · next hnone =>
    rw [hnone]
    split_ifs at hn with hdirectory
    rw [if_pos]
    · exact hn
    · exact hdirectory.imp_right (.imp_right fun hany => by simp [hany])

/-- A file is made where there is nothing. -/
theorem extends_files (hplace : t.node? place = none) (contents : Bytes) :
    Extends t { t with files := (place, contents) :: t.files } := by
  intro place' n hn
  have hne : place' ≠ place := by
    rintro rfl
    cases hplace.symm.trans hn
  have hlookup : ((place, contents) :: t.files).lookup place' = t.files.lookup place' := by
    rw [List.lookup_cons, beq_false_of_ne hne]
  rw [node?] at hn ⊢
  rw [hlookup]
  split at hn
  · exact hn
  · split_ifs at hn with hdirectory
    rw [if_pos]
    · exact hn
    · exact hdirectory.imp_right (.imp_left fun hany => by simp [hany])

theorem extends_makeStep {name : String} {r : FileTree × List String}
    (h : makeStep (t, place) name = .ok r) : Extends t r.1 := by
  obtain ⟨place', -, h⟩ := bind_eq_ok_iff.1 h
  split at h
  · cases h
    exact .refl t
  · cases h
    exact extends_directories t place'

theorem extends_foldlM_makeStep {names : List String} {r : FileTree × List String}
    (h : names.foldlM makeStep (t, place) = .ok r) : Extends t r.1 := by
  induction names generalizing t place with
  | nil =>
    cases h
    exact .refl t
  | cons name names ih =>
    rw [List.foldlM_cons] at h
    obtain ⟨⟨t', place'⟩, hstep, h⟩ := bind_eq_ok_iff.1 h
    exact (extends_makeStep hstep).trans (ih h)

/-- Opening a file for writing takes nothing away. -/
theorem extends_openFile {path : String} (h : t.openFile here path = .ok t') : Extends t t' := by
  obtain ⟨⟨start, names⟩, -, h⟩ := bind_eq_ok_iff.1 h
  obtain ⟨⟨t₁, place₁⟩, hmade, h⟩ := bind_eq_ok_iff.1 h
  obtain ⟨place, -, h⟩ := bind_eq_ok_iff.1 h
  have hmade := extends_foldlM_makeStep hmade
  dsimp only at h hmade
  split at h
  · cases h
    exact hmade
  · cases h
  · next hnone =>
    cases h
    exact hmade.trans (extends_files hnone [])

end ScriptCore.CommandLine.FileTree
