import Mathlib.Tactic.SplitIfs
import ScriptCore.Lexer.Indentation

/-!
# Levels of indentation

What always holds of the levels of indentation and of the tokens owed for them
(`Indentation.Sound`), and how beginning a line and telling a token keep it.
-/

namespace ScriptCore.Lexer

open Token (Kind)

namespace Indentation

variable {i j : Indentation} {limit : Nat} {c : UInt64} {f : Option Fault} {kind : Kind}

/-- What always holds of levels: they stand in order, there are not too many, and
    of those that were opened at most one is not yet told. -/
structure Sound (limit : Nat) (i : Indentation) : Prop where
  sorted : i.stack.Pairwise (· < ·)
  room : i.stack.length ≤ limit
  owed_le_one : i.owed ≤ 1
  owed_le_depth : i.owed ≤ i.depth

theorem sorted_iff : i.stack.Pairwise (· < ·) ↔ (i.levels ++ [0]).Pairwise (· > ·) := by
  have hstack : i.stack = (i.levels ++ [0]).reverse := by simp [stack]
  rw [hstack, List.pairwise_reverse]

theorem length_stack : i.stack.length = i.depth + 1 := by
  rw [stack, List.length_cons, List.length_reverse, depth]

theorem getLast?_stack (i : Indentation) : i.stack.getLast? = some i.column := by
  rw [stack, column]
  cases i.levels with
  | nil => rfl
  | cons c levels =>
    rw [List.reverse_cons, ← List.cons_append]
    exact List.getLast?_concat

theorem sound_empty (h : 1 ≤ limit) : Sound limit {} :=
  ⟨List.pairwise_singleton _ _, h, Int.zero_le_ofNat 1, Int.le_refl 0⟩

/-- What stands right of the innermost level stands right of all levels. -/
theorem Sound.lt_of_column_lt (h : Sound limit i) (hc : i.column < c) :
    ∀ x ∈ i.levels ++ [0], x < c := by
  have hsorted := sorted_iff.1 h.sorted
  cases hl : i.levels with
  | nil =>
    rw [column, hl] at hc
    exact List.forall_mem_singleton.2 hc
  | cons a levels =>
    rw [column, hl] at hc
    rw [hl] at hsorted
    refine List.forall_mem_cons.2 ⟨hc, fun x hx => ?_⟩
    exact UInt64.lt_trans ((List.pairwise_cons.1 hsorted).1 x hx) hc

/-- All levels are closed where a line begins at the left margin. -/
theorem Sound.depth_eq_zero_iff (h : Sound limit i) : i.depth = 0 ↔ i.column = 0 := by
  have hsorted := sorted_iff.1 h.sorted
  rw [depth, column]
  cases hlevels : i.levels with
  | nil => exact iff_of_true rfl rfl
  | cons c levels =>
    rw [hlevels] at hsorted
    have hlt : 0 < c :=
      (List.pairwise_cons.1 hsorted).1 0 (List.mem_append_right _ List.mem_cons_self)
    exact iff_of_false (Nat.succ_ne_zero _) (UInt64.ne_of_lt hlt).symm

theorem Sound.closeTo (h : Sound limit i) (howed : i.owed = 0) (c : UInt64) :
    Sound limit (i.closeTo c) ∧ ((i.closeTo c).depth : Int) - (i.closeTo c).owed = i.depth := by
  have hsuffix : (i.closeTo c).levels <:+ i.levels := List.dropWhile_suffix _
  have hlength : (i.closeTo c).levels.length ≤ i.levels.length := hsuffix.length_le
  have howed' : (i.closeTo c).owed =
      i.owed - (i.levels.length - (i.closeTo c).levels.length : Nat) := rfl
  refine ⟨⟨?_, ?_, ?_, ?_⟩, ?_⟩
  · exact sorted_iff.2 ((sorted_iff.1 h.sorted).sublist (hsuffix.sublist.append (.refl [0])))
  · have hroom := h.room
    rw [length_stack, depth] at hroom ⊢
    omega
  · omega
  · rw [depth]
    omega
  · rw [depth, depth]
    omega

/-- Beginning a line keeps what holds of levels, and owes a token for each level
    that it opens or closes. Without a fault, the line begins at the innermost
    level. -/
theorem Sound.enter (h : Sound limit i) (howed : i.owed = 0) (henter : i.enter limit c = (j, f)) :
    Sound limit j ∧ (j.depth : Int) - j.owed = i.depth ∧ (f = none → j.column = c) := by
  rw [Indentation.enter] at henter
  split_ifs at henter with hlt hlimit
  · cases henter
    exact ⟨h, by omega, nofun⟩
  · cases henter
    refine ⟨⟨?_, ?_, ?_, ?_⟩, ?_, fun _ => rfl⟩
    · refine sorted_iff.2 (List.pairwise_cons.2 ⟨h.lt_of_column_lt hlt, sorted_iff.1 h.sorted⟩)
    · rw [length_stack, depth, List.length_cons]
      rw [depth] at hlimit
      omega
    · simp only [howed]
      omega
    · simp only [depth, List.length_cons, howed]
      omega
    · simp only [depth, List.length_cons, howed]
      omega
  · obtain ⟨rfl, rfl⟩ := Prod.mk.inj henter
    obtain ⟨hsound, hdepth⟩ := h.closeTo howed c
    refine ⟨hsound, hdepth, fun hf => ?_⟩
    split_ifs at hf with hc
    exact hc

/-- Beginning a line makes no more tokens than its levels: one that it opens, or
    those that it closes. -/
theorem weight_enter (henter : i.enter limit c = (j, f)) : j.depth + j.owed.natAbs ≤
    i.depth + i.owed.natAbs + if i.column < c then 2 else 0 := by
  rw [Indentation.enter] at henter
  split_ifs at henter ⊢ with hlt hlimit
  · cases henter
    omega
  · cases henter
    simp only [depth, List.length_cons]
    omega
  · obtain ⟨rfl, -⟩ := Prod.mk.inj henter
    have hlength : (i.closeTo c).levels.length ≤ i.levels.length :=
      (List.dropWhile_suffix _).length_le
    have howed : (i.closeTo c).owed =
      i.owed - (i.levels.length - (i.closeTo c).levels.length : Nat) := rfl
    rw [depth, depth]
    omega

/-- What is owed is told token by token. -/
theorem next?_eq_some (h : i.next? = some (kind, j)) : j.levels = i.levels ∧
    (kind = .dedent ∧ i.owed < 0 ∧ j.owed = i.owed + 1 ∨
      kind = .indent ∧ 0 < i.owed ∧ j.owed = i.owed - 1) := by
  rw [next?] at h
  split_ifs at h with hneg hpos
  · cases h
    exact ⟨rfl, .inl ⟨rfl, hneg, rfl⟩⟩
  · cases h
    exact ⟨rfl, .inr ⟨rfl, hpos, rfl⟩⟩

theorem owed_of_next?_eq_none (h : i.next? = none) : i.owed = 0 := by
  rw [next?] at h
  split_ifs at h with hneg hpos
  omega

theorem Sound.next? (h : Sound limit i) (hnext : i.next? = some (kind, j)) : Sound limit j := by
  obtain ⟨hlevels, howed⟩ := next?_eq_some hnext
  have hone := h.owed_le_one
  have hdepth := h.owed_le_depth
  rw [depth] at hdepth
  refine ⟨?_, ?_, ?_, ?_⟩
  · exact sorted_iff.2 (hlevels ▸ sorted_iff.1 h.sorted)
  · rw [length_stack, depth, hlevels, ← depth, ← length_stack]
    exact h.room
  · rcases howed with ⟨-, hneg, heq⟩ | ⟨-, hpos, heq⟩ <;> omega
  · rw [depth, hlevels]
    rcases howed with ⟨-, hneg, heq⟩ | ⟨-, hpos, heq⟩ <;> omega

end Indentation

end ScriptCore.Lexer
