import ScriptCore.Proofs.Lexer.Interrupts

/-!
# The length of a run

Every run comes to an end by itself, whatever its source answers. A token takes the
bytes of its lexeme, and a level that is opened takes at least one of the blanks in
front of it, so a byte is good for two tokens at most: its own, or the one that opens
a level and the one that closes it.

* `Input.iterate_munchBy`: taking bytes by a pattern ends by itself, after as many steps as
  bytes are left and one. This is the only loop of the lexer.
* `Scans.taken`: the bytes that are taken for a token are those of its lexeme.
* `Ends`: how the tokens of a run end (`exists_runFor`).
* `run_ends`: what follows for all sources.
-/

namespace ScriptCore.Lexer

open Token (Kind)

variable {l l' : Lexer} {x : Lexeme} {n m : Nat}

/-! ## The steps of a token -/

namespace Input

/-- A step of taking bytes by a pattern, in which `rest` takes the bytes after the
    first one. -/
def munchBy {σ : Type} (p : Pattern σ) (rest : σ → Input → Bytes × σ × Input) (s : σ)
    (i : Input) : Bytes × σ × Input :=
  if p.isComplete s then ([], s, i)
  else
    match i.fill.head? with
    | none => ([], s, i.fill)
    | some b =>
      match p.step s b with
      | none => ([], s, i.fill)
      | some s' => (b :: (rest s' i.fill.advance).1, (rest s' i.fill.advance).2)

/-- With more steps than bytes are left, it does not matter what is done after them. -/
theorem iterate_munchBy {σ : Type} (p : Pattern σ) (limit : σ → Input → Bytes × σ × Input)
    (s : σ) {i : Input} (hn : i.remaining < n) : (munchBy p)^[n] limit s i = munch p s i := by
  induction n generalizing s i with
  | zero => exact absurd hn (Nat.not_lt_zero _)
  | succ n ih =>
    rw [Function.iterate_succ_apply', munchBy, munch]
    split_ifs
    · rfl
    · cases hb : i.fill.head? with
      | none => rfl
      | some b =>
        cases hs : p.step s b with
        | none => simp only [hs]
        | some s' =>
          -- the step takes a byte, so fewer are left for the others
          have hremaining := remaining_advance hb
          rw [remaining_fill] at hremaining
          simp only [hs, ih s' (i := i.fill.advance) (by omega)]

end Input

theorem remaining_fault (l : Lexer) (f : Fault) :
    (l.fault f).input.remaining = l.input.remaining := by
  rw [fault]
  split_ifs <;> rfl

theorem Takes.taken (h : Takes l x l') :
    (x.skipped ++ x.bytes).length + l'.input.remaining = l.input.remaining := by
  cases h with
  | spelled _ _ hskips => exact hskips.remaining
  | newline _ hskips => exact hskips.remaining
  | endMarker _ hskips _ => exact (List.append_nil _).symm ▸ hskips.remaining
  | stopped hskips _ => exact (List.append_nil _).symm ▸ hskips.remaining
  | fault f hskips =>
    rw [remaining_fault]
    exact hskips.remaining

theorem Begins.taken {blanks : Bytes} {f : Option Fault} (h : Begins l blanks f l') :
    blanks.length + l'.input.remaining = l.input.remaining := by
  cases h with
  | within => exact Nat.zero_add _
  | stopped _ hskips _ => exact hskips.remaining
  | entered _ hskips _ _ _ => exact hskips.remaining

/-- The bytes that are taken for a token are those of its lexeme. -/
theorem Scans.taken (h : Scans l x l') :
    (x.skipped ++ x.bytes).length + l'.input.remaining = l.input.remaining := by
  cases h with
  | fault hbegin =>
    rw [List.append_nil, remaining_fault]
    exact (begins_of_eq hbegin).taken
  | stopped hbegin _ => exact (List.append_nil _).symm ▸ (begins_of_eq hbegin).taken
  | level hbegin _ _ => exact (List.append_nil _).symm ▸ (begins_of_eq hbegin).taken
  | token hbegin _ _ htakes =>
    have hbegins := (begins_of_eq hbegin).taken
    have htoken := htakes.taken
    simp only [List.length_append] at htoken ⊢
    omega

/-! ## The tokens of a run -/

/-- Whether the kinds of some tokens end as those of a run: with an end marker, with an
    error in front of it or not, and with neither before. -/
inductive Ends : List Kind → Prop
  | endMarker : Ends [.endMarker]
  | error : Ends [.error, .endMarker]
  | cons {kind kinds} : kind ≠ .error → kind ≠ .endMarker → Ends kinds → Ends (kind :: kinds)

theorem Ends.exists_concat {kinds : List Kind} (h : Ends kinds) :
    ∃ before, kinds = before ++ [.endMarker] ∧ ∀ kind ∈ before, kind ≠ .endMarker := by
  induction h with
  | endMarker => exact ⟨[], rfl, List.forall_mem_nil _⟩
  | error => exact ⟨[.error], rfl, List.forall_mem_singleton.2 nofun⟩
  | cons _ hend _ ih =>
    obtain ⟨before, rfl, hbefore⟩ := ih
    exact ⟨_ :: before, rfl, List.forall_mem_cons.2 ⟨hend, hbefore⟩⟩

theorem Ends.count_error_le {kinds : List Kind} (h : Ends kinds) : kinds.count .error ≤ 1 := by
  induction h with
  | endMarker => exact Nat.zero_le _
  | error => exact Nat.le_refl _
  | cons herror _ _ ih => rwa [List.count_cons_of_ne herror]

/-- After an error there is one more token. -/
theorem runFor_of_latched (hlatched : l.latched = true) (hfinished : l.finished = false) (n : Nat) :
    l.runFor (n + 1) = [({ kind := .endMarker, text := "", line := l.line }, l.behind)] := by
  have hget : l.get = ({ kind := .endMarker, text := "", line := l.line }, l) := by
    rw [Lexer.get, if_pos hlatched]
  have hbehind : l.behind.finished = true := finished_behind.2 (by rw [hget])
  rw [runFor_eq_cons hfinished, runFor_of_finished hbehind, hget]

/-- A run comes to its end within the bound, and does not go on from there. -/
theorem exists_runFor (hlatched : l.latched = false) (hfinished : l.finished = false)
    (hn : l.bound ≤ n + 1) : ∃ rs : List (Token × Lexer), Ends (rs.map (·.1.kind)) ∧
      rs.length ≤ n ∧ ∀ m, n ≤ m → l.runFor m = rs := by
  -- the induction is on the tokens that there is room for, which the bound is lowered with
  induction n generalizing l with
  | zero => exact absurd hn (by rw [bound]; omega)
  | succ n ih =>
    by_cases hend : l.get.1.kind = .endMarker
    · refine ⟨[(l.get.1, l.behind)], ?_, Nat.le_add_left _ _, fun m hm => ?_⟩
      · rw [List.map_singleton, hend]
        exact .endMarker
      · obtain ⟨m, rfl⟩ := Nat.exists_eq_add_of_lt hm
        rw [runFor_eq_cons hfinished, runFor_of_finished (finished_behind.2 hend)]
    have hfinished' : l.behind.finished = false :=
      Bool.eq_false_iff.2 (mt finished_behind.1 hend)
    by_cases herror : l.get.1.kind = .error
    · have hlatched' : l.behind.latched = true := latched_behind.2 (.inr herror)
      have hroom : 2 ≤ n + 1 := by
        rw [bound] at hn
        omega
      refine ⟨[(l.get.1, l.behind),
        ({ kind := .endMarker, text := "", line := l.behind.line }, l.behind.behind)], ?_, hroom,
        fun m hm => ?_⟩
      · rw [List.map_cons, herror]
        exact .error
      · obtain ⟨m, rfl⟩ := Nat.exists_eq_add_of_le (hroom.trans hm)
        rw [Nat.add_comm, runFor_eq_cons hfinished, runFor_of_latched hlatched' hfinished']
    · have hlatched' : l.behind.latched = false :=
        Bool.eq_false_iff.2 (mt latched_behind.1 (by simp [hlatched, herror]))
      have hlt := bound_behind_lt hlatched herror hend
      obtain ⟨rs, hends, hlength, heq⟩ := ih hlatched' hfinished' (by omega)
      refine ⟨(l.get.1, l.behind) :: rs, .cons herror hend hends, Nat.succ_le_succ hlength,
        fun m hm => ?_⟩
      obtain ⟨m, rfl⟩ : ∃ k, m = k + 1 := Nat.exists_eq_add_one.2 (by omega)
      rw [runFor_eq_cons hfinished, heq m (Nat.le_of_succ_le_succ hm)]

/-! ## Every run -/

/-- Tokens always come to an end. A lexer takes bytes in loops that end by themselves, each
    after as many steps as bytes are left, and one; and for a token it takes those of its
    lexeme. A run on a source that brings `n` bytes, in whatever pieces and with whatever
    other answers, has no more than `2 * n + 2` tokens, the last of which is the only end
    marker, and no more than one error. No more tokens come, however many are asked for. -/
theorem run_ends (source : Source) (options : Options) :
    let l := start source options
    (∀ {σ : Type} (p : Pattern σ) (limit : σ → Input → Bytes × σ × Input) (s : σ) (i : Input) n,
        i.remaining < n → (Input.munchBy p)^[n] limit s i = Input.munch p s i) ∧
      (∀ l' : Lexer, (l'.scan.1.skipped ++ l'.scan.1.bytes).length +
        l'.scan.2.input.remaining = l'.input.remaining) ∧
      l.tokens.length ≤ 2 * source.size + 2 ∧
      (∃ ts t, l.tokens = ts ++ [t] ∧ t.kind = .endMarker ∧ ∀ t' ∈ ts, t'.kind ≠ .endMarker) ∧
      l.tokens.countP (·.kind = .error) ≤ 1 ∧
      ∀ n, 2 * source.size + 2 ≤ n → l.runFor n = l.run := by
  intro l
  have hbound : l.bound = 2 * source.size + 3 :=
    congrArg (· + 3) (congrArg (2 * ·) (Nat.zero_add source.size))
  obtain ⟨rs, hends, hlength, heq⟩ :=
    exists_runFor (l := l) (n := 2 * source.size + 2) rfl rfl (Nat.le_of_eq hbound)
  have hrun : l.run = rs := heq l.bound (by omega)
  have htokens : l.tokens = rs.map (·.1) := by rw [tokens, hrun]
  have hkinds : l.tokens.map (·.kind) = rs.map (·.1.kind) := by
    rw [htokens, List.map_map]
    rfl
  refine ⟨fun p limit s i n => Input.iterate_munchBy p limit s, fun l' => (scans_scan l').taken,
    ?_, ?_, ?_, fun n hn => (heq n hn).trans hrun.symm⟩
  · rw [htokens, List.length_map]
    exact hlength
  · obtain ⟨before, hbefore, hne⟩ := hends.exists_concat
    obtain ⟨ts, ts', hts, rfl, hts'⟩ := List.map_eq_append_iff.1 (hkinds.trans hbefore)
    obtain ⟨t, rfl, ht⟩ := List.map_eq_singleton_iff.1 hts'
    exact ⟨ts, t, hts, ht, fun t' ht' => hne _ (List.mem_map_of_mem ht')⟩
  · have hcount := hends.count_error_le
    rwa [← hkinds, List.count, List.countP_map] at hcount

end ScriptCore.Lexer
