import ScriptCore.Proofs.Lexer.Agreement

/-!
# Prompts

Prompts are shown, and nothing else comes of them: whatever is to be shown, the same tokens are
handed out, with the same answers after each.

* `Input.Prompted`: inputs that differ only in what is to be shown and was shown.
* `Input.indistinct_prompted`: they cannot be told apart by taking bytes.
* `prompts_unseen`: what follows for all sources that are not interrupted.
-/

namespace ScriptCore.Lexer

variable {b : UInt8}

namespace Input

variable {i i' : Input}

/-- Whether an input is another one but for what is to be shown and was shown. -/
inductive Prompted (i : Input) : Input → Prop
  | mk (prompts : Prompts) (due : Option String) (shown : List String) :
    Prompted i { i with prompts, due, shown }

theorem Prompted.showPrompt (h : i.Prompted i') : i.showPrompt.Prompted i'.showPrompt := by
  obtain ⟨prompts, due', shown⟩ := h
  obtain ⟨_, _, due, _, _, midLine, _⟩ := i
  cases midLine <;> cases due <;> cases due' <;> exact .mk _ _ _

theorem Prompted.receive (h : i.Prompted i') (r : Read) :
    (i.receive r).Prompted (i'.receive r) := by
  obtain ⟨prompts, due, shown⟩ := h
  fun_cases Input.receive i r <;> exact .mk _ _ _

theorem Prompted.withSource (h : i.Prompted i') (source : Source) :
    Prompted { i with source } { i' with source } := by
  obtain ⟨prompts, due, shown⟩ := h
  exact .mk _ _ _

theorem Prompted.fill (h : i.Prompted i') : i.fill.Prompted i'.fill := by
  have hread : ∀ r : Read × Source,
      ({ i.showPrompt with source := r.2 }.receive r.1).Prompted
        ({ i'.showPrompt with source := r.2 }.receive r.1) := fun r =>
    (h.showPrompt.withSource r.2).receive r.1
  obtain ⟨prompts, due, shown⟩ := h
  simp only [Input.fill]
  split
  · exact hread _
  · exact .mk _ _ _

theorem Prompted.advance (h : i.Prompted i') : i.advance.Prompted i'.advance := by
  obtain ⟨prompts, due, shown⟩ := h
  obtain ⟨_, _, _, _, pending, _, _⟩ := i
  cases pending <;> exact .mk _ _ _

theorem Prompted.same (h : i.Prompted i') : i.Same i' := by
  obtain ⟨prompts, due, shown⟩ := h
  exact ⟨rfl, rfl, rfl⟩

theorem Prompted.head? (h : i.Prompted i') : i.head? = i'.head? := by
  obtain ⟨prompts, due, shown⟩ := h
  rfl

theorem Prompted.pending (h : i.Prompted i') : i.pending = i'.pending := by
  obtain ⟨prompts, due, shown⟩ := h
  rfl

theorem Prompted.munch {σ : Type} (h : i.Prompted i') (p : Pattern σ) (s : σ) :
    (Input.munch p s i).2.2.Prompted (Input.munch p s i').2.2 := by
  have hhead : ∀ {i i' : Input}, i.Prompted i' → i'.fill.head? = i.fill.head? := fun h =>
    h.fill.head?.symm
  fun_induction Input.munch p s i generalizing i'
  case case1 s i hc => rwa [munch_of_isComplete hc]
  case case2 s i hc hb =>
    rw [munch_of_head?_eq_none (Bool.eq_false_iff.2 hc) ((hhead h).trans hb)]
    exact h.fill
  case case3 s i hc b hb hstep =>
    rw [munch_of_step_eq_none (Bool.eq_false_iff.2 hc) ((hhead h).trans hb) hstep]
    exact h.fill
  case case4 s i hc b hb s' hstep r ih =>
    rw [munch_of_step_eq_some (Bool.eq_false_iff.2 hc) ((hhead h).trans hb) hstep]
    exact ih h.fill.advance

theorem Prompted.fault (h : i.Prompted i') (f : Fault) :
    Prompted { i with status := .malformed f } { i' with status := .malformed f } := by
  obtain ⟨prompts, due, shown⟩ := h
  exact .mk _ _ _

/-- Such inputs cannot be told apart, if no read is interrupted. -/
theorem indistinct_prompted : Indistinct fun i i' => Prompted i i' ∧ i.ending ≠ .interrupted where
  same h := h.1.same
  uninterrupted := fun {i _} h hs => h.2 (by rw [ending_of_ne_ok (by rw [hs]; exact nofun), hs])
  munch := fun {i _} h _ p s => ⟨h.1.munch p s, (munched p s i).ending ▸ h.2⟩
  advance := fun {i _ _} h _ _ => ⟨h.1.advance, i.ending_advance ▸ h.2⟩
  fault h f := ⟨h.1.fault f, nofun⟩
  directive h _ _ := congrArg TabDirective.parse? h.1.advance.pending

end Input

/-! ## Lexers -/

theorem match_prompts {source : Source} (hsource : source.flow.2 ≠ .interrupted)
    (options : Options) (prompts : Prompts) :
    Match (fun i i' => Input.Prompted i i' ∧ i.ending ≠ .interrupted) (start source options)
      (start source { options with prompts }) where
  agree := .mk ⟨.mk prompts prompts.first [], hsource⟩
  tabSize := rfl

/-- **Prompts are unseen.** Whatever the prompts are, a run on a source that is not interrupted
    hands out the same tokens, with the same answers after each. -/
theorem prompts_unseen {source : Source} (hsource : source.flow.2 ≠ .interrupted)
    (options : Options) (prompts : Prompts) :
    (start source { options with prompts }).run.map seen = (start source options).run.map seen :=
  ((match_prompts hsource options prompts).run Input.indistinct_prompted rfl).symm

theorem tokens_prompts {source : Source} {bs : Bytes} (hsource : source.Delivers bs)
    (options : Options) (prompts : Prompts) :
    (start source { options with prompts }).tokens = (start source options).tokens := by
  have hflow : source.flow.2 ≠ .interrupted := by rw [hsource]; exact nofun
  have hseen := congrArg (List.map Prod.fst) (prompts_unseen hflow options prompts)
  rwa [List.map_map, List.map_map] at hseen

end ScriptCore.Lexer
