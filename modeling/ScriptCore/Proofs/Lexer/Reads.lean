import ScriptCore.Proofs.Lexer.Agreement

/-!
# Reads

A text comes by one read or by many, and the tokens do not tell. Only a comment
that sets the tab size is looked for in the bytes at hand, and these differ, so
the text must not have any.

* `Alike`: inputs that cannot be told apart, where nothing sets the tab size, so
  that lexers with such inputs agree (`indistinct_alike`).
* `reads_unseen`: what follows for all ways to cut a text into pieces.
-/

namespace ScriptCore.Lexer

/-! ## Comments that set the tab size -/

/-- Whether a hash mark in a text is followed by the word that a directive
    begins with, perhaps after spaces. -/
def HasDirective (bs : Bytes) : Prop :=
  ∃ before after, bs = before ++ '#'.toUInt8 :: after ∧
    TabDirective.editorWord <+: TabDirective.skipSpaces after

theorem HasDirective.append_left {bs : Bytes} (h : HasDirective bs) (before : Bytes) :
    HasDirective (before ++ bs) := by
  obtain ⟨before', after, rfl, hword⟩ := h
  exact ⟨before ++ before', after, (List.append_assoc ..).symm, hword⟩

theorem not_hasDirective_nil : ¬HasDirective [] :=
  fun ⟨_, _, heq, _⟩ => List.append_ne_nil_of_right_ne_nil _ (List.cons_ne_nil _ _) heq.symm

theorem hasDirective_cons {b : UInt8} {bs : Bytes} : HasDirective (b :: bs) ↔
    (b = '#'.toUInt8 ∧ TabDirective.editorWord <+: TabDirective.skipSpaces bs) ∨
      HasDirective bs := by
  constructor
  · rintro ⟨before, after, heq, hword⟩
    rcases List.cons_eq_append_iff.1 heq with ⟨-, heq⟩ | ⟨before', -, heq⟩
    · obtain ⟨rfl, rfl⟩ := List.cons.inj heq
      exact .inl ⟨rfl, hword⟩
    · exact .inr ⟨before', after, heq, hword⟩
  · rintro (⟨rfl, hword⟩ | h)
    · exact ⟨[], bs, rfl, hword⟩
    · exact h.append_left [b]

instance decidableHasDirective : DecidablePred HasDirective
  | [] => isFalse not_hasDirective_nil
  | _ :: bs =>
    have := decidableHasDirective bs
    decidable_of_iff' _ hasDirective_cons

/-- Where the whole comment begins with another word, so does what is at hand of it. -/
theorem parse?_eq_none {pending after : Bytes} (h : ¬HasDirective ('#'.toUInt8 :: after))
    (hpending : pending <+: after) : TabDirective.parse? pending = none := by
  have hword : ¬TabDirective.editorWord <+: TabDirective.skipSpaces pending := fun hword => by
    obtain ⟨more, rfl⟩ := hpending
    refine h ⟨[], _, rfl, hword.trans ?_⟩
    rw [TabDirective.skipSpaces, TabDirective.skipSpaces, List.dropWhile_append]
    split_ifs with hempty
    · -- the word would have to fit into nothing
      rw [TabDirective.skipSpaces, List.isEmpty_iff.1 hempty] at hword
      exact absurd hword (by decide)
    · exact List.prefix_append _ _
  rw [TabDirective.parse?, TabDirective.after?, if_neg hword]
  rfl

/-! ## Inputs -/

namespace Input

variable {σ : Type} {i i' : Input} {b : UInt8}

theorem interruptible_advance (i : Input) :
    i.advance.source.interruptible = i.source.interruptible := by
  unfold advance
  split <;> rfl

theorem interruptible_fill (i : Input) :
    i.fill.source.interruptible = i.source.interruptible := by
  have hnext : i.source.next.2.interruptible = i.source.interruptible := by
    unfold Source.next
    split_ifs
    · rfl
    · split <;> rfl
  have hreceive : ∀ (j : Input) (r : Read),
      (j.receive r).source.interruptible = j.source.interruptible := fun j r => by
    fun_cases receive j r <;> rfl
  unfold fill
  split
  · exact (hreceive _ _).trans hnext
  · rfl

theorem interruptible_munch (p : Pattern σ) (s : σ) (i : Input) :
    (munch p s i).2.2.source.interruptible = i.source.interruptible :=
  munch_induction (P := fun j => j.source.interruptible = i.source.interruptible)
    (fun j h => j.interruptible_fill.trans h) (fun j _ _ h => j.interruptible_advance.trans h)
    p s rfl

/-- Whether an input goes on to its end without an interrupt and without a
    comment that sets the tab size. -/
structure Quiet (i : Input) : Prop where
  noDirective : ¬HasDirective i.rest
  ending : i.ending ≠ .interrupted
  steady : i.source.interruptible = false

theorem Quiet.munch (h : i.Quiet) (p : Pattern σ) (s : σ) : (Input.munch p s i).2.2.Quiet := by
  have hmunched := munched p s i
  refine ⟨fun hd => h.noDirective ?_, ?_, (interruptible_munch p s i).trans h.steady⟩
  · exact hmunched.rest ▸ hd.append_left _
  · exact hmunched.ending ▸ h.ending

theorem Quiet.advance (h : i.Quiet) (hb : i.head? = some b) : i.advance.Quiet where
  noDirective := fun hd => h.noDirective (rest_advance hb ▸ hd.append_left [b])
  ending := i.ending_advance ▸ h.ending
  steady := i.interruptible_advance.trans h.steady

theorem Quiet.fault (h : i.Quiet) (f : Fault) : Quiet { i with status := .malformed f } where
  noDirective := not_hasDirective_nil
  ending := nofun
  steady := h.steady

/-- No directive is at hand after a hash mark. -/
theorem Quiet.parse?_eq_none (h : i.Quiet) (hb : i.head? = some '#'.toUInt8) :
    TabDirective.parse? i.advance.pending = none := by
  have hok := (status_advance i).trans (exists_pending_of_head? hb).1
  exact Lexer.parse?_eq_none (rest_advance hb ▸ h.noDirective)
    (rest_of_ok hok ▸ List.prefix_append _ _)

/-- Whether inputs that are quiet cannot be told apart. -/
structure Alike (i i' : Input) : Prop where
  same : i.Same i'
  quiet : i.Quiet
  quiet' : i'.Quiet

theorem Alike.munch (h : i.Alike i') (p : Pattern σ) (s : σ) :
    ∃ bs s' j j', Input.munch p s i = (bs, s', j) ∧ Input.munch p s i' = (bs, s', j') ∧
      j.Alike j' ∧ (p.isComplete s' = false → j.head? = j'.head?) := by
  obtain ⟨bs, s', j, j', hm, hm', hsame, hhead⟩ := h.same.munch p s
  have hquiet := h.quiet.munch p s
  have hquiet' := h.quiet'.munch p s
  rw [hm] at hquiet
  rw [hm'] at hquiet'
  exact ⟨bs, s', j, j', hm, hm', ⟨hsame, hquiet, hquiet'⟩, hhead⟩

theorem Alike.advance (h : i.Alike i') (hb : i.head? = some b) (hb' : i'.head? = some b) :
    i.advance.Alike i'.advance :=
  ⟨h.same.advance hb hb', h.quiet.advance hb, h.quiet'.advance hb'⟩

theorem indistinct_alike : Indistinct Alike where
  same := Alike.same
  uninterrupted := fun {i _} h hs => h.quiet.ending (by
    rw [ending_of_ne_ok (by rw [hs]; exact nofun), hs])
  munch := fun h _ p s => by
    obtain ⟨bs, s', j, j', hm, hm', hj, -⟩ := h.munch p s
    rwa [hm, hm']
  advance := Alike.advance
  fault := fun h f => ⟨⟨rfl, rfl, rfl⟩, h.quiet.fault f, h.quiet'.fault f⟩
  directive := fun h hb hb' => by rw [h.quiet.parse?_eq_none hb, h.quiet'.parse?_eq_none hb']

end Input

/-! ## Interrupts -/

theorem Source.interrupt_eq_self {s : Source} (h : s.interruptible = false) : s.interrupt = s := by
  obtain ⟨reads, interruptible, interrupted⟩ := s
  obtain rfl : interruptible = false := h
  rw [interrupt, Bool.or_false]

/-- Where nothing can be interrupted, an interrupt does nothing. -/
theorem interrupt_eq_self {l : Lexer} (h : l.input.Quiet) : l.interrupt = l := by
  rw [interrupt, Source.interrupt_eq_self h.steady]

theorem Match.interrupt {l l' : Lexer} (h : Match Input.Alike l l') :
    Match Input.Alike l.interrupt l'.interrupt := by
  have hinput := h.agree.input
  rwa [interrupt_eq_self hinput.quiet, interrupt_eq_self hinput.quiet']

/-! ## A text in pieces -/

section Start

variable {pieces pieces' : List Bytes}

theorem quiet_start (hpieces : ∀ p ∈ pieces, p ≠ []) (h : ¬HasDirective pieces.flatten)
    (options : Options) : (start (.ofPieces pieces) options).input.Quiet where
  noDirective := (rest_start (Source.delivers_ofPieces hpieces) options).symm ▸ h
  ending := (ending_start (Source.delivers_ofPieces hpieces) options).symm ▸ nofun
  steady := rfl

theorem match_start (hpieces : ∀ p ∈ pieces, p ≠ []) (hpieces' : ∀ p ∈ pieces', p ≠ [])
    (hflatten : pieces.flatten = pieces'.flatten) (h : ¬HasDirective pieces.flatten)
    (options : Options) :
    Match Input.Alike (start (.ofPieces pieces) options) (start (.ofPieces pieces') options) where
  agree := .mk ⟨Input.same_start (Source.delivers_ofPieces hpieces)
      (hflatten ▸ Source.delivers_ofPieces hpieces') options,
    quiet_start hpieces h options, quiet_start hpieces' (hflatten ▸ h) options⟩
  tabSize := rfl

end Start

/-- Reads do not show in the tokens: where no comment may set the tab size, a text
    that comes in pieces is handed out, by a run and by any calls, as if it came
    in one read. -/
theorem reads_unseen {pieces : List Bytes} (hpieces : ∀ p ∈ pieces, p ≠ [])
    (hdirective : ¬HasDirective pieces.flatten) (options : Options) :
    (start (.ofPieces pieces) options).run.map seen =
        (start (.ofBytes pieces.flatten) options).run.map seen ∧
      ∀ calls : List Call,
        let h := (History.start (.ofPieces pieces) options).calls calls
        let h' := (History.start (.ofBytes pieces.flatten) options).calls calls
        h.events = h'.events ∧ h.lexer.answers = h'.lexer.answers := by
  obtain ⟨pieces', heq, hpieces', hflatten⟩ := Source.exists_ofPieces_eq_ofBytes pieces.flatten
  have hmatch := match_start hpieces hpieces' hflatten.symm hdirective options
  have hsize : (Source.ofPieces pieces).size = (Source.ofPieces pieces').size := by
    rw [Source.size_ofPieces, Source.size_ofPieces, hflatten]
  rw [heq]
  refine ⟨?_, fun calls => ?_⟩
  · exact hmatch.run Input.indistinct_alike (bound_start hsize options)
  · have hstart : (History.start (.ofPieces pieces) options).events =
        (History.start (.ofPieces pieces') options).events := rfl
    obtain ⟨hcalls, hevents⟩ := hmatch.calls Input.indistinct_alike hstart calls
      fun _ _ _ => Match.interrupt
    exact ⟨hevents, hcalls.answers Input.indistinct_alike⟩

/-- The text `ab# vi:`, a newline and `c`, cut in its name and in its comment. -/
theorem reads_unseen_of_comment :
    let pieces : List Bytes := ["a", "b# v", "i:\nc"].map (·.toList.map Char.toUInt8)
    (∀ p ∈ pieces, p ≠ []) ∧ ¬HasDirective pieces.flatten ∧
      (start (.ofPieces pieces) {}).run.map seen =
        (start (.ofBytes pieces.flatten) {}).run.map seen :=
  ⟨by decide, by decide, (reads_unseen (by decide) (by decide) {}).1⟩

end ScriptCore.Lexer
