import Mathlib.Tactic.SplitIfs
import ScriptCore.Lexer.Input

/-!
# The bytes of an input

An input hands out bytes one at a time, and it does not matter by which reads
they came. What matters is the bytes that are left to take (`Input.rest`), up
to the first read that brings none, and how things will stand then
(`Input.ending`).

* `Pattern.run`: the longest run of bytes that a pattern accepts.
* `Source.ofPieces`: a text that comes in pieces; `Source.Delivers`: a text that
  comes in any way.
* `munched`: taking the bytes of a pattern takes this run of the bytes that are
  left, and looks at the next byte unless the pattern is complete.
* `Same`: inputs that cannot be told apart by taking bytes.
-/

namespace ScriptCore.Lexer

/-! ## Patterns -/

section Pattern

variable {σ : Type} {p : Pattern σ} {s : σ} {b : UInt8} {bs : Bytes}

/-- The longest run of bytes that a pattern accepts from the place `s`, and the
    place it ends at. -/
def Pattern.run (p : Pattern σ) (s : σ) : Bytes → Bytes × σ
  | [] => ([], s)
  | b :: bs =>
    if p.isComplete s then ([], s)
    else match p.step s b with
      | none => ([], s)
      | some s' => (b :: (p.run s' bs).1, (p.run s' bs).2)

theorem Pattern.run_of_isComplete (h : p.isComplete s = true) : p.run s bs = ([], s) := by
  cases bs with
  | nil => rfl
  | cons b bs => rw [run, if_pos h]

theorem Pattern.run_cons_none (h : p.step s b = none) : p.run s (b :: bs) = ([], s) := by
  rw [run, h, ite_self]

theorem Pattern.run_cons_some {s' : σ} (hc : p.isComplete s = false) (h : p.step s b = some s') :
    p.run s (b :: bs) = (b :: (p.run s' bs).1, (p.run s' bs).2) := by
  rw [run, h, hc, if_neg Bool.false_ne_true]

/-- What holds of a place and is kept by each step holds of the place of a run's end. -/
theorem Pattern.place_run {P : σ → Prop} (hstep : ∀ s b s', P s → p.step s b = some s' → P s')
    (hs : P s) (bs : Bytes) : P (p.run s bs).2 := by
  induction bs generalizing s with
  | nil => exact hs
  | cons b bs ih =>
    rw [run]
    split_ifs with hc
    · exact hs
    · cases h : p.step s b with
      | none => exact hs
      | some s' => exact ih (hstep s b s' hs h)

/-- A run ends where the pattern is complete, or before a byte that it does not
    accept. -/
theorem Pattern.stop_run {s' : σ} {taken : Bytes} (h : p.run s (taken ++ b :: bs) = (taken, s')) :
    p.isComplete s' = true ∨ p.step s' b = none := by
  induction taken generalizing s with
  | nil =>
    rw [List.nil_append, run] at h
    split_ifs at h with hc
    · cases h
      exact .inl hc
    · cases hstep : p.step s b with
      | none =>
        rw [hstep] at h
        cases h
        exact .inr hstep
      | some t =>
        rw [hstep] at h
        cases h
  | cons a taken ih =>
    rw [List.cons_append, run] at h
    split_ifs at h with hc
    · cases h
    · cases hstep : p.step s a with
      | none =>
        rw [hstep] at h
        cases h
      | some t =>
        rw [hstep] at h
        obtain ⟨htaken, hs⟩ := Prod.mk.inj h
        exact ih (Prod.ext (List.cons.inj htaken).2 hs)

/-- What holds of each byte that a step takes holds of the bytes of a run. -/
theorem Pattern.forall_mem_run {P : UInt8 → Prop}
    (hstep : ∀ s b s', p.step s b = some s' → P b) (s : σ) (bs : Bytes) :
    ∀ b ∈ (p.run s bs).1, P b := by
  induction bs generalizing s with
  | nil => exact fun b hb => nomatch hb
  | cons b bs ih =>
    rw [run]
    split_ifs with hc
    · exact fun b hb => nomatch hb
    · cases h : p.step s b with
      | none => exact fun b hb => nomatch hb
      | some s' => exact List.forall_mem_cons.2 ⟨hstep s b s' h, ih s'⟩

theorem Pattern.run_while (test : UInt8 → Bool) (bs : Bytes) :
    (Pattern.while test).run () bs = (bs.takeWhile test, ()) := by
  induction bs with
  | nil => rfl
  | cons b bs ih =>
    rw [List.takeWhile_cons]
    cases hb : test b with
    | true =>
      have hstep : (Pattern.while test).step () b = some () := if_pos hb
      rw [run_cons_some rfl hstep, ih]
      rfl
    | false =>
      have hstep : (Pattern.while test).step () b = none := if_neg (by rw [hb]; exact nofun)
      rw [run_cons_none hstep]
      rfl

end Pattern

/-! ## What a source will bring -/

/-- What the answers of a source bring up to the first one that brings nothing,
    and how things stand then. -/
def Read.flow : List Read → Bytes × Status
  | .bytes (b :: bs) :: rs => (b :: bs ++ (flow rs).1, (flow rs).2)
  | .interrupted :: _ => ([], .interrupted)
  | .failed reason :: _ => ([], .failed reason)
  | _ => ([], .endOfInput)

/-- What a source brings up to the first read that brings nothing, and how things
    stand then. -/
def Source.flow (s : Source) : Bytes × Status :=
  if s.interrupted then ([], .interrupted) else Read.flow s.reads

theorem Source.flow_ne_ok (s : Source) : s.flow.2 ≠ .ok := by
  obtain ⟨reads, _, interrupted⟩ := s
  cases interrupted with
  | true => exact nofun
  | false =>
    show (Read.flow reads).2 ≠ .ok
    fun_induction Read.flow reads with
    | case1 b bs rs ih => exact ih
    | case2 => exact nofun
    | case3 => exact nofun
    | case4 => exact nofun

/-- A read brings bytes, or the input stops. -/
theorem Source.next_cases (s : Source) :
    (∃ b bs, s.next.1 = .bytes (b :: bs) ∧
      s.flow = (b :: bs ++ s.next.2.flow.1, s.next.2.flow.2)) ∨
    s.flow.1 = [] ∧ ∀ i : Input, i.receive s.next.1 = i.stop s.flow.2 := by
  obtain ⟨reads, _, interrupted⟩ := s
  cases interrupted with
  | true => exact .inr ⟨rfl, fun _ => rfl⟩
  | false =>
    match reads with
    | [] => exact .inr ⟨rfl, fun _ => rfl⟩
    | .bytes [] :: _ => exact .inr ⟨rfl, fun _ => rfl⟩
    | .endOfInput :: _ => exact .inr ⟨rfl, fun _ => rfl⟩
    | .interrupted :: _ => exact .inr ⟨rfl, fun _ => rfl⟩
    | .failed _ :: _ => exact .inr ⟨rfl, fun _ => rfl⟩
    | .bytes (b :: bs) :: _ => exact .inl ⟨b, bs, rfl, rfl⟩

/-! ## A text in pieces -/

namespace Source

/-- A text that comes in one read for each of its pieces. -/
def ofPieces (pieces : List Bytes) : Source where
  reads := pieces.map .bytes

theorem flow_ofPieces {pieces : List Bytes} (h : ∀ p ∈ pieces, p ≠ []) :
    (ofPieces pieces).flow = (pieces.flatten, .endOfInput) := by
  show Read.flow (pieces.map .bytes) = _
  induction pieces with
  | nil => rfl
  | cons p pieces ih =>
    obtain ⟨hp, hpieces⟩ := List.forall_mem_cons.1 h
    obtain ⟨b, bs, rfl⟩ := List.exists_cons_of_ne_nil hp
    rw [List.map_cons, Read.flow, ih hpieces, List.flatten_cons]

theorem ne_nil_of_mem_lines {bs l : Bytes} (h : l ∈ lines bs) : l ≠ [] := by
  induction bs generalizing l with
  | nil => cases h
  | cons b bs ih =>
    rw [lines] at h
    split_ifs at h with hb
    · rcases List.mem_cons.1 h with rfl | h
      · exact List.cons_ne_nil _ _
      · exact ih h
    · cases hlines : lines bs with
      | nil =>
        rw [hlines] at h
        exact List.mem_singleton.1 h ▸ List.cons_ne_nil _ _
      | cons m ms =>
        rw [hlines] at h ih
        rcases List.mem_cons.1 h with rfl | h
        · exact List.cons_ne_nil _ _
        · exact ih (List.mem_cons_of_mem m h)

/-- Whether a source brings a text, by whatever reads, and then its end. -/
def Delivers (s : Source) (bs : Bytes) : Prop :=
  s.flow = (bs, .endOfInput)

theorem delivers_ofPieces {pieces : List Bytes} (h : ∀ p ∈ pieces, p ≠ []) :
    (ofPieces pieces).Delivers pieces.flatten :=
  flow_ofPieces h

theorem delivers_ofLines (bs : Bytes) : (ofLines bs).Delivers bs := by
  have h := flow_ofPieces fun l (hl : l ∈ lines bs) => ne_nil_of_mem_lines hl
  rwa [flatten_lines] at h

theorem size_ofPieces (pieces : List Bytes) : (ofPieces pieces).size = pieces.flatten.length := by
  show (pieces.map Read.bytes).foldr (fun r n => r.size + n) 0 = _
  induction pieces with
  | nil => rfl
  | cons p pieces ih =>
    rw [List.map_cons, List.foldr_cons, ih, List.flatten_cons, List.length_append]
    rfl

/-- One read is one piece, if it brings anything. -/
theorem exists_ofPieces_eq_ofBytes (bs : Bytes) :
    ∃ pieces : List Bytes, ofBytes bs = ofPieces pieces ∧ (∀ p ∈ pieces, p ≠ []) ∧
      pieces.flatten = bs := by
  by_cases hbs : bs = []
  · exact ⟨[], by rw [ofBytes, if_pos hbs]; rfl, nofun, hbs.symm⟩
  · exact ⟨[bs], by rw [ofBytes, if_neg hbs]; rfl, List.forall_mem_singleton.2 hbs,
      List.append_nil bs⟩

theorem delivers_ofBytes (bs : Bytes) : (ofBytes bs).Delivers bs := by
  obtain ⟨pieces, heq, hpieces, hflatten⟩ := exists_ofPieces_eq_ofBytes bs
  rw [heq, ← hflatten]
  exact delivers_ofPieces hpieces

theorem size_ofBytes (bs : Bytes) : (ofBytes bs).size = bs.length := by
  obtain ⟨pieces, heq, -, hflatten⟩ := exists_ofPieces_eq_ofBytes bs
  rw [heq, size_ofPieces, hflatten]

theorem size_ofLines (bs : Bytes) : (ofLines bs).size = bs.length :=
  (size_ofPieces (lines bs)).trans (congrArg List.length (flatten_lines bs))

end Source

/-! ## What is left of an input -/

namespace Input

variable {i i' : Input} {b : UInt8}

/-- The bytes that are left to take. -/
def rest (i : Input) : Bytes :=
  if i.status = .ok then i.pending ++ i.source.flow.1 else []

/-- How things stand when these bytes are taken and another one is asked for. -/
def ending (i : Input) : Status :=
  if i.status = .ok then i.source.flow.2 else i.status

theorem rest_of_ok (h : i.status = .ok) : i.rest = i.pending ++ i.source.flow.1 := if_pos h

theorem rest_of_ne_ok (h : i.status ≠ .ok) : i.rest = [] := if_neg h

theorem ending_of_ok (h : i.status = .ok) : i.ending = i.source.flow.2 := if_pos h

theorem ending_of_ne_ok (h : i.status ≠ .ok) : i.ending = i.status := if_neg h

theorem ending_ne_ok (i : Input) : i.ending ≠ .ok := by
  by_cases hs : i.status = .ok
  · rw [ending_of_ok hs]
    exact i.source.flow_ne_ok
  · rwa [ending_of_ne_ok hs]

theorem status_of_rest_ne_nil (h : i.rest ≠ []) : i.status = .ok :=
  Decidable.not_not.1 fun hs => h (rest_of_ne_ok hs)

/-! ## Looking at a byte, and taking it -/

theorem status_showPrompt (i : Input) : i.showPrompt.status = i.status := by
  unfold showPrompt
  split
  · rfl
  · split <;> rfl

theorem fill_of_ne_ok (h : i.status ≠ .ok) : i.fill = i := by
  unfold fill
  split
  · next hok _ => exact absurd hok h
  · rfl

/-- After an attempt to read, the next byte is at hand, or none is left and
    reading has stopped. -/
theorem fill_cases (i : Input) :
    (∃ b bs, i.rest = b :: bs ∧ i.fill.status = .ok ∧ i.fill.head? = some b ∧
      i.fill.rest = i.rest ∧ i.fill.ending = i.ending) ∨
    i.rest = [] ∧ i.fill.status = i.ending := by
  by_cases hs : i.status = .ok
  · cases hp : i.pending with
    | cons b bs =>
      have hfill : i.fill = i := by
        unfold fill
        split
        · next h => exact absurd (hp.symm.trans h) (List.cons_ne_nil b bs)
        · rfl
      refine .inl ⟨b, bs ++ i.source.flow.1, ?_, by rwa [hfill], ?_, by rw [hfill], by rw [hfill]⟩
      · rw [rest_of_ok hs, hp, List.cons_append]
      · rw [hfill, head?, if_pos hs, hp, List.head?_cons]
    | nil =>
      have hfill : i.fill = ({ i.showPrompt with source := i.source.next.2 }).receive
          i.source.next.1 := by
        unfold fill
        rw [hs, hp]
      have hshow : i.showPrompt.status = .ok := (status_showPrompt i).trans hs
      rcases i.source.next_cases with ⟨b, bs, hread, hflow⟩ | ⟨hflow, hstop⟩
      · rw [hread] at hfill
        have hok : i.fill.status = .ok := by rw [hfill]; exact hshow
        have hrest : i.rest = b :: (bs ++ i.source.next.2.flow.1) := by
          rw [rest_of_ok hs, hp, hflow, List.nil_append, List.cons_append]
        refine .inl ⟨b, _, hrest, hok, ?_, ?_, ?_⟩
        · rw [head?, if_pos hok, hfill]
          rfl
        · rw [rest_of_ok hok, hrest, hfill]
          rfl
        · rw [ending_of_ok hok, ending_of_ok hs, hflow, hfill]
          rfl
      · refine .inr ⟨?_, ?_⟩
        · rw [rest_of_ok hs, hp, hflow, List.append_nil]
        · rw [hfill, hstop, ending_of_ok hs]
          rfl
  · exact .inr ⟨rest_of_ne_ok hs, by rw [fill_of_ne_ok hs, ending_of_ne_ok hs]⟩

theorem head?_fill (i : Input) : i.fill.head? = i.rest.head? := by
  rcases i.fill_cases with ⟨b, bs, hrest, -, hhead, -⟩ | ⟨hrest, hstatus⟩
  · rw [hhead, hrest, List.head?_cons]
  · rw [head?, if_neg (hstatus ▸ i.ending_ne_ok), hrest, List.head?_nil]

theorem rest_fill (i : Input) : i.fill.rest = i.rest := by
  rcases i.fill_cases with ⟨_, _, _, _, _, hrest, _⟩ | ⟨hrest, hstatus⟩
  · exact hrest
  · rw [rest_of_ne_ok (hstatus ▸ i.ending_ne_ok), hrest]

theorem ending_fill (i : Input) : i.fill.ending = i.ending := by
  rcases i.fill_cases with ⟨_, _, _, _, _, _, hending⟩ | ⟨_, hstatus⟩
  · exact hending
  · rw [ending_of_ne_ok (hstatus ▸ i.ending_ne_ok), hstatus]

/-- Reading stops only where no byte is left. -/
theorem status_fill (i : Input) : i.fill.status = if i.rest = [] then i.ending else .ok := by
  rcases i.fill_cases with ⟨b, bs, hrest, hok, -⟩ | ⟨hrest, hstatus⟩
  · rw [hok, hrest, if_neg (List.cons_ne_nil b bs)]
  · rw [hstatus, if_pos hrest]

theorem exists_pending_of_head? (h : i.head? = some b) :
    i.status = .ok ∧ ∃ bs, i.pending = b :: bs := by
  unfold head? at h
  split_ifs at h with hs
  exact ⟨hs, List.head?_eq_some_iff.1 h⟩

theorem status_advance (i : Input) : i.advance.status = i.status := by
  unfold advance
  split <;> rfl

theorem rest_advance (h : i.head? = some b) : i.rest = b :: i.advance.rest := by
  obtain ⟨hs, bs, hp⟩ := exists_pending_of_head? h
  rw [rest_of_ok hs, rest_of_ok ((status_advance i).trans hs), advance, hp, List.cons_append]

theorem ending_advance (i : Input) : i.advance.ending = i.ending := by
  unfold advance
  split <;> rfl

/-! ## Taking the bytes of a pattern -/

section Munch

variable {σ : Type}

/-- What taking the bytes of a pattern does. -/
structure Munched (p : Pattern σ) (s : σ) (i : Input) (bs : Bytes) (s' : σ) (i' : Input) :
    Prop where
  run : p.run s i.rest = (bs, s')
  rest : i.rest = bs ++ i'.rest
  ending : i'.ending = i.ending
  remaining : bs.length + i'.remaining = i.remaining
  /-- Where the pattern is not complete, the next byte is at hand, or reading has
      stopped for want of one. -/
  head : p.isComplete s' = false → i'.head? = i'.rest.head?
  status : i'.status = if p.isComplete s' = true ∨ i'.rest ≠ [] then i.status else i.ending

theorem munched (p : Pattern σ) (s : σ) (i : Input) :
    Munched p s i (munch p s i).1 (munch p s i).2.1 (munch p s i).2.2 := by
  -- the cases are: the pattern is complete, no byte is left, the next byte does not
  -- belong to the pattern, and it does
  fun_induction munch p s i with
  | case1 s i hc =>
    exact {
      run := p.run_of_isComplete hc
      rest := rfl
      ending := rfl
      remaining := Nat.zero_add _
      head := fun h => by rw [hc] at h; cases h
      status := (if_pos (.inl hc)).symm }
  | case2 s i hc h =>
    have hrest : i.rest = [] := List.head?_eq_none_iff.1 (i.head?_fill.symm.trans h)
    exact {
      run := by rw [hrest]; rfl
      rest := i.rest_fill.symm
      ending := i.ending_fill
      remaining := by rw [List.length_nil, Nat.zero_add, remaining_fill]
      head := fun _ => by rw [head?_fill, rest_fill]
      status := by rw [status_fill, rest_fill, hrest, if_pos rfl, if_neg (by simp [hc])] }
  | case3 s i hc b h hstep =>
    obtain ⟨bs, hrest⟩ := List.head?_eq_some_iff.1 (i.head?_fill.symm.trans h)
    have hok := (exists_pending_of_head? h).1
    exact {
      run := by rw [hrest, p.run_cons_none hstep]
      rest := i.rest_fill.symm
      ending := i.ending_fill
      remaining := by rw [List.length_nil, Nat.zero_add, remaining_fill]
      head := fun _ => by rw [head?_fill, rest_fill]
      status := by
        rw [rest_fill, hrest, hok, if_pos (by simp), status_of_rest_ne_nil (by simp [hrest])] }
  | case4 s i hc b h s' hstep r ih =>
    obtain ⟨bs, hrest⟩ := List.head?_eq_some_iff.1 (i.head?_fill.symm.trans h)
    have hadvance : i.rest = b :: i.fill.advance.rest := by
      rw [← rest_fill, rest_advance h]
    have hok := (exists_pending_of_head? h).1
    have hnil : i.rest ≠ [] := by rw [hrest]; exact List.cons_ne_nil b bs
    exact {
      run := by
        rw [hadvance, p.run_cons_some (by simpa using hc) hstep, ih.run]
      rest := by rw [hadvance, ih.rest]; rfl
      ending := by rw [ih.ending, ending_advance, ending_fill]
      remaining := by
        have hr := ih.remaining
        have ha := remaining_advance h
        rw [remaining_fill] at ha
        rw [List.length_cons, ← ha, ← hr]
        exact Nat.add_right_comm _ 1 _
      head := ih.head
      status := by
        rw [ih.status, status_advance, hok, ending_advance, ending_fill,
          status_of_rest_ne_nil hnil] }

/-- What is kept by reading and by taking a byte is kept by taking the bytes of a
    pattern. -/
theorem munch_induction {P : Input → Prop} (hfill : ∀ i, P i → P i.fill)
    (hadvance : ∀ i b, i.head? = some b → P i → P i.advance) (p : Pattern σ) (s : σ) {i : Input}
    (hi : P i) : P (munch p s i).2.2 := by
  fun_induction munch p s i with
  | case1 => exact hi
  | case2 s i => exact hfill i hi
  | case3 s i => exact hfill i hi
  | case4 s i _ b hb _ _ _ ih => exact ih (hadvance _ b hb (hfill i hi))

/-- Where reading has stopped, nothing is taken. -/
theorem munch_of_ne_ok (p : Pattern σ) (s : σ) (hs : i.status ≠ .ok) :
    munch p s i = ([], s, i) := by
  have hhead : i.fill.head? = none := by rw [fill_of_ne_ok hs, head?, if_neg hs]
  rw [munch]
  split_ifs
  · rfl
  · split
    · rw [fill_of_ne_ok hs]
    · next h => cases hhead.symm.trans h

section Equations

variable {p : Pattern σ} {s s' : σ}

theorem munch_of_isComplete (hc : p.isComplete s = true) : munch p s i = ([], s, i) := by
  rw [munch, if_pos hc]

theorem munch_of_head?_eq_none (hc : p.isComplete s = false) (hb : i.fill.head? = none) :
    munch p s i = ([], s, i.fill) := by
  rw [munch, hc, if_neg Bool.false_ne_true]
  split
  · rfl
  · next c h => cases hb.symm.trans h

theorem munch_of_step_eq_none (hc : p.isComplete s = false) (hb : i.fill.head? = some b)
    (hstep : p.step s b = none) : munch p s i = ([], s, i.fill) := by
  rw [munch, hc, if_neg Bool.false_ne_true]
  split
  · rfl
  · next c h =>
    cases hb.symm.trans h
    rw [hstep]

theorem munch_of_step_eq_some (hc : p.isComplete s = false) (hb : i.fill.head? = some b)
    (hstep : p.step s b = some s') : munch p s i =
      (b :: (munch p s' i.fill.advance).1, (munch p s' i.fill.advance).2) := by
  rw [munch, hc, if_neg Bool.false_ne_true]
  split
  · next h => cases hb.symm.trans h
  · next c h =>
    cases hb.symm.trans h
    rw [hstep]

end Equations

theorem exists_munched (p : Pattern σ) (s : σ) (i : Input) :
    ∃ bs s' i', munch p s i = (bs, s', i') ∧ Munched p s i bs s' i' :=
  ⟨_, _, _, rfl, munched p s i⟩

/-! ## Inputs that cannot be told apart -/

/-- Whether inputs cannot be told apart by taking bytes. -/
structure Same (i i' : Input) : Prop where
  status : i.status = i'.status
  rest : i.rest = i'.rest
  ending : i.ending = i'.ending

/-- From such inputs a pattern takes the same. -/
theorem Same.munch (h : i.Same i') (p : Pattern σ) (s : σ) :
    ∃ bs s' j j', Input.munch p s i = (bs, s', j) ∧ Input.munch p s i' = (bs, s', j') ∧
      j.Same j' ∧ (p.isComplete s' = false → j.head? = j'.head?) := by
  have hm := munched p s i
  have hm' := munched p s i'
  have hrun := hm.run
  rw [h.rest, hm'.run] at hrun
  obtain ⟨hbs, hs⟩ := Prod.mk.inj hrun
  have hrest : (Input.munch p s i).2.2.rest = (Input.munch p s i').2.2.rest := by
    refine List.append_cancel_left (hm.rest.symm.trans ?_)
    rw [h.rest, hm'.rest, hbs]
  have hending : (Input.munch p s i).2.2.ending = (Input.munch p s i').2.2.ending := by
    rw [hm.ending, h.ending, hm'.ending]
  refine ⟨_, _, _, (Input.munch p s i').2.2, rfl, Prod.ext hbs (Prod.ext hs rfl),
    ⟨?_, hrest, hending⟩, fun hc => ?_⟩
  · rw [hm.status, hm'.status, h.status, h.ending, hrest, hs]
  · rw [hm.head hc, hm'.head (hs ▸ hc), hrest]

end Munch

theorem Same.advance (h : i.Same i') (hb : i.head? = some b) (hb' : i'.head? = some b) :
    i.advance.Same i'.advance where
  status := by rw [status_advance, status_advance, h.status]
  rest := by
    have hrest := h.rest
    rw [rest_advance hb, rest_advance hb'] at hrest
    exact (List.cons.inj hrest).2
  ending := by rw [ending_advance, ending_advance, h.ending]

end Input

end ScriptCore.Lexer
