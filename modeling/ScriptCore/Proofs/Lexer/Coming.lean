import ScriptCore.Proofs.Lexer.Lexemes
import ScriptCore.Proofs.Lexer.Lines
import ScriptCore.Proofs.Lexer.Recovery
import ScriptCore.Proofs.Lexer.Wording

/-!
# What is coming

A text that comes line by line may be interrupted. What comes after the interrupt is
not lost: it is still coming, and a token tells of what is coming as if nothing would
interrupt it.

* `Input.ByLine`: inputs that come line by line; `Input.coming`: all that they will
  bring, also after an interrupt. It is kept by interrupts (`coming_interrupt`) and by
  recoveries (`coming_restart`).
* `Tells`: what a token tells of the text that is coming (`tells_get`).
-/

namespace ScriptCore.Lexer

open Token (Kind)

variable {l m : Lexer} {b : UInt8} {bs : Bytes} {t : Token} {h : History}

/-! ## Lines -/

/-- What a read brings. -/
def Read.content : Read → Bytes
  | bytes bs => bs
  | _ => []

/-- How things stand after a read, and what is at hand. -/
def Read.outcome : Read → Status × Bytes
  | bytes [] | endOfInput => (.endOfInput, [])
  | bytes (b :: bs) => (.ok, b :: bs)
  | interrupted => (.interrupted, [])
  | failed reason => (.failed reason, [])

namespace Source

/-- What all reads of a source bring. -/
def text (s : Source) : Bytes :=
  s.reads.flatMap Read.content

theorem text_of_lines {s : Source} (h : s.reads = (lines bs).map .bytes) : s.text = bs := by
  rw [text, h, List.flatMap_map]
  exact List.flatMap_id'.trans (flatten_lines bs)

/-- A line that another one comes after ends with a newline. -/
theorem newline_suffix_of_lines {line : Bytes} {ls : List Bytes} (h : lines bs = line :: ls) :
    ls.flatten = [] ∨ ['\n'.toUInt8] <:+ line := by
  induction bs generalizing line ls with
  | nil => cases h
  | cons b bs ih =>
    by_cases hb : b = '\n'.toUInt8
    · subst hb
      rw [lines, if_pos rfl] at h
      obtain ⟨rfl, -⟩ := List.cons.inj h
      exact .inr List.suffix_rfl
    · rw [lines_cons_of_ne hb] at h
      obtain ⟨rfl, rfl⟩ := List.cons.inj h
      cases hlines : lines bs with
      | nil => exact .inl rfl
      | cons m ms => exact (ih hlines).imp_right fun hm => hm.trans (List.suffix_cons b m)

/-- The next read of a source of lines, and what is left of it: an interrupt that waits
    is met, or the source is at its end, or a line comes. -/
inductive NextLine (s : Source) : Read × Source → Prop
  | interrupted (hflag : s.interrupted = true) :
    NextLine s (.interrupted, { s with interrupted := false })
  | ended (hflag : s.interrupted = false) (htext : s.text = []) : NextLine s (.endOfInput, s)
  | line {b : UInt8} {bs : Bytes} {ls : List Bytes} (hflag : s.interrupted = false)
    (hlines : lines s.text = (b :: bs) :: ls) :
    NextLine s (.bytes (b :: bs), { s with reads := (lines ls.flatten).map .bytes })

theorem nextLine {s : Source} (hs : s.reads = (lines s.text).map .bytes) : s.NextLine s.next := by
  rw [next]
  split_ifs with hflag
  · exact .interrupted hflag
  · rw [Bool.not_eq_true] at hflag
    cases hlines : lines s.text with
    | nil =>
      have htext : s.text = [] := by
        rw [← flatten_lines s.text, hlines]
        rfl
      rw [hs, hlines]
      exact .ended hflag htext
    | cons line ls =>
      obtain ⟨b, bs, rfl⟩ := List.exists_cons_of_ne_nil
        (ne_nil_of_mem_lines (hlines ▸ List.mem_cons_self))
      rw [hs, hlines, ← lines_flatten_of_cons hlines, List.map_cons]
      exact .line hflag hlines

end Source

/-! ## Inputs -/

namespace Input

variable {i : Input}

/-- Whether an input comes line by line, whatever was read of it. -/
structure ByLine (i : Input) : Prop where
  reads : i.source.reads = (Source.lines i.source.text).map .bytes
  line : i.source.text = [] ∨ i.pending = [] ∨ ['\n'.toUInt8] <:+ i.pending
  ended : i.status = .endOfInput → i.source.text = []
  status : ∀ reason, i.status ≠ .failed reason

/-- What comes after an interrupt, if one waits or was met. -/
def later (i : Input) : Bytes :=
  if i.source.interrupted = true ∨ i.status = .interrupted then i.source.text else []

/-- All that is to come. -/
def coming (i : Input) : Bytes :=
  i.rest ++ i.later

/-- The number of interrupts that wait or were met. -/
def interrupts (i : Input) : Nat :=
  i.source.interrupted.toNat + if i.status = .interrupted then 1 else 0

theorem fill_of_pending_eq_nil (hok : i.status = .ok) (hp : i.pending = []) :
    i.fill.source = i.source.next.2 ∧
      (i.fill.status, i.fill.pending) = Read.outcome i.source.next.1 := by
  have hfill : i.fill = ({ i.showPrompt with source := i.source.next.2 }).receive
      i.source.next.1 := by
    rw [Input.fill, hok, hp]
  have hshow : (i.showPrompt.status, i.showPrompt.pending) = (.ok, []) := by
    rw [status_showPrompt, pending_showPrompt, hok, hp]
  obtain ⟨hshowok, hshowp⟩ := Prod.mk.inj hshow
  rw [hfill]
  generalize i.source.next = r
  obtain ⟨read, source⟩ := r
  cases read with
  | bytes bs =>
    cases bs with
    | nil => exact ⟨rfl, Prod.ext rfl hshowp⟩
    | cons b bs => exact ⟨rfl, Prod.ext hshowok rfl⟩
  | endOfInput | interrupted | failed => exact ⟨rfl, Prod.ext rfl hshowp⟩

/-- What a lexer does with an input leaves what comes after an interrupt as it is. -/
structure Keeps (i i' : Input) : Prop where
  byLine : i'.ByLine
  later : i'.later = i.later
  interrupts : i'.interrupts = i.interrupts

theorem ByLine.fill (h : i.ByLine) : i.Keeps i.fill := by
  by_cases hs : i.status = .ok ∧ i.pending = []
  · obtain ⟨hok, hp⟩ := hs
    obtain ⟨hsource, houtcome⟩ := fill_of_pending_eq_nil hok hp
    have hnext := Source.nextLine h.reads
    generalize i.source.next = r at hsource houtcome hnext
    cases hnext with
    | interrupted hflag =>
      obtain ⟨hstatus, hpending⟩ := Prod.mk.inj houtcome
      refine ⟨⟨?_, .inr (.inl hpending), ?_, ?_⟩, ?_, ?_⟩
      · rw [hsource]
        exact h.reads
      · intro hend
        cases hstatus.symm.trans hend
      · intro _ hfailed
        cases hstatus.symm.trans hfailed
      · rw [later, later, if_pos (.inr hstatus), if_pos (.inl hflag), hsource]
        rfl
      · rw [interrupts, interrupts, hstatus, hsource, hflag, hok]
        rfl
    | ended hflag htext =>
      obtain ⟨hstatus, hpending⟩ := Prod.mk.inj houtcome
      refine ⟨⟨?_, .inr (.inl hpending), fun _ => by rwa [hsource], ?_⟩, ?_, ?_⟩
      · rw [hsource]
        exact h.reads
      · intro _ hfailed
        cases hstatus.symm.trans hfailed
      · rw [later, later, hsource, hflag, hstatus, hok, if_neg (by decide), if_neg (by decide)]
      · rw [interrupts, interrupts, hsource, hstatus, hok]
        rfl
    | @line b bs ls hflag hlines =>
      obtain ⟨hstatus, hpending⟩ := Prod.mk.inj houtcome
      have hflag' : i.fill.source.interrupted = false := by rwa [hsource]
      have htext : i.fill.source.text = ls.flatten :=
        Source.text_of_lines (congrArg Source.reads hsource)
      refine ⟨⟨?_, ?_, ?_, ?_⟩, ?_, ?_⟩
      · rw [htext, hsource]
      · rw [htext, hpending]
        exact (Source.newline_suffix_of_lines hlines).imp_right .inr
      · intro hend
        cases hstatus.symm.trans hend
      · intro _ hfailed
        cases hstatus.symm.trans hfailed
      · rw [later, later, hflag, hflag', hstatus, hok, if_neg (by decide), if_neg (by decide)]
      · rw [interrupts, interrupts, hflag, hflag', hstatus, hok]
  · have hfill : i.fill = i := by
      unfold Input.fill
      split
      · next hok hp => exact absurd ⟨hok, hp⟩ hs
      · rfl
    rw [hfill]
    exact ⟨h, rfl, rfl⟩

theorem ByLine.advance (h : i.ByLine) (hb : i.head? = some b) : i.Keeps i.advance := by
  obtain ⟨hok, bs, hp⟩ := exists_pending_of_head? hb
  have hadvance : i.advance = { i with pending := bs, midLine := b ≠ '\n'.toUInt8 } := by
    rw [Input.advance, hp]
  rw [hadvance]
  refine ⟨⟨h.reads, h.line.imp_right fun hline => ?_, h.ended, h.status⟩, rfl, rfl⟩
  have hnl := hline.resolve_left fun hnil => List.cons_ne_nil b bs (hp.symm.trans hnil)
  rw [hp] at hnl
  rcases List.suffix_cons_iff.1 hnl with heq | hsuffix
  · exact .inl (List.cons.inj heq).2.symm
  · exact .inr hsuffix

theorem ByLine.fault (h : i.ByLine) (herror : i.status.isError = false) (f : Fault) :
    i.Keeps { i with status := .malformed f } := by
  have hne : i.status ≠ .interrupted := fun hs => by
    rw [hs] at herror
    cases herror
  refine ⟨⟨h.reads, h.line, nofun, nofun⟩, ?_, ?_⟩
  · simp [later, hne]
  · simp [interrupts, hne]

/-- What comes after an interrupt is kept between interrupts. -/
theorem stable_keeps (i : Input) : Stable i.Keeps where
  fill := fun j hj => by
    obtain ⟨hbyLine, hlater, hinterrupts⟩ := hj.byLine.fill
    exact ⟨hbyLine, hlater.trans hj.later, hinterrupts.trans hj.interrupts⟩
  advance := fun j b hb hj => by
    obtain ⟨hbyLine, hlater, hinterrupts⟩ := hj.byLine.advance hb
    exact ⟨hbyLine, hlater.trans hj.later, hinterrupts.trans hj.interrupts⟩
  fault := fun j f herror hj => by
    obtain ⟨hbyLine, hlater, hinterrupts⟩ := hj.byLine.fault herror f
    exact ⟨hbyLine, hlater.trans hj.later, hinterrupts.trans hj.interrupts⟩

/-! ### What is coming -/

theorem ByLine.flow (h : i.ByLine) : i.source.flow =
    if i.source.interrupted then ([], .interrupted) else (i.source.text, .endOfInput) := by
  have htext : Read.flow i.source.reads = (i.source.text, .endOfInput) := by
    rw [h.reads]
    exact Source.delivers_ofLines i.source.text
  rw [Source.flow, htext]

theorem ByLine.ending (h : i.ByLine) (hs : ∀ f, i.status ≠ .malformed f) :
    i.ending = .endOfInput ∨ i.ending = .interrupted := by
  cases hstatus : i.status with
  | ok =>
    rw [ending_of_ok hstatus, h.flow]
    split_ifs
    · exact .inr rfl
    · exact .inl rfl
  | endOfInput => exact .inl (by rw [Input.ending, hstatus]; rfl)
  | interrupted => exact .inr (by rw [Input.ending, hstatus]; rfl)
  | malformed f => exact absurd hstatus (hs f)
  | failed reason => exact absurd hstatus (h.status reason)

/-- Where nothing is wrong, and the way on is the same, nothing is. -/
theorem ByLine.status_ne_malformed {i' : Input} (h : i.ByLine) (hs : ∀ f, i.status ≠ .malformed f)
    (hending : i'.ending = i.ending) : ∀ f, i'.status ≠ .malformed f := by
  intro f hf
  rw [ending_of_ne_ok (by rw [hf]; exact nofun), hf] at hending
  rcases h.ending hs with heq | heq
  · exact absurd (hending.trans heq) nofun
  · exact absurd (hending.trans heq) nofun

/-- An interrupt comes between two lines. -/
theorem ByLine.rest_line (h : i.ByLine) :
    i.later = [] ∨ i.rest = [] ∨ ['\n'.toUInt8] <:+ i.rest := by
  by_cases hok : i.status = .ok
  · rw [rest_of_ok hok, h.flow]
    cases hflag : i.source.interrupted with
    | true =>
      rw [if_pos rfl, List.append_nil]
      refine h.line.imp_left fun htext => ?_
      rw [later, htext, ite_self]
    | false =>
      refine .inl ?_
      rw [later, hflag, hok, if_neg (by decide)]
  · exact .inr (.inl (rest_of_ne_ok hok))

/-- Whether an interrupt waits or not, all that was read or will be is coming. -/
theorem ByLine.coming_of_ok (h : i.ByLine) (hok : i.status = .ok) :
    i.coming = i.pending ++ i.source.text := by
  rw [coming, rest_of_ok hok, h.flow, later, hok]
  cases i.source.interrupted with
  | true => rw [if_pos rfl, if_pos (.inl rfl), List.append_nil]
  | false => rw [if_neg Bool.false_ne_true, if_neg (by decide), List.append_nil]

theorem coming_of_interrupted (hs : i.status = .interrupted) : i.coming = i.source.text := by
  rw [coming, rest_of_ne_ok (by rw [hs]; exact nofun), later, if_pos (.inr hs)]
  rfl

theorem ByLine.interrupt (h : i.ByLine) :
    ({ i with source := i.source.interrupt } : Input).ByLine :=
  ⟨h.reads, h.line, h.ended, h.status⟩

/-- An interrupt takes nothing away of what is coming. -/
theorem ByLine.coming_interrupt (h : i.ByLine) (hs : ∀ f, i.status ≠ .malformed f) :
    ({ i with source := i.source.interrupt } : Input).coming = i.coming := by
  generalize hj : ({ i with source := i.source.interrupt } : Input) = j
  have hbyLine : j.ByLine := hj ▸ h.interrupt
  have htext : j.source.text = i.source.text := hj ▸ rfl
  have hstatus' : j.status = i.status := hj ▸ rfl
  have hpending : j.pending = i.pending := hj ▸ rfl
  cases hstatus : i.status with
  | ok =>
    rw [hbyLine.coming_of_ok (hstatus'.trans hstatus), h.coming_of_ok hstatus, htext, hpending]
  | endOfInput =>
    have hnil : i.source.text = [] := h.ended hstatus
    have hne : i.status ≠ .ok := by
      rw [hstatus]
      exact nofun
    rw [coming, coming, rest_of_ne_ok hne, rest_of_ne_ok (hstatus' ▸ hne), later, later, htext,
      hnil, ite_self, ite_self]
  | interrupted =>
    rw [coming_of_interrupted (hstatus'.trans hstatus), coming_of_interrupted hstatus, htext]
  | malformed f => exact absurd hstatus (hs f)
  | failed reason => exact absurd hstatus (h.status reason)

theorem ByLine.restart (h : i.ByLine) : i.restart.ByLine :=
  ⟨h.reads, .inr (.inl rfl), nofun, nofun⟩

/-- A recovery takes nothing away of what is coming. -/
theorem ByLine.coming_restart (h : i.ByLine) (hs : i.status = .interrupted) :
    i.restart.coming = i.coming :=
  (h.restart.coming_of_ok rfl).trans (coming_of_interrupted hs).symm

theorem interrupts_restart (hs : i.status = .interrupted) :
    i.restart.interrupts + 1 = i.interrupts := by
  rw [interrupts, interrupts, hs]
  rfl

theorem interrupts_interrupt_le (i : Input) :
    ({ i with source := i.source.interrupt } : Input).interrupts ≤ i.interrupts + 1 := by
  have hle : ∀ b b' : Bool, (b || b').toNat ≤ b.toNat + 1 := by decide
  have h := hle i.source.interrupted i.source.interruptible
  simp only [interrupts, Source.interrupt]
  omega

theorem byLine_start (bs : Bytes) (options : Options) :
    (start (.ofLines bs) options).input.ByLine := by
  have htext : (Source.ofLines bs).text = bs := Source.text_of_lines rfl
  exact ⟨by rw [show (start (.ofLines bs) options).input.source = .ofLines bs from rfl, htext]; rfl,
    .inr (.inl rfl), nofun, nofun⟩

end Input

/-! ## What a token tells -/

theorem gap_of_beginLine {blanks : Bytes} {f : Option Fault}
    (hbegin : l.beginLine = (blanks, f, m)) : Gap blanks := by
  rw [beginLine] at hbegin
  split_ifs at hbegin with hstart
  · obtain ⟨blanks', column, input, hmunch, hmunched⟩ :=
      Input.exists_munched (columnPattern l.tabSize) 0 l.input
    have hblank : ∀ b ∈ blanks', Byte.isBlank b = true := fun b hb =>
      Pattern.forall_mem_run (fun _ _ _ h => (columnPattern_step h).1) 0 l.input.rest b
        (by rwa [hmunched.run])
    have hblanks : blanks = blanks' := by
      simp only [hmunch] at hbegin
      split_ifs at hbegin
      · exact (Prod.mk.inj hbegin).1.symm
      · exact (Prod.mk.inj hbegin).1.symm
    exact hblanks ▸ gap_of_blank hblank
  · exact (Prod.mk.inj hbegin).1 ▸ .nil

/-- What a token tells of a text that is coming: nothing but a level, or its first
    token, or its end, or that something is wrong with it, or that a read was
    interrupted, and then what is coming still says the same. -/
inductive Tells (bs : Bytes) : Token → Input → Prop
  | level {t : Token} {i : Input} {gap : Bytes} : t.kind.isLevel = true → Gap gap →
    bs = gap ++ i.coming → Tells bs t i
  | token {t : Token} {i : Input} {skipped w : Bytes} {status : Status} :
    t.kind ≠ .error → t.kind ≠ .endMarker → bs = skipped ++ (w ++ i.coming) →
    Precedes skipped (w ++ i.coming) → LongestMatch (w ++ i.coming) t.kind w status →
    t.text = ({ kind := t.kind, bytes := w } : Lexeme).text → Tells bs t i
  | last {t : Token} {i : Input} : t.kind = .endMarker → t.text = "" → Precedes bs [] →
    Tells bs t i
  | malformed {t : Token} {i : Input} {f : Fault} : t.kind = .error → i.status = .malformed f →
    Tells bs t i
  | interrupted {t : Token} {i : Input} : t.kind = .error → i.status = .interrupted →
    (∀ ts, Says bs ts → Says i.coming ts) → Tells bs t i

/-- In front of what is coming there may be more space. -/
theorem Tells.append {gap : Bytes} {i : Input} (h : Tells bs t i) (hgap : Gap gap) :
    Tells (gap ++ bs) t i := by
  cases h with
  | level hlevel hgap' heq =>
    exact .level hlevel (hgap.append hgap') (by rw [heq, List.append_assoc])
  | token herror hend heq hprecedes hmatch htext =>
    exact .token herror hend (by rw [heq, List.append_assoc]) (hprecedes.append hgap) hmatch htext
  | last hend htext hprecedes => exact .last hend htext (hprecedes.append hgap)
  | malformed herror hstatus => exact .malformed herror hstatus
  | interrupted herror hstatus hsaid =>
    exact .interrupted herror hstatus fun ts hts => hsaid ts (hts.of_append hgap)

/-- What is taken off the bytes that are left is taken off what is coming. -/
theorem Input.Keeps.coming_eq {i i' : Input} {taken : Bytes} (h : i.Keeps i')
    (hrest : i.rest = taken ++ i'.rest) : i.coming = taken ++ i'.coming := by
  rw [coming, hrest, coming, h.later, List.append_assoc]

/-- Where reading was interrupted, only what comes after the interrupt is coming. -/
theorem Input.Keeps.coming_eq_later {i i' : Input} (h : i.Keeps i') (hs : i'.status ≠ .ok) :
    i'.coming = i.later := by
  rw [coming, rest_of_ne_ok hs, h.later, List.nil_append]

/-- A token that is found tells what is coming. -/
theorem tells_of_finds (hbyLine : l.input.ByLine) (hfinds : Finds l.input.rest l.scanToken)
    {line : Nat} : Tells l.input.coming
      { kind := l.scanToken.1.kind, text := l.scanToken.1.text, line } l.scanToken.2.input := by
  obtain ⟨rest, hrest, hprecedes, hmatch⟩ := hfinds
  have hkeeps : l.input.Keeps l.scanToken.2.input :=
    (Input.stable_keeps l.input).scanToken ⟨hbyLine, rfl, rfl⟩
  by_cases herror : l.scanToken.1.kind = .error
  · obtain ⟨f, hstatus⟩ := hmatch.malformed herror
    exact .malformed herror hstatus
  · have haccounts := ((takes_scanToken l).accounts herror).rest
    have heq : rest = l.scanToken.1.bytes ++ l.scanToken.2.input.rest := by
      rw [hrest, List.append_assoc] at haccounts
      exact List.append_cancel_left haccounts
    by_cases hend : l.scanToken.1.kind = .endMarker
    · obtain ⟨rfl, hbytes, hstatus⟩ := hmatch.ended hend
      have hlater : l.input.later = [] := by
        rw [← hkeeps.later, Input.later, hkeeps.byLine.ended hstatus, ite_self]
      refine .last hend ?_ ?_
      · rw [Lexeme.text, if_neg (by rw [hend]; exact nofun), hbytes]
        rfl
      · rwa [Input.coming, hrest, hlater, List.append_nil, List.append_nil]
    · have hne : rest ≠ [] := by
        rintro rfl
        exact hend hmatch.kind_of_nil
      have hcoming : rest ++ l.input.later = l.scanToken.1.bytes ++ l.scanToken.2.input.coming := by
        rw [heq, Input.coming, hkeeps.later, List.append_assoc]
      have hbs : l.input.coming =
          l.scanToken.1.skipped ++ (l.scanToken.1.bytes ++ l.scanToken.2.input.coming) := by
        rw [← hcoming, Input.coming, hrest, List.append_assoc]
      -- behind the end of a line the token is the same
      have hmatch' : LongestMatch (rest ++ l.input.later) l.scanToken.1.kind l.scanToken.1.bytes
          l.scanToken.2.status := by
        rcases hbyLine.rest_line with hlater | hnil | hline
        · rwa [hlater, List.append_nil]
        · rw [hnil] at hrest
          exact absurd (List.append_eq_nil_iff.1 hrest.symm).2 hne
        · exact hmatch.append herror (newline_mem_of_suffix (hrest ▸ hline) hne) _
      exact .token herror hend hbs (hcoming ▸ hprecedes.append_right hmatch herror hne _)
        (hcoming ▸ hmatch') rfl

/-- Where an interrupt comes before a token does, what comes after it says the same. -/
theorem tells_of_stops (hbyLine : l.input.ByLine) (hs : ∀ f, l.status ≠ .malformed f)
    (hstops : Stops l.input.ending l.input.rest l.scanToken) {line : Nat} :
    Tells l.input.coming
      { kind := l.scanToken.1.kind, text := l.scanToken.1.text, line } l.scanToken.2.input := by
  obtain ⟨⟨hend, hstatus, herror⟩, rest, hrest, hprecedes, hnewline, hbreaks⟩ := hstops
  have hkeeps : l.input.Keeps l.scanToken.2.input :=
    (Input.stable_keeps l.input).scanToken ⟨hbyLine, rfl, rfl⟩
  have hinterrupted : l.scanToken.2.status = .interrupted :=
    hstatus.trans ((hbyLine.ending hs).resolve_left hend)
  refine .interrupted herror hinterrupted fun ts hts => ?_
  have hne : l.scanToken.2.input.status ≠ .ok := fun hok => by
    cases hinterrupted.symm.trans hok
  rw [hkeeps.coming_eq_later hne]
  rw [Input.coming, hrest] at hts
  exact hts.of_cut hprecedes hnewline hbreaks (hrest ▸ hbyLine.rest_line)

theorem Begins.isError_eq_false {f : Fault} (h : Begins l bs (some f) m) :
    m.status.isError = false := by
  cases h with
  | entered _ _ _ herror _ => exact herror

/-- Without a fault so far, an error is an interrupt. -/
theorem Input.ByLine.status_eq_interrupted {i : Input} (h : i.ByLine)
    (hs : ∀ f, i.status ≠ .malformed f) (herror : i.status.isError = true) :
    i.status = .interrupted := by
  cases hstatus : i.status with
  | interrupted => rfl
  | malformed f => exact absurd hstatus (hs f)
  | failed reason => exact absurd hstatus (h.status reason)
  | ok =>
    rw [hstatus] at herror
    cases herror
  | endOfInput =>
    rw [hstatus] at herror
    cases herror

theorem tells_scan (hbyLine : l.input.ByLine) (hs : ∀ f, l.status ≠ .malformed f) {line : Nat} :
    Tells l.input.coming { kind := l.scan.1.kind, text := l.scan.1.text, line }
      l.scan.2.input := by
  obtain ⟨blanks, f, m, hbegin⟩ : ∃ blanks f m, l.beginLine = (blanks, f, m) := ⟨_, _, _, rfl⟩
  have hbegins := begins_of_eq hbegin
  have hkeeps : l.input.Keeps m.input := by
    have hkeeps := (Input.stable_keeps l.input).beginLine ⟨hbyLine, rfl, rfl⟩
    rwa [hbegin] at hkeeps
  have hm : ∀ f, m.status ≠ .malformed f := hbyLine.status_ne_malformed hs hbegins.ending
  rw [hkeeps.coming_eq hbegins.rest]
  refine Tells.append ?_ (gap_of_beginLine hbegin)
  rw [scan, hbegin]
  cases f with
  | some f =>
    have hfault := fault_of_not_isError (f := f) hbegins.isError_eq_false
    exact .malformed rfl (congrArg Lexer.status hfault)
  | none =>
    cases herror : m.status.isError with
    | true =>
      simp only [herror, if_true]
      exact .interrupted rfl (hkeeps.byLine.status_eq_interrupted hm herror) fun _ => id
    | false =>
      simp only [herror, Bool.false_eq_true, if_false]
      cases hnext : m.indentation.next? with
      | some r =>
        refine .level ?_ .nil rfl
        rcases (Indentation.next?_eq_some hnext).2 with ⟨hkind, -⟩ | ⟨hkind, -⟩
        · exact congrArg Kind.isLevel hkind
        · exact congrArg Kind.isLevel hkind
      | none =>
        rcases meets_scanToken m with hfinds | hstops
        · exact tells_of_finds hkeeps.byLine hfinds
        · exact tells_of_stops hkeeps.byLine hm hstops

/-- What is told of a text that comes line by line, where nothing is wrong so far. -/
theorem tells_get (hlatched : l.latched = false) (hbyLine : l.input.ByLine)
    (hs : ∀ f, l.status ≠ .malformed f) : Tells l.input.coming l.get.1 l.get.2.input := by
  rw [get_eq hlatched]
  exact tells_scan hbyLine hs

end ScriptCore.Lexer
