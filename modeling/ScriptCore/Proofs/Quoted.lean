import ScriptCore.Quoted
import ScriptCore.Proofs.Lexer.Languages
import ScriptCore.Proofs.Lexer.Text
import ScriptCore.Proofs.Utf8

/-!
# Quoted byte strings

A byte string that is shown in quotes can be read back, by undoing its escapes
and by the lexer.

* `unquote_quote`: what `unquote` reads is what was quoted.
* `quote_append_inj`: no quoted byte string is the beginning of another one, so
  it shows where it ends.
* `quote_is_literal`: to the lexer it is one string, whose text is all of it.
-/

namespace ScriptCore.Quoted

open Lexer

variable {b n : UInt8} {bs bs' more more' : Bytes}

/-! ## Reading back -/

theorem of_lt_sixteen {P : UInt8 → Prop} (hP : ∀ m < 16, P (UInt8.ofNat m)) (h : n < 16) : P n := by
  rw [← UInt8.ofNat_toNat (x := n)]
  exact hP n.toNat (UInt8.lt_iff_toNat_lt.1 h)

theorem hexValue?_hexDigit : n < 16 → hexValue? (hexDigit n) = some n :=
  of_lt_sixteen (P := fun n => hexValue? (hexDigit n) = some n) (by decide)

theorem div_lt_sixteen (b : UInt8) : b / 16 < 16 := by
  rw [UInt8.lt_iff_toNat_lt, UInt8.toNat_div]
  exact Nat.div_lt_of_lt_mul b.toNat_lt

theorem mod_lt_sixteen (b : UInt8) : b % 16 < 16 := by
  rw [UInt8.lt_iff_toNat_lt, UInt8.toNat_mod]
  exact Nat.mod_lt _ (by decide)

theorem sixteen_mul_div_add_mod (b : UInt8) : 16 * (b / 16) + b % 16 = b := by
  have hb := b.toNat_lt
  rw [← UInt8.toNat_inj, UInt8.toNat_add, UInt8.toNat_mul, UInt8.toNat_div, UInt8.toNat_mod]
  show ((16 * (b.toNat / 16)) % 256 + b.toNat % 16) % 256 = b.toNat
  omega

/-- What is written for a byte is read as this byte. -/
theorem unquoteFrom_escape_append (b : UInt8) (bs : Bytes) :
    unquoteFrom .plain (escape b ++ bs) = (unquoteFrom .plain bs).map (b :: ·) := by
  rw [escape]
  split_ifs with hself hnewline htab hprintable
  · exact if_pos hself
  · subst hnewline
    rfl
  · subst htab
    rfl
  · obtain ⟨hbackslash, hquote⟩ := not_or.1 hself
    rw [List.singleton_append, unquoteFrom, if_neg hquote, if_neg hbackslash]
  · have hhigh := hexValue?_hexDigit (div_lt_sixteen b)
    have hlow := hexValue?_hexDigit (mod_lt_sixteen b)
    show (hexValue? (hexDigit (b / 16))).bind (fun high =>
      (hexValue? (hexDigit (b % 16))).bind fun low =>
        (unquoteFrom .plain bs).map ((16 * high + low) :: ·)) = _
    rw [hhigh, hlow, Option.bind_some, Option.bind_some, sixteen_mul_div_add_mod]

theorem unquote_quote (bs : Bytes) : unquote (quote bs) = some bs := by
  show unquoteFrom .plain (bs.flatMap escape ++ ['\''.toUInt8]) = some bs
  induction bs with
  | nil => rfl
  | cons b bs ih =>
    rw [List.flatMap_cons, List.append_assoc, unquoteFrom_escape_append, ih, Option.map_some]

theorem quote_inj : quote bs = quote bs' ↔ bs = bs' := by
  refine ⟨fun h => ?_, congrArg quote⟩
  exact Option.some.inj ((unquote_quote bs).symm.trans (h ▸ unquote_quote bs'))

/-! ## Where it ends -/

theorem isAscii_hexDigit : n < 16 → hexDigit n < 128 :=
  of_lt_sixteen (P := fun n => hexDigit n < 128) (by decide)

/-- A hexadecimal digit does not end a string, nor does it escape the next byte. -/
theorem step_hexDigit : n < 16 → stringPattern.step .inside (hexDigit n) = some .inside :=
  of_lt_sixteen (P := fun n => stringPattern.step .inside (hexDigit n) = some .inside) (by decide)

/-- What is written for a byte does not end a string. -/
theorem run_escape (b : UInt8) :
    stringPattern.run .inside (escape b) = (escape b, .inside) := by
  rw [escape]
  split_ifs with hself hnewline htab hprintable
  · rcases hself with rfl | rfl <;> rfl
  · rfl
  · rfl
  · obtain ⟨hbackslash, hquote⟩ := not_or.1 hself
    have hstep : stringStep .inside b = some .inside := by
      rw [stringStep, if_neg hquote, if_neg hbackslash, if_neg hnewline]
    exact Pattern.run_cons_some rfl hstep
  · have hhigh := step_hexDigit (div_lt_sixteen b)
    have hlow := step_hexDigit (mod_lt_sixteen b)
    have hx : stringPattern.run .inside ['\\'.toUInt8, 'x'.toUInt8] =
        (['\\'.toUInt8, 'x'.toUInt8], .inside) := rfl
    refine (Pattern.run_append hx [hexDigit (b / 16), hexDigit (b % 16)]).trans ?_
    rw [Pattern.run_cons_some rfl hhigh, Pattern.run_cons_some rfl hlow]
    rfl

/-- The quote that is written last is the one that ends a string. -/
theorem run_quote (bs : Bytes) : stringPattern.run .inside (bs.flatMap escape ++ ['\''.toUInt8]) =
    (bs.flatMap escape ++ ['\''.toUInt8], .closed) := by
  induction bs with
  | nil => rfl
  | cons b bs ih =>
    rw [List.flatMap_cons, List.append_assoc, Pattern.run_append (run_escape b), ih]

/-- A quoted byte string shows where it ends. -/
theorem quote_append_inj (h : quote bs ++ more = quote bs' ++ more') :
    bs = bs' ∧ more = more' := by
  have hrun : ∀ bs more : Bytes,
      stringPattern.run .inside (bs.flatMap escape ++ ['\''.toUInt8] ++ more) =
        (bs.flatMap escape ++ ['\''.toUInt8], .closed) := fun bs more => by
    rw [Pattern.run_append (run_quote bs), Pattern.run_of_isComplete rfl, List.append_nil]
  have heq := congrArg (stringPattern.run .inside) (List.cons.inj h).2
  have hquote : quote bs = quote bs' :=
    congrArg (List.cons _) (Prod.mk.inj ((hrun bs more).symm.trans (heq.trans (hrun bs' more')))).1
  exact ⟨quote_inj.1 hquote, List.append_cancel_left (hquote ▸ h)⟩

/-- What is written for a byte is ASCII. -/
theorem isAscii_of_mem_escape {c : UInt8} (hc : c ∈ escape b) : c < 128 := by
  rw [escape] at hc
  split_ifs at hc with hself hnewline htab hprintable
  · rcases List.mem_pair.1 hc with rfl | rfl
    · decide
    · rcases hself with rfl | rfl <;> decide
  · rcases List.mem_pair.1 hc with rfl | rfl <;> decide
  · rcases List.mem_pair.1 hc with rfl | rfl <;> decide
  · obtain rfl := List.mem_singleton.1 hc
    rw [isPrintable, Bool.and_eq_true, decide_eq_true_eq, decide_eq_true_eq] at hprintable
    exact UInt8.lt_of_le_of_lt hprintable.2 (by decide)
  · simp only [List.mem_cons, List.not_mem_nil, or_false] at hc
    rcases hc with rfl | rfl | rfl | rfl
    · decide
    · decide
    · exact isAscii_hexDigit (div_lt_sixteen b)
    · exact isAscii_hexDigit (mod_lt_sixteen b)

theorem isAscii_quote (bs : Bytes) : ∀ b ∈ quote bs, b < 128 := by
  intro c hc
  rcases List.mem_cons.1 hc with rfl | hc
  · decide
  · rcases List.mem_append.1 hc with hc | hc
    · obtain ⟨b, -, hb⟩ := List.mem_flatMap.1 hc
      exact isAscii_of_mem_escape hb
    · obtain rfl := List.mem_singleton.1 hc
      decide

/-- What is written is a text. -/
theorem ofString_decode_quote (bs : Bytes) :
    Bytes.ofString (Utf8.decode (quote bs)) = quote bs := by
  obtain ⟨cs, hcs⟩ := Utf8.exists_encode_of_ascii (isAscii_quote bs)
  rw [hcs, Utf8.ofString_decode_encode]

/-! ## To the lexer -/

section Lexer

variable {l : Lexer} {source : Source}

/-- Behind the first quote, all that is left of a quoted byte string is taken. -/
theorem exists_munch_quote {i : Input} (hrest : i.rest = quote bs)
    (hhead : i.head? = some '\''.toUInt8) : ∃ input : Input, i.advance.munch stringPattern .inside =
        (bs.flatMap escape ++ ['\''.toUInt8], .closed, input) ∧
      input.rest = [] ∧ input.ending = i.ending ∧ input.status = .ok := by
  obtain ⟨taken, place, input, hmunch, hmunched⟩ :=
    Input.exists_munched stringPattern .inside i.advance
  have hadvance : i.advance.rest = bs.flatMap escape ++ ['\''.toUInt8] := by
    have hrest' := Input.rest_advance hhead
    rw [hrest] at hrest'
    exact (List.cons.inj hrest').2.symm
  obtain ⟨rfl, rfl⟩ := Prod.mk.inj ((run_quote bs).symm.trans (hadvance ▸ hmunched.run))
  have hok : i.advance.status = .ok :=
    (Input.status_advance _).trans (Input.exists_pending_of_head? hhead).1
  refine ⟨input, hmunch, ?_, ?_, ?_⟩
  · exact List.append_right_eq_self.1 (hmunched.rest.symm.trans hadvance)
  · rw [hmunched.ending, Input.ending_advance]
  · rw [hmunched.status, if_pos (.inl rfl), hok]

/-- At the beginning of a text, a quoted byte string is a string, and is taken in whole. -/
theorem get_start_of_quote (hsource : source.Delivers (quote bs)) (options : Options) :
    let l := start source options
    ∃ input : Input, l.get = ({ kind := .string, text := Utf8.decode (quote bs), line := 1 },
        { l with input, lineStart := false, line := 1 }) ∧
      input.rest = [] ∧ input.ending = .endOfInput ∧ input.status = .ok := by
  intro l
  have hrest : l.input.rest = quote bs := rest_start hsource options
  have hending : l.input.ending = .endOfInput := ending_start hsource options
  -- the quote is neither space at the beginning of the line nor between tokens
  have hhead : l.input.fill.head? = some '\''.toUInt8 := by
    rw [Input.head?_fill, hrest]
    rfl
  have hrest' : l.input.fill.fill.rest = quote bs := by
    rw [Input.rest_fill, Input.rest_fill, hrest]
  have hhead' : l.input.fill.fill.head? = some '\''.toUInt8 := by
    rw [Input.head?_fill, Input.rest_fill, hrest]
    rfl
  have hcolumn : l.input.munch (columnPattern l.tabSize) 0 = ([], 0, l.input.fill) :=
    Input.munch_of_step_eq_none rfl hhead rfl
  have hgap : l.input.fill.munch gapPattern .between = ([], .between, l.input.fill.fill) :=
    Input.munch_of_step_eq_none rfl hhead' rfl
  obtain ⟨input, hmunch, hinput, hended, hok⟩ := exists_munch_quote hrest' hhead'
  refine ⟨input, ?_, hinput, ?_, hok⟩
  · have hstatus : l.input.fill.status = .ok := (Input.exists_pending_of_head? hhead).1
    let m : Lexer := { l with input := l.input.fill, lineStart := false, line := 1 }
    have hbegin : l.beginLine = ([], none, m) := by
      simp only [beginLine, hcolumn, status, hstatus]
      rfl
    have htake : { m with input := l.input.fill.fill }.takeToken '\''.toUInt8 =
        ({ kind := .string, bytes := quote bs }, { m with input }) := by
      simp only [takeToken, take, hmunch]
      rfl
    have htoken : m.scanToken = ({ kind := .string, bytes := quote bs }, { m with input }) := by
      simp only [scanToken, m, hgap, hhead']
      exact htake
    have hmok : m.status.isError = false := by
      show l.input.fill.status.isError = false
      rw [hstatus]
      rfl
    have hnext : m.indentation.next? = none := rfl
    have hscan : l.scan = ({ kind := .string, bytes := quote bs }, { m with input }) := by
      simp only [scan, hbegin, hmok, hnext, htoken]
      rfl
    rw [get_eq rfl, hscan]
    rfl
  · rw [hended, Input.ending_fill, Input.ending_fill, hending]

/-- Where nothing is left within a line, the end of the input is told. -/
theorem get_of_rest_eq_nil (hlatched : l.latched = false) (hstart : l.lineStart = false)
    (hnext : l.indentation.next? = none) (hrest : l.input.rest = [])
    (hending : l.input.ending = .endOfInput) :
    l.get = ({ kind := .endMarker, text := "", line := l.line },
        { l with input := l.input.fill, latched := false }) ∧
      l.input.fill.status = .endOfInput := by
  have hhead : l.input.fill.head? = none := by
    rw [Input.head?_fill, hrest, List.head?_nil]
  have hstatus : l.input.fill.status = .endOfInput := by
    rw [Input.status_fill, if_pos hrest, hending]
  have hgap : l.input.munch gapPattern .between = ([], .between, l.input.fill) :=
    Input.munch_of_head?_eq_none rfl hhead
  have hbegin : l.beginLine = ([], none, l) := by
    rw [beginLine, hstart, if_neg Bool.false_ne_true]
  have hok : l.status.isError = false := isError_of_ending hending
  have htoken : l.scanToken = ({ kind := .endMarker }, { l with input := l.input.fill }) := by
    simp only [scanToken, hgap, hhead, atEnd, status, hstatus]
    rfl
  refine ⟨?_, hstatus⟩
  have hscan : l.scan = ({ kind := .endMarker }, { l with input := l.input.fill }) := by
    simp only [scan, hbegin, hok, hnext, htoken]
    rfl
  rw [get_eq hlatched, hscan]
  rfl

/-- A quoted byte string is one string to the lexer, whose text is all of it, and the
    end of the input follows; the text is what was written, and what was quoted can be
    read back from it, so that it tells the byte strings apart. -/
theorem quote_is_literal (bs : Bytes) (hsource : source.Delivers (quote bs)) (options : Options) :
    (start source options).run.map (fun r => (r.1, r.2.status)) =
        [({ kind := .string, text := Utf8.decode (quote bs), line := 1 }, .ok),
          ({ kind := .endMarker, text := "", line := 1 }, .endOfInput)] ∧
      Bytes.ofString (Utf8.decode (quote bs)) = quote bs ∧
      unquote (quote bs) = some bs ∧ ∀ bs', quote bs = quote bs' → bs = bs' := by
  refine ⟨?_, ofString_decode_quote bs, unquote_quote bs, fun _ => quote_inj.1⟩
  obtain ⟨input, hget, hrest, hending, hok⟩ := get_start_of_quote hsource options
  let l : Lexer := { start source options with input, lineStart := false, line := 1 }
  obtain ⟨hget', hstatus⟩ := get_of_rest_eq_nil (l := l) rfl rfl rfl hrest hending
  -- two tokens are less than the bound on their number
  obtain ⟨n, hn⟩ : ∃ n, (start source options).bound = n + 2 := ⟨_, rfl⟩
  have hunfinished : (start source options).finished ≠ true := Bool.false_ne_true
  have hunfinished' : l.finished ≠ true := Bool.false_ne_true
  rw [run, hn, runFor_succ, if_neg hunfinished, hget, List.map_cons]
  show ({ kind := .string, text := Utf8.decode (quote bs), line := 1 }, input.status) ::
    (l.runFor (n + 1)).map (fun r => (r.1, r.2.status)) = _
  rw [hok, runFor_succ, if_neg hunfinished', hget', runFor_of_finished rfl, List.map_singleton]
  exact congrArg (fun s => [_, (_, s)]) hstatus

/-- A backslash, a quote, a newline, a byte that is no character and a letter, in one
    read. -/
theorem quote_is_literal_of_escapes :
    let bs : Bytes := [92, 39, 10, 255, 97]
    (Source.ofBytes (quote bs)).Delivers (quote bs) ∧
      (start (.ofBytes (quote bs)) {}).run.map (fun r => (r.1, r.2.status)) =
        [(⟨.string, "'\\\\\\'\\n\\xffa'", 1⟩, .ok), (⟨.endMarker, "", 1⟩, .endOfInput)] := by
  intro bs
  have hsource := Source.delivers_ofBytes (quote bs)
  have hquote : quote bs = Bytes.ofString "'\\\\\\'\\n\\xffa'" := by decide
  have htext : Utf8.decode (quote bs) = "'\\\\\\'\\n\\xffa'" := by
    rw [hquote, Utf8.decode_ofString]
  exact ⟨hsource, htext ▸ (quote_is_literal bs hsource {}).1⟩

end Lexer

end ScriptCore.Quoted
