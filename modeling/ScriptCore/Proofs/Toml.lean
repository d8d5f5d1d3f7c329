import Mathlib.Data.List.TakeWhile
import ScriptCore.Proofs.Json.Values
import ScriptCore.Proofs.Numeral
import ScriptCore.Toml.Printer
import ScriptCore.Toml.Reader

/-!
# Printing and reading TOML

A document is read back from its text, whatever its texts consist of.

* `Toml.IsWritable`: the documents that have a text, with names that can be written and no
  number that can not.
* `Toml.quotedTail_flatMap_printChar`: a text is read back from between its quotes.
* `Toml.Line.read?_print`: so is a line.
* `Toml.splitLines_flatMap_print`: the lines of a text are those that were printed.
* `Toml.read?_render`: reading is a left inverse of printing.
-/

namespace ScriptCore.Toml

/-! ## What can be written -/

/-- Whether a name can stand for itself. -/
def IsName (name : String) : Prop :=
  name.toList ≠ [] ∧ ∀ c ∈ name.toList, isKeyChar c = true

/-- Whether an integer has 64 bits. -/
def Is64Bit (n : Int) : Prop :=
  Int64.minValue.toInt ≤ n ∧ n ≤ Int64.maxValue.toInt

/-- The values that can be written: texts, integers of 64 bits and truth values. -/
inductive Value.IsWritable : Value → Prop
  | text (s : String) : IsWritable (.text s)
  | integer {n : Int} : Is64Bit n → IsWritable (.integer n)
  | truth (b : Bool) : IsWritable (.truth b)

/-- Whether the name and the value on a line can be written. -/
inductive Line.IsWritable : Line → Prop
  | blank : IsWritable .blank
  | header {name : String} : IsName name → IsWritable (.header name)
  | entry {key : String} {value : Value} : IsName key → value.IsWritable →
    IsWritable (.entry key value)

/-- Whether keys and their values can be written. -/
def Entries.IsWritable (es : Entries) : Prop :=
  ∀ e ∈ es, IsName e.1 ∧ e.2.IsWritable

/-- Whether a document has a text: its names and values can be written, and no name is used
    twice. -/
structure IsWritable (t : Toml) : Prop where
  names : t.HasDistinctNames
  entries : Entries.IsWritable t.entries
  tables : ∀ x ∈ t.tables, IsName x.1 ∧ Entries.IsWritable x.2

variable {c x : Char} {s : List Char} {n : Int} {v : Value} {l : Line} {ls : List Line} {t : Toml}

/-! ## Characters -/

theorem ne_of_isKeyChar (hc : isKeyChar c = true) (hx : isKeyChar x = false) : c ≠ x := by
  rintro rfl
  rw [hx] at hc
  cases hc

theorem isBlank_of_isKeyChar (hc : isKeyChar c = true) : isBlank c = false := by
  rw [isBlank, beq_false_of_ne (ne_of_isKeyChar hc rfl), beq_false_of_ne (ne_of_isKeyChar hc rfl),
    Bool.or_false]

theorem skipBlanks_cons (hc : isBlank c = false) : skipBlanks (c :: s) = c :: s :=
  List.dropWhile_cons_of_neg (ne_true_of_eq_false hc)

/-! ## Texts -/

theorem quotedTail_escape {e : Char} (hu : e ≠ 'u') (hU : e ≠ 'U') :
    quotedTail ('\\' :: e :: s) = push? (escaped? e) (quotedTail s) := by
  rw [quotedTail]
  · exact fun _ _ _ _ _ heq _ => hu heq
  · exact fun _ _ _ _ _ _ _ _ _ heq _ => hU heq

theorem toNat_lt_of_control (hc : c < ' ' ∨ c = '\x7f') : c.toNat < 128 := by
  rcases hc with hc | rfl
  · exact Nat.lt_trans (UInt32.lt_iff_toNat_lt.1 hc) (by decide)
  · decide

/-- A control character is read back from its code. -/
theorem ofCode?_print (hc : c < ' ' ∨ c = '\x7f') :
    ofCode? ['0', '0', hexDigit (c.toNat / 16), hexDigit (c.toNat % 16)] = some c := by
  have hcode : ∀ n < 128,
      ofCode? ['0', '0', hexDigit (n / 16), hexDigit (n % 16)] = some (Char.ofNat n) := by decide
  rw [hcode c.toNat (toNat_lt_of_control hc), Char.ofNat_toNat]

theorem quotedTail_printChar (c : Char) (s : List Char) :
    quotedTail (printChar c ++ s) = push? (some c) (quotedTail s) := by
  -- one case for each way that a character is written
  rw [printChar]
  split_ifs with hself hb hf hn hr ht hcontrol
  · rcases hself with rfl | rfl <;> exact quotedTail_escape (by decide) (by decide)
  · exact hb ▸ quotedTail_escape (by decide) (by decide)
  · exact hf ▸ quotedTail_escape (by decide) (by decide)
  · exact hn ▸ quotedTail_escape (by decide) (by decide)
  · exact hr ▸ quotedTail_escape (by decide) (by decide)
  · exact ht ▸ quotedTail_escape (by decide) (by decide)
  · rw [← ofCode?_print hcontrol]
    rfl
  · obtain ⟨hge, hne⟩ := not_or.1 hcontrol
    have hplain : isPlain c = true := by simp [isPlain, hne, Char.not_lt.1 hge]
    rw [List.singleton_append, quotedTail, hplain, if_pos rfl]
    · exact fun heq => hself (.inl heq)
    · exact fun _ _ _ _ _ heq _ => hself (.inr heq)
    · exact fun _ _ _ _ _ _ _ _ _ heq _ => hself (.inr heq)
    · exact fun _ _ heq _ => hself (.inr heq)

/-- A text is read back from between its quotes. -/
theorem quotedTail_flatMap_printChar (cs s : List Char) :
    quotedTail (cs.flatMap printChar ++ '"' :: s) = some (cs, s) := by
  induction cs with
  | nil => rw [List.flatMap_nil, List.nil_append, quotedTail]
  | cons c cs ih =>
    rw [List.flatMap_cons, List.append_assoc, quotedTail_printChar, ih]
    rfl

/-! ## Integers -/

theorem ungroup?_of_notMem (h : '_' ∉ s) : ungroup? s = some s := by
  fun_induction ungroup? s with
  | case1 => rfl
  | case2 => exact absurd List.mem_cons_self h
  | case3 => simp at h
  | case4 d s _ _ ih =>
    rw [ih (fun hs => h (List.mem_cons_of_mem d hs))]
    rfl

theorem decimal?_toDigits (n : Nat) : decimal? (Nat.toDigits 10 n) = some n := by
  have hzero : ¬((Nat.toDigits 10 n).head? = some '0' ∧ 1 < (Nat.toDigits 10 n).length) :=
    fun h => absurd (Numeral.length_of_head?_toDigits h.1) (Nat.not_le.2 h.2)
  have hdigits : '_' ∉ Nat.toDigits 10 n := fun h =>
    absurd (Numeral.isDigit_of_mem_toDigits h) (by decide)
  rw [decimal?, if_neg hzero, grouped?, ungroup?_of_notMem hdigits, Option.bind_some,
    Numeral.value?_toDigits]

theorem sign_toDigits (n : Nat) : sign (Nat.toDigits 10 n) = (false, Nat.toDigits 10 n) := by
  obtain ⟨c, ds, hds, hc⟩ := Numeral.exists_toDigits_eq_cons n
  rw [hds, sign]
  · rintro _ ⟨⟩
    exact absurd hc (by decide)
  · rintro _ ⟨⟩
    exact absurd hc (by decide)

theorem integer?_eq (h : ∀ x, x.isDigit = false → ∀ s', s ≠ '0' :: x :: s') :
    integer? s =
      (decimal? (sign s).2).map fun n : Nat => if (sign s).1 then -(n : Int) else n := by
  rw [integer?]
  · cases hvalue : decimal? (sign s).2 <;> simp [hvalue]
  · exact h 'x' rfl
  · exact h 'o' rfl
  · exact h 'b' rfl

theorem isDigit_or_eq_of_mem_printInteger (hc : c ∈ printInteger n) :
    c.isDigit = true ∨ c = '-' := by
  rw [printInteger] at hc
  split_ifs at hc
  · exact (List.mem_cons.1 hc).elim .inr fun hc => .inl (Numeral.isDigit_of_mem_toDigits hc)
  · exact .inl (Numeral.isDigit_of_mem_toDigits hc)

/-- An integer is written with characters that names are made of. -/
theorem isKeyChar_of_mem_printInteger (hc : c ∈ printInteger n) : isKeyChar c = true := by
  rcases isDigit_or_eq_of_mem_printInteger hc with hdigit | rfl
  · rw [isKeyChar, Char.isAlphanum, hdigit, Bool.or_true, Bool.true_or, Bool.true_or]
  · rfl

theorem printInteger_ne_nil (n : Int) : printInteger n ≠ [] := by
  rw [printInteger]
  split_ifs
  · exact List.cons_ne_nil _ _
  · exact Nat.toDigits_ne_nil

/-- An integer is read back from its digits. -/
theorem integer?_printInteger (n : Int) : integer? (printInteger n) = some n := by
  rw [integer?_eq]
  · rw [printInteger]
    by_cases hn : n < 0
    · rw [if_pos hn, sign, decimal?_toDigits, Option.map_some, if_pos rfl,
        Int.ofNat_natAbs_of_nonpos (Int.le_of_lt hn), Int.neg_neg]
    · rw [if_neg hn, sign_toDigits, decimal?_toDigits, Option.map_some, if_neg Bool.false_ne_true,
        Int.natAbs_of_nonneg (Int.not_lt.1 hn)]
  · -- neither a digit nor a sign tells another base
    intro x hx s heq
    rw [printInteger] at heq
    split_ifs at heq
    · cases (List.cons.inj heq).1
    · have hdigit : x.isDigit = true :=
        Numeral.isDigit_of_mem_toDigits (heq ▸ List.mem_cons_of_mem '0' List.mem_cons_self)
      rw [hx] at hdigit
      cases hdigit

/-! ## Values -/

/-- A word without quotes is read to its end. -/
theorem value?_word (hs : ∀ c ∈ s, isWordChar c = true)
    (hquote : ∀ c ∈ s, c ≠ '"' ∧ c ≠ '\'') :
    value? s = (Value.ofWord? s).map fun v => (v, []) := by
  rw [value?, List.takeWhile_eq_self_iff.2 hs, List.dropWhile_eq_nil_iff.2 hs]
  · rintro _ rfl
    exact (hquote _ List.mem_cons_self).1 rfl
  · rintro _ rfl
    exact (hquote _ List.mem_cons_self).2 rfl

theorem isWordChar_of_isKeyChar (hc : isKeyChar c = true) : isWordChar c = true := by
  rw [isWordChar, isBlank_of_isKeyChar hc, Bool.not_false, Bool.true_and, decide_eq_true_eq]
  exact ne_of_isKeyChar hc rfl

theorem value?_printInteger (h : Is64Bit n) :
    value? (printInteger n) = some (.integer n, []) := by
  -- the words for truth values have letters
  have htrue : printInteger n ≠ "true".toList := fun heq =>
    absurd (isDigit_or_eq_of_mem_printInteger (n := n) (c := 't') (by simp [heq])) (by decide)
  have hfalse : printInteger n ≠ "false".toList := fun heq =>
    absurd (isDigit_or_eq_of_mem_printInteger (n := n) (c := 'f') (by simp [heq])) (by decide)
  rw [value?_word, Value.ofWord?, if_neg htrue, if_neg hfalse, integer64?, integer?_printInteger,
    Option.bind_some, if_pos (And.intro h.1 h.2), Option.map_some]
  · exact fun c hc => isWordChar_of_isKeyChar (isKeyChar_of_mem_printInteger hc)
  · intro c hc
    have hkey := isKeyChar_of_mem_printInteger hc
    exact ⟨ne_of_isKeyChar hkey rfl, ne_of_isKeyChar hkey rfl⟩

/-- A value is read back from its text. -/
theorem value?_print (h : v.IsWritable) : value? v.print = some (v, []) := by
  cases h with
  | text s =>
    rw [Value.print, value?, quotedTail_flatMap_printChar, Option.map_some]
    simp only [String.ofList_toList]
  | integer h => exact value?_printInteger h
  | truth b => cases b <;> rfl

theorem skipBlanks_print (h : v.IsWritable) : skipBlanks (' ' :: v.print) = v.print := by
  suffices ∃ c s, v.print = c :: s ∧ isBlank c = false by
    obtain ⟨c, s, hprint, hc⟩ := this
    rw [hprint]
    exact skipBlanks_cons hc
  cases h with
  | text s => exact ⟨_, _, rfl, rfl⟩
  | @integer n =>
    obtain ⟨c, s, hcs⟩ := List.exists_cons_of_ne_nil (printInteger_ne_nil n)
    have hc := isKeyChar_of_mem_printInteger (hcs ▸ List.mem_cons_self)
    exact ⟨c, s, hcs, isBlank_of_isKeyChar hc⟩
  | truth b => cases b <;> exact ⟨_, _, rfl, rfl⟩

/-! ## Lines -/

theorem skipBlanks_append {name : String} (h : IsName name) (s : List Char) :
    skipBlanks (name.toList ++ s) = name.toList ++ s := by
  obtain ⟨c, cs, hcs⟩ := List.exists_cons_of_ne_nil h.1
  rw [hcs, List.cons_append]
  exact skipBlanks_cons (isBlank_of_isKeyChar (h.2 c (hcs ▸ List.mem_cons_self)))

/-- A name is read back if what follows it is not part of it. -/
theorem key?_append {name : String} (h : IsName name) (hc : isKeyChar c = false) (s : List Char) :
    key? (name.toList ++ c :: s) = some (name, c :: s) := by
  rw [key?, List.takeWhile_append_of_pos h.2, List.dropWhile_append_of_pos h.2,
    List.takeWhile_cons_of_neg (ne_true_of_eq_false hc),
    List.dropWhile_cons_of_neg (ne_true_of_eq_false hc), List.append_nil, if_neg h.1,
    String.ofList_toList]

theorem Line.read?_header {name : String} (h : IsName name) :
    read? (Line.header name).print = some (.header name) := by
  rw [Line.print, read?, skipBlanks_cons rfl]
  simp only [skipBlanks_append h, key?_append h (c := ']') rfl, Option.bind_some]
  rfl

theorem Line.read?_entry {key : String} (hkey : IsName key) (hv : v.IsWritable) :
    read? (Line.entry key v).print = some (.entry key v) := by
  obtain ⟨c, cs, hcs⟩ := List.exists_cons_of_ne_nil hkey.1
  have hc := hkey.2 c (hcs ▸ List.mem_cons_self)
  have hrest : isRest (key.toList ++ ' ' :: '=' :: ' ' :: v.print) = false := by
    rw [isRest, skipBlanks_append hkey, hcs]
    simp [ne_of_isKeyChar hc (x := '#') rfl]
  have hvalue : skipBlanks (' ' :: v.print) = v.print := skipBlanks_print hv
  rw [Line.print, read?, skipBlanks_append hkey]
  split
  · next s heq =>
    rw [hcs] at heq
    exact absurd (List.cons.inj heq).1 (ne_of_isKeyChar hc rfl)
  · have hequals : ∀ s, skipBlanks (' ' :: '=' :: s) = '=' :: s := fun _ => rfl
    simp only [hrest, key?_append hkey (c := ' ') rfl,
      Option.bind_some, hequals, hvalue, value?_print hv]
    rfl

/-- A line is read back from its text. -/
theorem Line.read?_print (h : l.IsWritable) : read? l.print = some l := by
  cases h with
  | blank => rfl
  | header h => exact read?_header h
  | entry hkey hv => exact read?_entry hkey hv

/-! ## Documents -/

/-- Whether a character is none of those that end a line. -/
def StaysOnLine (c : Char) : Prop :=
  c ≠ '\n' ∧ c ≠ '\r'

instance (c : Char) : Decidable (StaysOnLine c) :=
  inferInstanceAs (Decidable (_ ∧ _))

theorem staysOnLine_of_isKeyChar (hc : isKeyChar c = true) : StaysOnLine c :=
  ⟨ne_of_isKeyChar hc rfl, ne_of_isKeyChar hc rfl⟩

theorem splitLines_append (h : ∀ c ∈ s, StaysOnLine c) (rest : List Char) :
    splitLines (s ++ '\n' :: rest) = s :: splitLines rest := by
  induction s with
  | nil => rfl
  | cons c s ih =>
    obtain ⟨⟨hn, hr⟩, hs⟩ := List.forall_mem_cons.1 h
    rw [List.cons_append, splitLines, ih hs]
    · exact hn
    · exact fun _ hc _ => hr hc

theorem staysOnLine_printChar (c : Char) : ∀ x ∈ printChar c, StaysOnLine x := by
  rw [printChar]
  split_ifs with hself hb hf hn hr ht hcontrol
  · rcases hself with rfl | rfl <;> simp [StaysOnLine]
  iterate 5 simp [StaysOnLine]
  · have hhex : ∀ d < 16, StaysOnLine (hexDigit d) := by decide
    have hlt := toNat_lt_of_control hcontrol
    have hhigh := hhex (c.toNat / 16) (by omega)
    have hlow := hhex (c.toNat % 16) (by omega)
    have hcode : ∀ x ∈ ['\\', 'u', '0', '0'], StaysOnLine x := by simp [StaysOnLine]
    exact List.forall_mem_append.2
      ⟨hcode, List.forall_mem_cons.2 ⟨hhigh, List.forall_mem_singleton.2 hlow⟩⟩
  · exact List.forall_mem_singleton.2 ⟨hn, hr⟩

theorem Value.staysOnLine_print (h : v.IsWritable) : ∀ c ∈ v.print, StaysOnLine c := by
  cases h with
  | text s =>
    have hquote : StaysOnLine '"' := by decide
    have hs : ∀ c ∈ s.toList.flatMap printChar, StaysOnLine c := fun c hc =>
      have ⟨x, _, hx⟩ := List.mem_flatMap.1 hc
      staysOnLine_printChar x c hx
    exact List.forall_mem_cons.2
      ⟨hquote, List.forall_mem_append.2 ⟨hs, List.forall_mem_singleton.2 hquote⟩⟩
  | integer => exact fun c hc => staysOnLine_of_isKeyChar (isKeyChar_of_mem_printInteger hc)
  | truth b => cases b <;> simp [print, StaysOnLine]

theorem Line.staysOnLine_print (h : l.IsWritable) : ∀ c ∈ l.print, StaysOnLine c := by
  have hname : ∀ {name}, IsName name → ∀ c ∈ name.toList, StaysOnLine c := fun h c hc =>
    staysOnLine_of_isKeyChar (h.2 c hc)
  cases h with
  | blank => exact nofun
  | header h =>
    have hbrackets : StaysOnLine '[' ∧ StaysOnLine ']' := by decide
    exact List.forall_mem_cons.2 ⟨hbrackets.1,
      List.forall_mem_append.2 ⟨hname h, List.forall_mem_singleton.2 hbrackets.2⟩⟩
  | entry hkey hv =>
    have hequals : ∀ c ∈ [' ', '=', ' '], StaysOnLine c := by simp [StaysOnLine]
    exact List.forall_mem_append.2 ⟨hname hkey,
      List.forall_mem_append.2 ⟨hequals, Value.staysOnLine_print hv⟩⟩

/-- The lines of a text are those that were printed, and an empty one at its end. -/
theorem splitLines_flatMap_print (h : ∀ l ∈ ls, l.IsWritable) :
    splitLines (ls.flatMap fun l => l.print ++ ['\n']) = (ls ++ [Line.blank]).map Line.print := by
  induction ls with
  | nil => rfl
  | cons l ls ih =>
    obtain ⟨hl, hls⟩ := List.forall_mem_cons.1 h
    rw [List.flatMap_cons, List.append_assoc, List.singleton_append,
      splitLines_append (Line.staysOnLine_print hl), ih hls]
    rfl

/-- No text begins with a byte order mark. -/
theorem skipMark_flatMap_print (h : ∀ l ∈ ls, l.IsWritable) :
    skipMark (ls.flatMap fun l => l.print ++ ['\n']) =
      ls.flatMap fun l => l.print ++ ['\n'] := by
  cases ls with
  | nil => rfl
  | cons l ls =>
    cases h l List.mem_cons_self with
    | blank => rfl
    | header => rfl
    | @entry key value hkey hv =>
      obtain ⟨c, cs, hcs⟩ := List.exists_cons_of_ne_nil hkey.1
      rw [List.flatMap_cons, Line.print, hcs, List.cons_append, List.cons_append, List.cons_append,
        skipMark]
      rintro _ heq
      exact ne_of_isKeyChar (hkey.2 c (hcs ▸ List.mem_cons_self)) rfl (List.cons.inj heq).1

theorem forall_mem_intercalate {α : Type} {p : α → Prop} {sep : List α} {xss : List (List α)}
    (hsep : ∀ a ∈ sep, p a) (h : ∀ xs ∈ xss, ∀ a ∈ xs, p a) :
    ∀ a ∈ sep.intercalate xss, p a := by
  induction xss with
  | nil => exact nofun
  | cons xs xss ih =>
    obtain ⟨hxs, hxss⟩ := List.forall_mem_cons.1 h
    cases xss with
    | nil => rwa [List.intercalate_singleton]
    | cons ys yss =>
      rw [List.intercalate_cons_cons]
      exact List.forall_mem_append.2 ⟨List.forall_mem_append.2 ⟨hxs, hsep⟩, ih hxss⟩

/-- The lines of a document that has a text can be written. -/
theorem IsWritable.lines (h : t.IsWritable) : ∀ l ∈ t.toLines, l.IsWritable := by
  have hentries : ∀ {es}, Entries.IsWritable es → ∀ l ∈ es.map entryLine, l.IsWritable :=
    fun hes => List.forall_mem_map.2 fun e he => .entry (hes e he).1 (hes e he).2
  have htables : ∀ ls ∈ t.tables.map tableLines, ∀ l ∈ ls, l.IsWritable :=
    List.forall_mem_map.2 fun x hx => List.forall_mem_cons.2
      ⟨.header (h.tables x hx).1, hentries (h.tables x hx).2⟩
  refine forall_mem_intercalate (List.forall_mem_singleton.2 .blank) ?_
  split_ifs
  · exact htables
  · exact List.forall_mem_cons.2 ⟨hentries h.entries, htables⟩

theorem group_append_blank (ls : List Line) : group (ls ++ [Line.blank]) = group ls := by
  induction ls with
  | nil => rfl
  | cons l ls ih => cases l <;> rw [List.cons_append, group, group, ih]

/-- **Reading is a left inverse of printing.** A document is read back from its text. -/
theorem read?_render (h : t.IsWritable) : read? t.render = some t := by
  have hlines : ((t.toLines ++ [Line.blank]).map Line.print).mapM Line.read? =
      some (t.toLines ++ [Line.blank]) :=
    Json.mapM_map_eq_some fun l hl => Line.read?_print <| (List.mem_append.1 hl).elim
      (h.lines l) fun hl => List.mem_singleton.1 hl ▸ .blank
  rw [read?, render, String.toList_ofList, skipMark_flatMap_print h.lines,
    splitLines_flatMap_print h.lines, hlines, Option.bind_some, ofLines?, group_append_blank]
  exact ofLines?_toLines h.names

end ScriptCore.Toml
