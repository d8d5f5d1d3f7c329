import Mathlib.Data.List.DropRight
import ScriptCore.Json.Printer
import ScriptCore.Json.Reader
import ScriptCore.Proofs.Json.Values

/-!
# Printing and reading JSON

A value whose numbers are integers and whose strings are texts is read back from its text,
however it is laid out.

* `Json.Plain`: such values.
* `Json.EndsNumber`: what may follow a number that is at its end.
* `Json.ReadsAs`: a text is read as something wherever it stands.
* `Json.ReadsParts`: how the items of an array and the fields of an object are read; they are
  read back if each of them is (`Json.ReadsParts.tail_join`).
* `Json.Plain.readable`: plain values are read back wherever they stand.
* `Json.read?_render`: reading is a left inverse of printing.
-/

namespace ScriptCore.Json

/-- The values whose numbers are integers and whose strings are texts. -/
inductive Plain : Json → Prop
  | null : Plain .null
  | bool (b : Bool) : Plain (.bool b)
  | integer (n : Int) : Plain (ofInt n)
  | string (s : String) : Plain (ofString s)
  | array {items : List Json} (hitems : ∀ j ∈ items, Plain j) : Plain (.array items)
  | object {fields : List (String × Json)} (hfields : ∀ f ∈ fields, Plain f.2) :
    Plain (.object (fields.map fun (name, j) => (name.toList.map .char, j)))

theorem Plain.natural (n : Nat) : (ofNat n).Plain :=
  ofNat_eq_ofInt n ▸ .integer n

variable {c : Char} {s s' rest : List Char}

/-! ## Strings -/

/-- A control character is read back from its code. -/
theorem stringTail_codeEscape {n : Nat} (hn : n < 32) :
    stringTail (codeEscape n ++ s) =
      (stringTail s).map fun (symbols, s) => (.char (Char.ofNat n) :: symbols, s) := by
  have hvalue : ∀ n < 32, Numeral.value? 16 [Nat.digitChar (n / 4096 % 16),
      Nat.digitChar (n / 256 % 16), Nat.digitChar (n / 16 % 16), Nat.digitChar (n % 16)] =
        some n := by decide
  have hsurrogate : ¬(0xD800 ≤ n ∧ n ≤ 0xDFFF) := fun h => by omega
  simp only [codeEscape, List.cons_append, List.nil_append]
  rw [stringTail, hvalue n hn]
  cases stringTail s with
  | none => rfl
  | some p => simp only [Option.map_some, if_neg hsurrogate]

theorem stringTail_escape {e : Char} (hu : e ≠ 'u') (hc : escaped? e = some c) :
    stringTail ('\\' :: e :: s) =
      (stringTail s).map fun (symbols, s) => (.char c :: symbols, s) := by
  rw [stringTail, hc]
  · cases stringTail s <;> rfl
  · exact fun _ _ _ _ _ heq _ => hu heq

theorem stringTail_print (c : Char) (s : List Char) :
    stringTail (Symbol.print (.char c) ++ s) =
      (stringTail s).map fun (symbols, s) => (.char c :: symbols, s) := by
  -- one case for each way that a character is written
  rw [Symbol.print]
  split_ifs with hquote hb hf hn hr ht hcontrol
  · rcases hquote with rfl | rfl <;> exact stringTail_escape (by decide) rfl
  · exact hb ▸ stringTail_escape (by decide) rfl
  · exact hf ▸ stringTail_escape (by decide) rfl
  · exact hn ▸ stringTail_escape (by decide) rfl
  · exact hr ▸ stringTail_escape (by decide) rfl
  · exact ht ▸ stringTail_escape (by decide) rfl
  · have hcode : c.toNat < 32 := UInt32.lt_iff_toNat_lt.1 hcontrol
    rw [stringTail_codeEscape hcode, Char.ofNat_toNat]
  · rw [List.singleton_append, stringTail, if_neg hcontrol]
    · exact fun heq => hquote (.inl heq)
    · exact fun _ _ _ _ _ heq _ => hquote (.inr heq)
    · exact fun _ _ heq _ => hquote (.inr heq)

theorem stringTail_flatMap_print (cs s : List Char) :
    stringTail ((cs.map Symbol.char).flatMap Symbol.print ++ '"' :: s) =
      some (cs.map .char, s) := by
  induction cs with
  | nil => simp [stringTail]
  | cons c cs ih =>
    rw [List.map_cons, List.flatMap_cons, List.append_assoc, stringTail_print, ih]
    rfl

/-- Characters are no surrogates. -/
theorem pairSurrogates_char (cs : List Char) :
    pairSurrogates (cs.map .char) = cs.map .char := by
  induction cs with
  | nil => rfl
  | cons c cs ih => rw [List.map_cons, pairSurrogates, ih]; nofun

/-- A text is read back from between its quotes. -/
theorem stringBody_print (cs s : List Char) :
    stringBody ((cs.map Symbol.char).flatMap Symbol.print ++ '"' :: s) =
      some (cs.map .char, s) := by
  rw [stringBody, stringTail_flatMap_print, Option.map_some]
  exact congrArg (fun symbols => some (symbols, s)) (pairSurrogates_char cs)

/-! ## Numbers -/

/-- Whether a number that stands before a text is at its end. -/
def EndsNumber (s : List Char) : Prop :=
  ∀ c ∈ s.head?, c.isDigit = false ∧ c ≠ '.' ∧ c ≠ 'e' ∧ c ≠ 'E'

theorem endsNumber_nil : EndsNumber [] := nofun

theorem endsNumber_cons (hc : c.isDigit = false ∧ c ≠ '.' ∧ c ≠ 'e' ∧ c ≠ 'E') :
    EndsNumber (c :: s) := by
  rintro _ ⟨⟩
  exact hc

/-- No digits, no fraction and no exponent follow. -/
theorem EndsNumber.parts (h : EndsNumber s) (done : List Char) :
    s.takeWhile Char.isDigit = [] ∧ s.dropWhile Char.isDigit = s ∧
      fractionAfter done s = some (done, s) ∧ exponentAfter done s = some (done, s) := by
  cases s with
  | nil => exact ⟨rfl, rfl, rfl, rfl⟩
  | cons c s =>
    obtain ⟨hdigit, hpoint, he, hE⟩ := h c rfl
    refine ⟨List.takeWhile_cons_of_neg (ne_true_of_eq_false hdigit),
      List.dropWhile_cons_of_neg (ne_true_of_eq_false hdigit), ?_, ?_⟩
    · rw [fractionAfter]
      exact fun _ heq => hpoint (List.cons.inj heq).1
    · rw [exponentAfter, if_neg (not_or.2 ⟨he, hE⟩)]

/-- A numeral is a number, perhaps after a sign. -/
theorem numberBody_of_signAfter (sign : List Char) {n : Nat} (hrest : EndsNumber rest)
    (hs : signAfter ['-'] [] s = (sign, Nat.toDigits 10 n ++ rest)) :
    numberBody s = some (sign ++ Nat.toDigits 10 n, rest) := by
  have hdigits : ∀ c ∈ Nat.toDigits 10 n, c.isDigit = true := fun _ =>
    Numeral.isDigit_of_mem_toDigits
  have hzero : ¬(Nat.toDigits 10 n = [] ∨
      (Nat.toDigits 10 n).head? = some '0' ∧ 1 < (Nat.toDigits 10 n).length) := by
    rintro (hnil | ⟨hhead, hlength⟩)
    · exact Nat.toDigits_ne_nil hnil
    · exact absurd (Numeral.length_of_head?_toDigits hhead) (Nat.not_le.2 hlength)
  obtain ⟨htake, hdrop, hfraction, hexponent⟩ := hrest.parts (sign ++ Nat.toDigits 10 n)
  rw [numberBody, hs]
  dsimp only
  rw [List.takeWhile_append_of_pos hdigits, List.dropWhile_append_of_pos hdigits, htake, hdrop,
    List.append_nil, if_neg hzero, hfraction, Option.bind_some, hexponent]

/-- An integer as it is written. -/
def integer (n : Int) : List Char :=
  if n < 0 then '-' :: Nat.toDigits 10 n.natAbs else Nat.toDigits 10 n.natAbs

theorem exists_integer_eq_cons (n : Int) :
    ∃ c s, integer n = c :: s ∧ (c = '-' ∨ c.isDigit = true) := by
  rw [integer]
  split
  · exact ⟨_, _, rfl, .inl rfl⟩
  · obtain ⟨c, ds, hds, hc⟩ := Numeral.exists_toDigits_eq_cons n.natAbs
    exact ⟨c, ds, hds, .inr hc⟩

theorem numberBody_integer (n : Int) (hrest : EndsNumber rest) :
    numberBody (integer n ++ rest) = some (integer n, rest) := by
  rw [integer]
  split
  · exact numberBody_of_signAfter ['-'] hrest rfl
  · refine numberBody_of_signAfter [] hrest ?_
    obtain ⟨c, ds, hds, hdigit⟩ := Numeral.exists_toDigits_eq_cons n.natAbs
    rw [hds, List.cons_append, signAfter, if_neg]
    rw [List.mem_singleton]
    rintro rfl
    exact absurd hdigit (by decide)

/-! ## Blanks -/

theorem skipSpaces_append (hs : ∀ c ∈ s, isSpace c = true) :
    skipSpaces (s ++ s') = skipSpaces s' :=
  List.dropWhile_append_of_pos hs

theorem skipSpaces_cons (hc : isSpace c = false) : skipSpaces (c :: s) = c :: s :=
  List.dropWhile_cons_of_neg (ne_true_of_eq_false hc)

theorem skipSpaces_skipSpaces (s : List Char) : skipSpaces (skipSpaces s) = skipSpaces s :=
  List.dropWhile_idempotent (p := isSpace) s

theorem isSpace_of_mem_break {layout : Layout} {depth : Nat} (hc : c ∈ layout.break depth) :
    isSpace c = true := by
  cases layout with
  | compact => cases hc
  | lines =>
    rcases List.mem_cons.1 hc with rfl | hc
    · rfl
    · rw [List.eq_of_mem_replicate hc]
      rfl

theorem skipSpaces_break (layout : Layout) (depth : Nat) (s : List Char) :
    skipSpaces (layout.break depth ++ s) = skipSpaces s :=
  skipSpaces_append fun _ => isSpace_of_mem_break

theorem endsNumber_break (layout : Layout) (depth : Nat) (h : EndsNumber s) :
    EndsNumber (layout.break depth ++ s) := by
  cases layout with
  | compact => exact h
  | lines => exact endsNumber_cons (by decide)

/-- Blanks in front of a value change nothing. -/
theorem value_congr (h : skipSpaces s = skipSpaces s') (n : Nat) : value n s = value n s' := by
  cases n with
  | zero => rfl
  | succ n => rw [value, value, h]

/-! ## Parts of arrays and objects -/

/-- A field of an object: its name, a colon and its value. -/
def field (n : Nat) (s : List Char) : Option ((List Symbol × Json) × List Char) :=
  match skipSpaces s with
  | '"' :: s =>
    (stringBody s).bind fun (name, s) =>
      match skipSpaces s with
      | ':' :: s => (value n s).map fun (j, s) => ((name, j), s)
      | _ => none
  | _ => none

theorem of_field {n : Nat} {name : List Symbol} {j : Json} (h : field n s = some ((name, j), s')) :
    ∃ s₁ s₂ s₃, skipSpaces s = '"' :: s₁ ∧ stringBody s₁ = some (name, s₂) ∧
      skipSpaces s₂ = ':' :: s₃ ∧ value n s₃ = some (j, s') := by
  unfold field at h
  split at h
  · next s₁ h₁ =>
    obtain ⟨⟨name', s₂⟩, h₂, h⟩ := Option.bind_eq_some_iff.1 h
    dsimp only at h
    split at h
    · next s₃ h₃ =>
      obtain ⟨⟨j', s''⟩, hj, h⟩ := Option.map_eq_some_iff.1 h
      cases h
      exact ⟨s₁, s₂, s₃, h₁, h₂, h₃, hj⟩
    · cases h
  · cases h

section Parts

variable {α : Type} {close : Char} {part : Nat → List Char → Option (α × List Char)}
  {tail : Nat → List Char → Option (List α × List Char)}

/-- Whether a text is read as something, in more steps than it has characters, whatever follows
    that does not go on with a number. It does not begin like a blank, or like what closes an
    array or object. -/
structure ReadsAs (close : Char) (part : Nat → List Char → Option (α × List Char)) (x : α)
    (text : List Char) : Prop where
  part_eq : ∀ n rest, EndsNumber rest → text.length < n → part n (text ++ rest) = some (x, rest)
  eq_cons : ∃ c s, text = c :: s ∧ isSpace c = false ∧ c ≠ close

/-- How the parts of an array or object are read, where `part` reads one of them: after each there
    is a comma, or what closes it. -/
structure ReadsParts (close : Char) (part : Nat → List Char → Option (α × List Char))
    (tail : Nat → List Char → Option (List α × List Char)) : Prop where
  isSpace_close : isSpace close = false
  endsNumber_close : ∀ s, EndsNumber (close :: s)
  part_congr : ∀ {s s'}, skipSpaces s = skipSpaces s' → ∀ n, part n s = part n s'
  comma : ∀ {n s x t u}, part n s = some (x, t) → skipSpaces t = ',' :: u →
    tail (n + 1) s = (tail n u).map fun (xs, s) => (x :: xs, s)
  close : ∀ {n s x t u}, part n s = some (x, t) → skipSpaces t = close :: u →
    tail (n + 1) s = some ([x], u)

variable {layout : Layout} {depth n : Nat} {xs : List α} {text : α → List Char}

/-- Parts are read back, if each of them is. -/
theorem ReadsParts.tail_join (hr : ReadsParts close part tail) (hne : xs ≠ [])
    (hxs : ∀ x ∈ xs, ReadsAs close part x (text x))
    (hn : (layout.join depth (xs.map text)).length + 1 < n)
    (hs : skipSpaces s = skipSpaces (layout.join depth (xs.map text) ++ close :: rest)) :
    tail n s = some (xs, rest) := by
  -- any `s`, as the reader has skipped the blanks in front of the first part, but of no other
  induction xs generalizing n s with
  | nil => exact absurd rfl hne
  | cons x xs ih =>
    obtain ⟨n, rfl⟩ := Nat.exists_eq_succ_of_ne_zero (Nat.ne_zero_of_lt hn)
    have hpart : ∀ {rest}, skipSpaces s = skipSpaces (text x ++ rest) → EndsNumber rest →
        (text x).length < n → part n s = some (x, rest) := fun hs hrest hn =>
      (hr.part_congr hs n).trans ((hxs x List.mem_cons_self).part_eq n _ hrest hn)
    cases xs with
    | nil =>
      rw [List.map_singleton, Layout.join] at hn hs
      rw [List.length_append, List.length_append] at hn
      rw [List.append_assoc, List.append_assoc, skipSpaces_break] at hs
      have hends := endsNumber_break layout depth (hr.endsNumber_close rest)
      refine hr.close (hpart hs hends (by omega)) ?_
      rw [skipSpaces_break, skipSpaces_cons hr.isSpace_close]
    | cons x' xs =>
      -- the comma is a character to spare for the step to the next part
      rw [List.map_cons, List.map_cons, Layout.join, ← List.map_cons] at hn hs
      · rw [List.length_append, List.length_append, List.length_cons] at hn
        rw [List.append_assoc, List.append_assoc, skipSpaces_break, List.cons_append] at hs
        have hrest := ih (List.cons_ne_nil _ _) (fun x hx => hxs x (List.mem_cons_of_mem _ hx))
          (n := n) (by omega) rfl
        rw [hr.comma (hpart hs (endsNumber_cons (by decide)) (by omega))
          (skipSpaces_cons (by decide)), hrest]
        rfl
      all_goals exact List.cons_ne_nil _ _

theorem exists_join_eq (layout : Layout) (depth : Nat) (p : List Char) (ps : List (List Char)) :
    ∃ t, layout.join depth (p :: ps) = layout.break (depth + 1) ++ p ++ t := by
  cases ps <;> exact ⟨_, rfl⟩

/-- Behind blanks, parts are read back if each of them is, and do not begin like the end. -/
theorem ReadsParts.exists_tail (hr : ReadsParts close part tail) (hne : xs ≠ [])
    (hxs : ∀ x ∈ xs, ReadsAs close part x (text x))
    (hn : (layout.join depth (xs.map text)).length + 1 < n) (rest : List Char) :
    ∃ c s, skipSpaces (layout.join depth (xs.map text) ++ close :: rest) = c :: s ∧
      c ≠ close ∧ tail n (c :: s) = some (xs, rest) := by
  obtain ⟨x, xs', rfl⟩ := List.exists_cons_of_ne_nil hne
  obtain ⟨c, s, hs, hc, hclose⟩ := (hxs x List.mem_cons_self).eq_cons
  obtain ⟨t, ht⟩ := exists_join_eq layout depth (text x) (xs'.map text)
  have hskip : skipSpaces (layout.join depth ((x :: xs').map text) ++ close :: rest) =
      c :: (s ++ (t ++ close :: rest)) := by
    rw [List.map_cons, ht, List.append_assoc, List.append_assoc, skipSpaces_break, hs,
      List.cons_append, skipSpaces_cons hc]
  refine ⟨c, _, hskip, hclose, hr.tail_join hne hxs hn ?_⟩
  rw [← hskip, skipSpaces_skipSpaces]

end Parts

theorem readsParts_items : ReadsParts ']' value itemsTail where
  isSpace_close := rfl
  endsNumber_close _ := endsNumber_cons (by decide)
  part_congr := value_congr
  comma h hu := by
    rw [itemsTail, h, Option.bind_some]
    simp only [hu]
  close h hu := by
    rw [itemsTail, h, Option.bind_some]
    simp only [hu]

theorem readsParts_fields : ReadsParts '\x7d' field fieldsTail where
  isSpace_close := rfl
  endsNumber_close _ := endsNumber_cons (by decide)
  part_congr h n := by rw [field, field, h]
  comma h hu := by
    obtain ⟨s₁, s₂, s₃, h₁, h₂, h₃, hj⟩ := of_field h
    simp only [fieldsTail, h₁, h₂, h₃, hj, hu, Option.bind_some]
  close h hu := by
    obtain ⟨s₁, s₂, s₃, h₁, h₂, h₃, hj⟩ := of_field h
    simp only [fieldsTail, h₁, h₂, h₃, hj, hu, Option.bind_some]

/-! ## Words and numbers -/

theorem word?_append (word : List Char) : word? word (word ++ s) = some s := by
  rw [word?, if_pos (List.prefix_append _ _), List.drop_left]

theorem word?_of_ne {word : List Char} {c' : Char} (hc : c' ≠ c) :
    word? (c' :: word) (c :: s) = none :=
  if_neg fun h => hc (List.cons_prefix_cons.1 h).1

theorem scalar_null : scalar ("null".toList ++ s) = some (.null, s) := by
  rw [scalar, word?_append]

theorem scalar_true : scalar ("true".toList ++ s) = some (.bool true, s) := by
  have hnull : word? "null".toList ("true".toList ++ s) = none := word?_of_ne (by decide)
  rw [scalar, hnull, word?_append]

theorem scalar_false : scalar ("false".toList ++ s) = some (.bool false, s) := by
  have hnull : word? "null".toList ("false".toList ++ s) = none := word?_of_ne (by decide)
  have htrue : word? "true".toList ("false".toList ++ s) = none := word?_of_ne (by decide)
  rw [scalar, hnull, htrue, word?_append]

/-- An integer begins like nothing else. -/
theorem beginsInteger (hc : c = '-' ∨ c.isDigit = true) :
    isSpace c = false ∧ c ∉ ['"', '[', ']', '\x7b', 'n', 't', 'f'] := by
  have hothers : [' ', '\n', '\t', '\r', '"', '[', ']', '\x7b', 'n', 't', 'f'].all
      (fun d => d != '-' && !d.isDigit) = true := by decide
  have hne : c ∉ [' ', '\n', '\t', '\r', '"', '[', ']', '\x7b', 'n', 't', 'f'] := fun hmem => by
    have h := List.all_eq_true.1 hothers c hmem
    rw [Bool.and_eq_true, bne_iff_ne, Bool.not_eq_true'] at h
    exact hc.elim h.1 (ne_true_of_eq_false h.2)
  simp only [List.mem_cons, not_or] at hne ⊢
  obtain ⟨hblank, hnewline, htab, hreturn, hne⟩ := hne
  exact ⟨by simp [isSpace, hblank, hnewline, htab, hreturn], hne⟩

theorem scalar_integer (n : Int) (hs : EndsNumber s) :
    scalar (integer n ++ s) = some (ofInt n, s) := by
  obtain ⟨c, t, ht, hc⟩ := exists_integer_eq_cons n
  have hne := (beginsInteger hc).2
  simp only [List.mem_cons, not_or] at hne
  obtain ⟨-, -, -, -, hn, ht', hf, -⟩ := hne
  have hnull : word? "null".toList (integer n ++ s) = none := ht ▸ word?_of_ne (Ne.symm hn)
  have htrue : word? "true".toList (integer n ++ s) = none := ht ▸ word?_of_ne (Ne.symm ht')
  have hfalse : word? "false".toList (integer n ++ s) = none := ht ▸ word?_of_ne (Ne.symm hf)
  rw [scalar, hnull, htrue, hfalse]
  dsimp only
  rw [numberBody_integer n hs]
  rfl

/-! ## Values -/

theorem printItems_eq_map (layout : Layout) (depth : Nat) (items : List Json) :
    printItems layout depth items = items.map (print layout depth) := by
  induction items with
  | nil => rfl
  | cons j items ih => rw [printItems, ih, List.map_cons]

theorem printFields_eq_map (layout : Layout) (depth : Nat) (fs : List (List Symbol × Json)) :
    printFields layout depth fs =
      fs.map fun f => printString f.1 ++ layout.colon ++ print layout depth f.2 := by
  induction fs with
  | nil => rfl
  | cons f fs ih => rw [printFields, ih, List.map_cons]

variable {n : Nat}

theorem value_string (n : Nat) (s : List Char) : value (n + 1) ('"' :: s) =
    (stringBody s).map fun (symbols, s) => (.string symbols, s) := by
  rw [value, skipSpaces_cons (by decide)]
  rfl

theorem value_array (hs : skipSpaces s = c :: s') (hc : c ≠ ']') : value (n + 1) ('[' :: s) =
    (itemsTail n (c :: s')).map fun (items, s) => (.array items, s) := by
  rw [value, skipSpaces_cons (by decide)]
  simp only [hs]
  split
  · next heq => exact absurd (List.cons.inj heq).1 hc
  · rfl

theorem value_object (hs : skipSpaces s = c :: s') (hc : c ≠ '\x7d') :
    value (n + 1) ('\x7b' :: s) =
      (fieldsTail n (c :: s')).map fun (fields, s) => (.object fields, s) := by
  rw [value, skipSpaces_cons (by decide)]
  simp only [hs]
  split
  · next heq => exact absurd (List.cons.inj heq).1 hc
  · rfl

theorem value_scalar (hspace : isSpace c = false) (hc : c ∉ ['"', '[', ']', '\x7b']) :
    value (n + 1) (c :: s) = scalar (c :: s) := by
  simp only [List.mem_cons, not_or] at hc
  rw [value, skipSpaces_cons hspace]
  split
  · next heq => exact absurd (List.cons.inj heq).1 hc.1
  · next heq => exact absurd (List.cons.inj heq).1 hc.2.1
  · next heq => exact absurd (List.cons.inj heq).1 hc.2.2.2.1
  · rfl

/-- Whether a value is read back wherever it stands, however it is laid out. -/
def Readable (j : Json) : Prop :=
  ∀ layout depth, ReadsAs ']' value j (j.print layout depth)

theorem readable_of_scalar {j : Json} (hprint : ∀ layout depth, j.print layout depth = c :: s)
    (hspace : isSpace c = false) (hc : c ∉ ['"', '[', ']', '\x7b'])
    (hscalar : ∀ rest, EndsNumber rest → scalar (c :: s ++ rest) = some (j, rest)) :
    Readable j := by
  intro layout depth
  rw [hprint]
  constructor
  · intro n rest hrest hn
    obtain ⟨n, rfl⟩ := Nat.exists_eq_succ_of_ne_zero (Nat.ne_zero_of_lt hn)
    rw [← hscalar rest hrest]
    exact value_scalar hspace hc
  · refine ⟨c, s, rfl, hspace, ?_⟩
    rintro rfl
    exact hc (by decide)

theorem readable_null : Readable .null :=
  readable_of_scalar (c := 'n') (fun _ _ => rfl) (by decide) (by decide) fun _ _ => scalar_null

theorem readable_bool (b : Bool) : Readable (.bool b) := by
  cases b with
  | false =>
    exact readable_of_scalar (c := 'f') (fun _ _ => rfl) (by decide) (by decide) fun _ _ =>
      scalar_false
  | true =>
    exact readable_of_scalar (c := 't') (fun _ _ => rfl) (by decide) (by decide) fun _ _ =>
      scalar_true

theorem readable_integer (n : Int) : Readable (ofInt n) := by
  obtain ⟨c, s, hs, hc⟩ := exists_integer_eq_cons n
  obtain ⟨hspace, hne⟩ := beginsInteger hc
  have hsub : ['"', '[', ']', '\x7b'] ⊆ ['"', '[', ']', '\x7b', 'n', 't', 'f'] := by decide
  exact readable_of_scalar (fun _ _ => hs) hspace (fun hc => hne (hsub hc)) fun rest hrest =>
    hs ▸ scalar_integer n hrest

theorem readable_string (s : String) : Readable (ofString s) := by
  intro layout depth
  constructor
  · intro n rest _ hn
    obtain ⟨n, rfl⟩ := Nat.exists_eq_succ_of_ne_zero (Nat.ne_zero_of_lt hn)
    rw [ofString, print, printString, List.cons_append, List.append_assoc, value_string,
      List.singleton_append, stringBody_print]
    rfl
  · exact ⟨_, _, rfl, by decide, by decide⟩

theorem readable_array {items : List Json} (hitems : ∀ j ∈ items, Readable j) :
    Readable (.array items) := by
  intro layout depth
  rw [print, printItems_eq_map]
  constructor
  · intro n rest _ hn
    obtain ⟨n, rfl⟩ := Nat.exists_eq_succ_of_ne_zero (Nat.ne_zero_of_lt hn)
    rw [List.length_cons, List.length_append, List.length_singleton] at hn
    rw [List.cons_append, List.append_assoc, List.singleton_append]
    rcases eq_or_ne items [] with rfl | hne
    · rfl
    · obtain ⟨c, s, hs, hc, htail⟩ := readsParts_items.exists_tail hne
        (fun j hj => hitems j hj layout (depth + 1)) (Nat.lt_of_succ_lt_succ hn) rest
      rw [value_array hs hc, htail]
      rfl
  · exact ⟨_, _, rfl, by decide, by decide⟩

/-- A field is read back, if its value is. -/
theorem readsAs_field {f : List Symbol × Json} (hname : ∃ cs, f.1 = List.map .char cs)
    (hj : Readable f.2) (layout : Layout) (depth : Nat) :
    ReadsAs '\x7d' field f (printString f.1 ++ layout.colon ++ f.2.print layout depth) := by
  obtain ⟨_, j⟩ := f
  obtain ⟨cs, rfl⟩ := hname
  have hcolon : ∃ blanks, layout.colon = ':' :: blanks ∧ ∀ c ∈ blanks, isSpace c = true := by
    cases layout with
    | compact => exact ⟨[], rfl, nofun⟩
    | lines => exact ⟨[' '], rfl, List.forall_mem_singleton.2 rfl⟩
  obtain ⟨blanks, hcolon, hblanks⟩ := hcolon
  constructor
  · intro n rest hrest hn
    rw [List.length_append] at hn
    have hvalue := (hj layout depth).part_eq n rest hrest (by omega)
    rw [← value_congr (skipSpaces_append hblanks)] at hvalue
    have hquote : ∀ s, skipSpaces ('"' :: s) = '"' :: s := fun _ => rfl
    have hmark : ∀ s, skipSpaces (':' :: s) = ':' :: s := fun _ => rfl
    simp only [printString, hcolon, List.cons_append, List.append_assoc, List.nil_append, field,
      hquote, stringBody_print, Option.bind_some, hmark, hvalue, Option.map_some]
  · exact ⟨_, _, rfl, by decide, by decide⟩

theorem readable_object {fields : List (String × Json)} (hfields : ∀ f ∈ fields, Readable f.2) :
    Readable (.object (fields.map fun (name, j) => (name.toList.map .char, j))) := by
  intro layout depth
  rw [print, printFields_eq_map]
  constructor
  · intro n rest _ hn
    obtain ⟨n, rfl⟩ := Nat.exists_eq_succ_of_ne_zero (Nat.ne_zero_of_lt hn)
    rw [List.length_cons, List.length_append, List.length_singleton] at hn
    rw [List.cons_append, List.append_assoc, List.singleton_append]
    rcases eq_or_ne fields [] with rfl | hne
    · rfl
    · obtain ⟨c, s, hs, hc, htail⟩ := readsParts_fields.exists_tail (List.map_eq_nil_iff.not.2 hne)
        (List.forall_mem_map.2 fun f hf => readsAs_field ⟨_, rfl⟩ (hfields f hf) layout (depth + 1))
        (Nat.lt_of_succ_lt_succ hn) rest
      rw [value_object hs hc, htail]
      rfl
  · exact ⟨_, _, rfl, by decide, by decide⟩

/-- Plain values are read back, by induction on the value. -/
theorem Plain.readable {j : Json} (hj : j.Plain) : j.Readable := by
  induction hj with
  | null => exact readable_null
  | bool b => exact readable_bool b
  | integer n => exact readable_integer n
  | string s => exact readable_string s
  | array _ ih => exact readable_array ih
  | object _ ih => exact readable_object ih

/-- Reading is a left inverse of printing. -/
theorem read?_render (layout : Layout) {j : Json} (hj : j.Plain) :
    read? (j.render layout) = some j := by
  have hvalue := (hj.readable layout 0).part_eq (2 * (j.print layout 0).length + 2) []
    endsNumber_nil (by omega)
  rw [List.append_nil] at hvalue
  rw [read?, render, String.toList_ofList, hvalue]
  rfl

end ScriptCore.Json
