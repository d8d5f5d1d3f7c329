import ScriptCore.Object.Rendering
import ScriptCore.Proofs.Numeral
import ScriptCore.Proofs.Quoted

/-!
# What the texts of objects show

The texts of None, of integers, strings, tuples and dictionaries tell what they
show. Each has a first byte that tells the type (`TextOf.kind_append`), and shows
where it ends: followed by a comma, by a closing bracket or by nothing, none is the
beginning of another one (`TextOf.append_inj`). So the items of a tuple can be read
off its text, and the names and values of a dictionary (`tupleText_inj`,
`dictText_inj`).
-/

namespace ScriptCore.Object

variable {k k' : ObjectType} {s s' t t' c c' : Bytes} {parts parts' : List Bytes}

/-! ## How texts begin and end -/

/-- The type of what a text shows, told by its first byte. -/
def kind : Bytes → ObjectType
  | [] => .type
  | b :: _ =>
    if b = 'N'.toUInt8 then .none
    else if b = '\''.toUInt8 then .string
    else if b = '('.toUInt8 then .tuple
    else if b = '\x7b'.toUInt8 then .dict
    else .integer

/-- The texts of objects of a type that are built from None, integers, strings, tuples
    and dictionaries. -/
inductive TextOf : ObjectType → Bytes → Prop
  | none : TextOf .none (.ofString "None")
  | integer (n : Int64) : TextOf .integer (.ofString (toString n.toInt))
  | string (bs : Bytes) : TextOf .string (Quoted.quote bs)
  | tuple {parts : List Bytes} (hparts : ∀ p ∈ parts, TextOf (kind p) p) :
    TextOf .tuple (tupleText parts)
  | dict {entries : List (String × Bytes)} (hentries : ∀ e ∈ entries, TextOf (kind e.2) e.2) :
    TextOf .dict (dictText (entries.map (·.1)) (entries.map (·.2)))

/-- Whether a text can end here: there is nothing more, or a comma or a closing bracket. -/
def Ends (t : Bytes) : Prop :=
  ∀ b ∈ t.head?, b = ','.toUInt8 ∨ b = ')'.toUInt8 ∨ b = '\x7d'.toUInt8

/-- What closes a row of items. -/
inductive Closes : Bytes → Prop
  | paren (t : Bytes) : Closes (')'.toUInt8 :: t)
  | brace (t : Bytes) : Closes ('\x7d'.toUInt8 :: t)
  | comma (t : Bytes) : Closes (','.toUInt8 :: ')'.toUInt8 :: t)

theorem Closes.ends (hc : Closes c) : Ends c := by
  cases hc with
  | paren => exact fun b hb => .inr (.inl (Option.some.inj hb).symm)
  | brace => exact fun b hb => .inr (.inr (Option.some.inj hb).symm)
  | comma => exact fun b hb => .inl (Option.some.inj hb).symm

theorem ends_of_append (h : Ends (s ++ t)) : Ends s := by
  cases s with
  | nil => exact fun b hb => nomatch hb
  | cons b s => exact h

/-- A numeral ends where no byte of a numeral follows. -/
theorem takeWhile_numeral (n : Int) (ht : Ends t) :
    (Bytes.ofString (toString n) ++ t).takeWhile Numeral.isPart = Bytes.ofString (toString n) := by
  rw [List.takeWhile_append_of_pos fun b hb => Numeral.isPart_of_mem hb]
  cases t with
  | nil => rw [List.takeWhile_nil, List.append_nil]
  | cons b t =>
    have hb : Numeral.isPart b = false := by
      rcases ht b rfl with rfl | rfl | rfl <;> rfl
    rw [List.takeWhile_cons_of_neg (by simp [hb]), List.append_nil]

/-! ### First bytes -/

theorem kind_of_isPart {b : UInt8} (hb : Numeral.isPart b = true) : kind (b :: s) = .integer := by
  have hbytes : ∀ n < 256, Numeral.isPart (UInt8.ofNat n) = true →
      kind [UInt8.ofNat n] = .integer := by decide +kernel
  have h := hbytes b.toNat b.toNat_lt
  rw [UInt8.ofNat_toNat] at h
  exact h hb

theorem tupleText_append (parts : List Bytes) (t : Bytes) : tupleText parts ++ t =
    '('.toUInt8 :: (joinItems parts ++
      ((if parts.length = 1 then [','.toUInt8, ')'.toUInt8] else [')'.toUInt8]) ++ t)) := by
  rw [tupleText, List.append_assoc, List.append_assoc]
  split <;> rfl

/-- The text of an entry of a dictionary. -/
def entryText (e : String × Bytes) : Bytes :=
  Quoted.quote (.ofString e.1) ++ Bytes.ofString ": " ++ e.2

theorem dictText_append (entries : List (String × Bytes)) (t : Bytes) :
    dictText (entries.map (·.1)) (entries.map (·.2)) ++ t =
      '\x7b'.toUInt8 :: (joinItems (entries.map entryText) ++ ('\x7d'.toUInt8 :: t)) := by
  rw [dictText, List.append_assoc, List.append_assoc, List.zipWith_map, List.zipWith_self]
  rfl

/-- The first byte of a text tells the type of what it shows. -/
theorem TextOf.kind_append (hs : TextOf k s) (t : Bytes) : kind (s ++ t) = k := by
  cases hs with
  | none => rfl
  | integer n =>
    obtain ⟨b, bs, hn, hb⟩ := Numeral.exists_cons n.toInt
    rw [hn]
    exact kind_of_isPart hb
  | string => rfl
  | tuple =>
    rw [tupleText_append]
    rfl
  | dict =>
    rw [dictText_append]
    rfl

theorem TextOf.not_ends (hs : TextOf k s) : ¬Ends s := by
  intro h
  cases hs with
  | none | string => rcases h _ rfl with hb | hb | hb <;> cases hb
  | integer n =>
    obtain ⟨b, bs, hn, hb⟩ := Numeral.exists_cons n.toInt
    rw [hn] at h
    rcases h b rfl with rfl | rfl | rfl <;> cases hb
  | tuple =>
    rw [← List.append_nil (tupleText _), tupleText_append] at h
    rcases h _ rfl with hb | hb | hb <;> cases hb
  | dict =>
    rw [← List.append_nil (dictText _ _), dictText_append] at h
    rcases h _ rfl with hb | hb | hb <;> cases hb

/-! ## Rows of items -/

/-- The texts of further items, each after a comma. -/
def further (parts : List Bytes) : Bytes :=
  parts.flatMap (Bytes.ofString ", " ++ ·)

theorem further_cons_append (p : Bytes) (parts : List Bytes) (c : Bytes) :
    further (p :: parts) ++ c = Bytes.ofString ", " ++ (p ++ (further parts ++ c)) := by
  rw [further, List.flatMap_cons, List.append_assoc, List.append_assoc, ← further]

theorem joinItems_cons_append (p : Bytes) (parts : List Bytes) (c : Bytes) :
    joinItems (p :: parts) ++ c = p ++ (further parts ++ c) := by
  induction parts generalizing p with
  | nil => rw [joinItems, List.intercalate_singleton, further, List.flatMap_nil, List.nil_append]
  | cons q parts ih =>
    rw [joinItems, List.intercalate_cons_cons, ← joinItems, List.append_assoc, List.append_assoc,
      ih, further_cons_append]

/-- Whether no text of one row is the beginning of another one of the other. -/
def Apart (parts parts' : List Bytes) : Prop :=
  ∀ p ∈ parts, ∀ p' ∈ parts', ∀ t t', Ends t → Ends t' → p ++ t = p' ++ t' → p = p'

theorem ends_further_append (parts : List Bytes) (hc : Closes c) : Ends (further parts ++ c) := by
  cases parts with
  | nil => exact hc.ends
  | cons p parts => exact fun b hb => .inl (Option.some.inj hb).symm

theorem Closes.ne_further (hc : Closes c) (p : Bytes) (parts : List Bytes) :
    c ≠ further (p :: parts) ++ c' := by
  intro h
  cases hc <;> cases h

theorem further_append_inj (ha : Apart parts parts') (hc : Closes c) (hc' : Closes c')
    (h : further parts ++ c = further parts' ++ c') : parts = parts' := by
  induction parts generalizing parts' with
  | nil =>
    cases parts' with
    | nil => rfl
    | cons p' parts' => exact absurd h (hc.ne_further p' parts')
  | cons p parts ih =>
    cases parts' with
    | nil => exact absurd h.symm (hc'.ne_further p parts)
    | cons p' parts' =>
      rw [further_cons_append, further_cons_append] at h
      have h' := List.append_cancel_left h
      obtain rfl := ha p List.mem_cons_self p' List.mem_cons_self _ _
        (ends_further_append parts hc) (ends_further_append parts' hc') h'
      rw [ih (fun q hq q' hq' => ha q (.tail _ hq) q' (.tail _ hq')) (List.append_cancel_left h')]

theorem Closes.ne_joinItems (hc : Closes c) {p : Bytes} (hp : ¬Ends p) (parts : List Bytes) :
    c ≠ joinItems (p :: parts) ++ c' := by
  intro h
  rw [joinItems_cons_append] at h
  exact hp (ends_of_append (h ▸ hc.ends))

/-- The items of a row can be read off it. -/
theorem joinItems_append_inj (ha : Apart parts parts') (hparts : ∀ p ∈ parts, ¬Ends p)
    (hparts' : ∀ p ∈ parts', ¬Ends p) (hc : Closes c) (hc' : Closes c')
    (h : joinItems parts ++ c = joinItems parts' ++ c') : parts = parts' := by
  cases parts with
  | nil =>
    cases parts' with
    | nil => rfl
    | cons p' parts' => exact absurd h (hc.ne_joinItems (hparts' p' List.mem_cons_self) parts')
  | cons p parts =>
    cases parts' with
    | nil => exact absurd h.symm (hc'.ne_joinItems (hparts p List.mem_cons_self) parts)
    | cons p' parts' =>
      -- a comma before the first items makes them further ones
      refine further_append_inj ha hc hc' ?_
      rw [further_cons_append, further_cons_append, ← joinItems_cons_append, h,
        joinItems_cons_append]

/-! ### Tuples and dictionaries -/

theorem closes_tuple (n : Nat) (t : Bytes) :
    Closes ((if n = 1 then [','.toUInt8, ')'.toUInt8] else [')'.toUInt8]) ++ t) := by
  split
  · exact .comma t
  · exact .paren t

theorem tupleText_append_inj (ha : Apart parts parts') (hparts : ∀ p ∈ parts, ¬Ends p)
    (hparts' : ∀ p ∈ parts', ¬Ends p) (h : tupleText parts ++ t = tupleText parts' ++ t') :
    parts = parts' := by
  rw [tupleText_append, tupleText_append] at h
  exact joinItems_append_inj ha hparts hparts' (closes_tuple _ t) (closes_tuple _ t')
    (List.cons.inj h).2

theorem entryText_append_inj {e e' : String × Bytes}
    (h : entryText e ++ t = entryText e' ++ t') : e.1 = e'.1 ∧ e.2 ++ t = e'.2 ++ t' := by
  simp only [entryText, List.append_assoc] at h
  obtain ⟨hname, h⟩ := Quoted.quote_append_inj h
  exact ⟨Utf8.ofString_inj.1 hname, List.append_cancel_left h⟩

theorem entryText_injective : Function.Injective entryText := fun e e' h => by
  have h' : entryText e ++ [] = entryText e' ++ [] := congrArg (· ++ []) h
  obtain ⟨hname, hpart⟩ := entryText_append_inj h'
  exact Prod.ext hname (List.append_cancel_right hpart)

theorem not_ends_entryText (e : String × Bytes) : ¬Ends (entryText e) := by
  intro h
  rcases h _ rfl with hb | hb | hb <;> cases hb

theorem dictText_append_inj {entries entries' : List (String × Bytes)}
    (ha : Apart (entries.map (·.2)) (entries'.map (·.2)))
    (h : dictText (entries.map (·.1)) (entries.map (·.2)) ++ t =
      dictText (entries'.map (·.1)) (entries'.map (·.2)) ++ t') : entries = entries' := by
  have hapart : Apart (entries.map entryText) (entries'.map entryText) := by
    intro x hx x' hx' t t' ht ht' h
    obtain ⟨e, he, rfl⟩ := List.mem_map.1 hx
    obtain ⟨e', he', rfl⟩ := List.mem_map.1 hx'
    obtain ⟨hname, hpart⟩ := entryText_append_inj h
    have hpart' := ha _ (List.mem_map_of_mem he) _ (List.mem_map_of_mem he') t t' ht ht' hpart
    rw [Prod.ext hname hpart']
  have hends : ∀ entries : List (String × Bytes), ∀ x ∈ entries.map entryText, ¬Ends x := by
    intro entries x hx
    obtain ⟨e, -, rfl⟩ := List.mem_map.1 hx
    exact not_ends_entryText e
  rw [dictText_append, dictText_append] at h
  have heq := joinItems_append_inj hapart (hends entries) (hends entries') (.brace t) (.brace t')
    (List.cons.inj h).2
  exact List.map_injective_iff.2 entryText_injective heq

/-! ## Where texts end -/

theorem TextOf.kind_eq (hs : TextOf k s) (hs' : TextOf k' s') (h : s ++ t = s' ++ t') : k = k' :=
  (hs.kind_append t).symm.trans (h ▸ hs'.kind_append t')

/-- No text is the beginning of another one. -/
theorem TextOf.append_inj (hs : TextOf k s) (hs' : TextOf k' s') (ht : Ends t) (ht' : Ends t')
    (h : s ++ t = s' ++ t') : s = s' := by
  -- by induction on one text; the first byte tells how the other one was put together
  induction hs generalizing k' s' t t' with
  | none =>
    obtain rfl := TextOf.none.kind_eq hs' h
    cases hs'
    rfl
  | integer n =>
    obtain rfl := (TextOf.integer n).kind_eq hs' h
    cases hs' with
    | integer n' => rw [← takeWhile_numeral n.toInt ht, h, takeWhile_numeral n'.toInt ht']
  | string bs =>
    obtain rfl := (TextOf.string bs).kind_eq hs' h
    cases hs' with
    | string bs' => rw [(Quoted.quote_append_inj h).1]
  | tuple hparts ih =>
    obtain rfl := (TextOf.tuple hparts).kind_eq hs' h
    cases hs' with
    | tuple hparts' =>
      rw [tupleText_append_inj (fun p hp p' hp' t t' => ih p hp (hparts' p' hp'))
        (fun p hp => (hparts p hp).not_ends) (fun p hp => (hparts' p hp).not_ends) h]
  | dict hentries ih =>
    obtain rfl := (TextOf.dict hentries).kind_eq hs' h
    cases hs' with
    | dict hentries' =>
      rw [dictText_append_inj ?_ h]
      intro p hp p' hp' t t'
      obtain ⟨e, he, rfl⟩ := List.mem_map.1 hp
      obtain ⟨e', he', rfl⟩ := List.mem_map.1 hp'
      exact ih e he (hentries' e' he')

theorem apart_of_textOf (hparts : ∀ p ∈ parts, TextOf (kind p) p)
    (hparts' : ∀ p ∈ parts', TextOf (kind p) p) : Apart parts parts' :=
  fun p hp p' hp' _ _ => (hparts p hp).append_inj (hparts' p' hp')

/-- The items of a tuple can be read off its text. -/
theorem tupleText_inj (hparts : ∀ p ∈ parts, TextOf (kind p) p)
    (hparts' : ∀ p ∈ parts', TextOf (kind p) p) (h : tupleText parts = tupleText parts') :
    parts = parts' := by
  have h' : tupleText parts ++ [] = tupleText parts' ++ [] := congrArg (· ++ []) h
  exact tupleText_append_inj (apart_of_textOf hparts hparts')
    (fun p hp => (hparts p hp).not_ends) (fun p hp => (hparts' p hp).not_ends) h'

/-- The entries of a dictionary can be read off its text. -/
theorem dictText_inj {entries entries' : List (String × Bytes)}
    (hentries : ∀ e ∈ entries, TextOf (kind e.2) e.2)
    (hentries' : ∀ e ∈ entries', TextOf (kind e.2) e.2)
    (h : dictText (entries.map (·.1)) (entries.map (·.2)) =
      dictText (entries'.map (·.1)) (entries'.map (·.2))) : entries = entries' := by
  have h' : dictText (entries.map (·.1)) (entries.map (·.2)) ++ [] =
    dictText (entries'.map (·.1)) (entries'.map (·.2)) ++ [] := congrArg (· ++ []) h
  exact dictText_append_inj
    (apart_of_textOf (List.forall_mem_map.2 hentries) (List.forall_mem_map.2 hentries')) h'

end ScriptCore.Object
