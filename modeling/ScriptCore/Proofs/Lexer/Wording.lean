import ScriptCore.Proofs.Lexer.LongestMatch

/-!
# What a text says

A text can be read in one way only: where a token begins, and which one, follows
from the bytes that are left.

* `Precedes.unique`, `LongestMatch.unique`: of a text, what stands in front of its
  first token, and this token.
* `LongestMatch.append`: a line begins with the same token, whatever comes after it.
* `Says`: the kinds and texts of all tokens of a text, but for those of levels.
-/

namespace ScriptCore.Lexer

open Token (Kind)

variable {b : UInt8} {bs bs' gap text text' skipped skipped' rest rest' later w w' : Bytes}
  {kind kind' : Kind} {status status' : Status}

/-! ## In front of a token -/

theorem gap_cons : Gap (b :: bs) ↔
    (Byte.isBlank b = true ∧ Gap bs) ∨ b = '\\'.toUInt8 ∧ ((∃ t, bs = '\n'.toUInt8 :: t ∧ Gap t) ∨
      ∃ t, bs = '\r'.toUInt8 :: '\n'.toUInt8 :: t ∧ Gap t) := by
  constructor
  · intro h
    cases h with
    | blank hb hbs => exact .inl ⟨hb, hbs⟩
    | line hbs => exact .inr ⟨rfl, .inl ⟨_, rfl, hbs⟩⟩
    | returned hbs => exact .inr ⟨rfl, .inr ⟨_, rfl, hbs⟩⟩
  · rintro (⟨hb, hbs⟩ | ⟨rfl, ⟨t, rfl, ht⟩ | ⟨t, rfl, ht⟩⟩)
    · exact .blank hb hbs
    · exact .line ht
    · exact .returned ht

theorem not_gap_hash : ¬Gap ('#'.toUInt8 :: bs) := by
  intro h
  rcases gap_cons.1 h with ⟨hb, -⟩ | ⟨hb, -⟩
  · exact absurd hb (by decide)
  · exact absurd hb (by decide)

/-- What follows a gap in a gap is one. -/
theorem Gap.of_append (h : Gap bs) (h' : Gap (bs ++ bs')) : Gap bs' := by
  induction h with
  | nil => exact h'
  | @blank b bs hb _ ih =>
    rcases gap_cons.1 h' with ⟨-, h'⟩ | ⟨rfl, -⟩
    · exact ih h'
    · exact absurd hb (by decide)
  | @line bs _ ih =>
    rcases gap_cons.1 h' with ⟨hb, -⟩ | ⟨-, ⟨t, heq, ht⟩ | ⟨t, heq, -⟩⟩
    · exact absurd hb (by decide)
    · obtain ⟨-, rfl⟩ := List.cons.inj heq
      exact ih ht
    · exact absurd (List.cons.inj heq).1 (by decide)
  | @returned bs _ ih =>
    rcases gap_cons.1 h' with ⟨hb, -⟩ | ⟨-, ⟨t, heq, -⟩ | ⟨t, heq, ht⟩⟩
    · exact absurd hb (by decide)
    · exact absurd (List.cons.inj heq).1 (by decide)
    · obtain ⟨-, rfl⟩ := List.cons.inj (List.cons.inj heq).2
      exact ih ht

/-- A gap at the beginning belongs to what stands in front of the first token. -/
theorem Precedes.exists_append (h : Precedes skipped rest) (hgap : Gap gap)
    (heq : gap ++ bs = skipped ++ rest) :
    ∃ more, skipped = gap ++ more ∧ bs = more ++ rest ∧ Precedes more rest := by
  cases h with
  | gap hskipped htight hhash =>
    rcases List.append_eq_append_iff.1 heq with ⟨more, rfl, rfl⟩ | ⟨more, rfl, rfl⟩
    · exact ⟨more, rfl, rfl, .gap (hgap.of_append hskipped) htight hhash⟩
    · -- a token does not begin with a gap
      obtain rfl := htight more (hskipped.of_append hgap) (List.prefix_append _ _)
      exact ⟨[], by rw [List.append_assoc, List.append_nil, List.append_nil], rfl,
        .gap .nil htight hhash⟩
  | @comment before text _ hbefore htext hend =>
    rw [List.append_assoc] at heq
    rcases List.append_eq_append_iff.1 heq with ⟨more, rfl, rfl⟩ | ⟨more, rfl, heq'⟩
    · exact ⟨more ++ '#'.toUInt8 :: text, List.append_assoc .., (List.append_assoc ..).symm,
        .comment (hgap.of_append hbefore) htext hend⟩
    · cases more with
      | nil =>
        exact ⟨'#'.toUInt8 :: text, by rw [List.append_nil], heq'.symm, .comment .nil htext hend⟩
      | cons b more =>
        obtain ⟨rfl, -⟩ := List.cons.inj heq'
        exact absurd (hbefore.of_append hgap) not_gap_hash

/-- A line ends in one place. -/
theorem eq_of_line (h : '\n'.toUInt8 ∉ text) (h' : '\n'.toUInt8 ∉ text')
    (hend : ∀ b, rest.head? = some b → b = '\n'.toUInt8)
    (hend' : ∀ b, rest'.head? = some b → b = '\n'.toUInt8) (heq : text ++ rest = text' ++ rest') :
    text = text' ∧ rest = rest' := by
  have htake : ∀ {text rest : Bytes}, '\n'.toUInt8 ∉ text →
      (∀ b, rest.head? = some b → b = '\n'.toUInt8) →
      (text ++ rest).takeWhile (· != '\n'.toUInt8) = text := by
    intro text rest htext hrest
    have hne : ∀ b ∈ text, (b != '\n'.toUInt8) = true := by
      intro b hb
      rw [bne_iff_ne]
      rintro rfl
      exact htext hb
    rw [List.takeWhile_append_of_pos hne]
    cases rest with
    | nil => exact List.append_nil text
    | cons b rest =>
      obtain rfl := hrest b rfl
      exact List.append_nil text
  have htext : text = text' := by
    rw [← htake h hend, heq, htake h' hend']
  exact ⟨htext, List.append_cancel_left (htext ▸ heq)⟩

/-- Where the first token begins is determined. -/
theorem Precedes.unique (h : Precedes skipped rest) (h' : Precedes skipped' rest')
    (heq : skipped ++ rest = skipped' ++ rest') : skipped = skipped' ∧ rest = rest' := by
  cases h with
  | gap hgap htight hhash =>
    obtain ⟨more, rfl, rfl, hmore⟩ := h'.exists_append hgap heq
    cases hmore with
    | gap hmore _ _ =>
      obtain rfl := htight more hmore (List.prefix_append _ _)
      exact ⟨(List.append_nil skipped).symm, rfl⟩
    | @comment before text _ hbefore _ _ =>
      obtain rfl := htight before hbefore
        ((List.prefix_append _ _).trans (List.prefix_append _ _))
      exact absurd rfl hhash
  | @comment before text _ hbefore htext hend =>
    rw [List.append_assoc] at heq
    obtain ⟨more, rfl, heq', hmore⟩ := h'.exists_append hbefore heq
    cases hmore with
    | gap hmore _ hhash' =>
      cases more with
      | nil => exact absurd (congrArg List.head? heq'.symm) hhash'
      | cons b more =>
        obtain ⟨rfl, -⟩ := List.cons.inj heq'
        exact absurd hmore not_gap_hash
    | @comment before' text' _ hbefore' htext' hend' =>
      cases before' with
      | nil =>
        obtain ⟨rfl, rfl⟩ := eq_of_line htext htext' hend hend' (List.cons.inj heq').2
        exact ⟨rfl, rfl⟩
      | cons b before' =>
        obtain ⟨rfl, -⟩ := List.cons.inj heq'
        exact absurd hbefore' not_gap_hash

/-! ## A token -/

theorem IsLongest.unique {l : Language UInt8} (h : IsLongest l bs w) (h' : IsLongest l bs w') :
    w = w' :=
  (List.prefix_of_prefix_length_le h.isPrefix h'.isPrefix
    (h'.length_le w h.mem h.isPrefix)).eq_of_length_le (h.length_le w' h'.mem h'.isPrefix)

/-- Where a byte of the text is in no word, what comes behind it does not matter. -/
theorem IsLongest.append {l : Language UInt8} (h : IsLongest l bs w) (hl : ∀ w ∈ l, b ∉ w)
    (hb : b ∈ bs) (later : Bytes) : IsLongest l (bs ++ later) w where
  mem := h.mem
  isPrefix := h.isPrefix.trans (List.prefix_append _ _)
  length_le := fun w' hw' hprefix => by
    rcases List.prefix_or_prefix_of_prefix hprefix (List.prefix_append bs later) with hw | hbs
    · exact h.length_le w' hw' hw
    · exact absurd (hbs.subset hb) (hl w' hw')

theorem beginsName_of_isDigit (h : Byte.isDigit b = true) : Byte.beginsName b = false := by
  have hbytes : ∀ n < 256, Byte.isDigit (UInt8.ofNat n) = true →
      Byte.beginsName (UInt8.ofNat n) = false := by decide +kernel
  rw [← UInt8.ofNat_toNat (x := b)] at h ⊢
  exact hbytes b.toNat b.toNat_lt h

/-- The first byte of a text tells what it may begin with. -/
inductive Opening
  | name
  | number
  | string
  | backslash
  | newline
  | symbol

/-- What a byte opens. -/
def opening (b : UInt8) : Opening :=
  if Byte.beginsName b then .name
  else if Byte.isDigit b then .number
  else if b = '\''.toUInt8 then .string
  else if b = '\\'.toUInt8 then .backslash
  else if b = '\n'.toUInt8 then .newline
  else .symbol

/-- What a text may begin with, where its first byte opens something. -/
def Opening.Permits (bs : Bytes) (kind : Kind) (w : Bytes) : Opening → Prop
  | name => kind = .name ∧ IsLongest names bs w
  | number => kind = .number ∧ IsLongest numbers bs w
  | string => (kind = .string ∧ IsLongest strings bs w) ∨
      kind = .error ∧ ∀ w, w <+: bs → w ∉ strings
  | backslash => kind = .error
  | newline => kind = .newline ∧ w = bs.take 1
  | symbol => some kind = bs.head?.map Kind.ofByte ∧ w = bs.take 1

theorem LongestMatch.permits (h : LongestMatch (b :: bs) kind w status) :
    (opening b).Permits (b :: bs) kind w := by
  cases h with
  | name hb hlongest =>
    rw [opening, if_pos hb]
    exact ⟨rfl, hlongest⟩
  | number hb hlongest =>
    rw [opening, beginsName_of_isDigit hb, if_neg Bool.false_ne_true, if_pos hb]
    exact ⟨rfl, hlongest⟩
  | string hlongest => exact .inl ⟨rfl, hlongest⟩
  | unterminated hnone => exact .inr ⟨rfl, hnone⟩
  | backslash => rfl
  | newline => exact ⟨rfl, rfl⟩
  | symbol hname hdigit hb =>
    simp only [List.mem_cons, List.not_mem_nil, or_false, not_or] at hb
    rw [opening, hname, hdigit, if_neg Bool.false_ne_true, if_neg Bool.false_ne_true, if_neg hb.1,
      if_neg hb.2.1, if_neg hb.2.2]
    exact ⟨rfl, rfl⟩

/-- Which token a text begins with is determined. -/
theorem LongestMatch.unique (h : LongestMatch bs kind w status)
    (h' : LongestMatch bs kind' w' status') (hkind : kind ≠ .error) : kind' = kind ∧ w' = w := by
  cases bs with
  | nil =>
    cases h
    cases h'
    exact ⟨rfl, rfl⟩
  | cons b bs =>
    have hpermits := h.permits
    have hpermits' := h'.permits
    cases hopening : opening b with
    | name =>
      rw [hopening] at hpermits hpermits'
      exact ⟨hpermits'.1.trans hpermits.1.symm, hpermits'.2.unique hpermits.2⟩
    | number =>
      rw [hopening] at hpermits hpermits'
      exact ⟨hpermits'.1.trans hpermits.1.symm, hpermits'.2.unique hpermits.2⟩
    | string =>
      rw [hopening] at hpermits hpermits'
      obtain ⟨rfl, hlongest⟩ := hpermits.resolve_right fun h => hkind h.1
      rcases hpermits' with ⟨rfl, hlongest'⟩ | ⟨-, hnone⟩
      · exact ⟨rfl, hlongest'.unique hlongest⟩
      · exact absurd hlongest.mem (hnone w hlongest.isPrefix)
    | backslash =>
      rw [hopening] at hpermits
      exact absurd hpermits hkind
    | newline =>
      rw [hopening] at hpermits hpermits'
      exact ⟨hpermits'.1.trans hpermits.1.symm, hpermits'.2.trans hpermits.2.symm⟩
    | symbol =>
      rw [hopening] at hpermits hpermits'
      exact ⟨Option.some.inj (hpermits'.1.trans hpermits.1.symm),
        hpermits'.2.trans hpermits.2.symm⟩

theorem LongestMatch.kind_of_nil (h : LongestMatch [] kind w status) : kind = .endMarker := by
  cases h
  rfl

/-- Only what is malformed is no token. -/
theorem LongestMatch.malformed (h : LongestMatch bs kind w status) (hkind : kind = .error) :
    ∃ f, status = .malformed f := by
  cases h with
  | unterminated => exact ⟨_, rfl⟩
  | backslash => exact ⟨_, rfl⟩
  | @symbol b _ _ =>
    have hspelled := Kind.isSpelled_ofByte b
    rw [hkind] at hspelled
    cases hspelled
  | _ => cases hkind

/-- The end is found where nothing is left. -/
theorem LongestMatch.ended (h : LongestMatch bs kind w status) (hkind : kind = .endMarker) :
    bs = [] ∧ w = [] ∧ status = .endOfInput := by
  cases h with
  | endMarker => exact ⟨rfl, rfl, rfl⟩
  | @symbol b _ _ =>
    have hspelled := Kind.isSpelled_ofByte b
    rw [hkind] at hspelled
    cases hspelled
  | _ => cases hkind

/-! ## What comes after a line -/

/-- A line begins with the same token, whatever comes after it. -/
theorem LongestMatch.append (h : LongestMatch bs kind w status) (hkind : kind ≠ .error)
    (hline : '\n'.toUInt8 ∈ bs) (later : Bytes) : LongestMatch (bs ++ later) kind w status := by
  cases h with
  | endMarker => exact absurd hline List.not_mem_nil
  | name hb hlongest =>
    exact .name hb (hlongest.append (fun _ => newline_notMem_names) hline later)
  | number hb hlongest =>
    exact .number hb (hlongest.append (fun _ => newline_notMem_numbers) hline later)
  | string hlongest =>
    exact .string (hlongest.append (fun _ => newline_notMem_strings) hline later)
  | unterminated => exact absurd rfl hkind
  | backslash => exact absurd rfl hkind
  | newline => exact .newline
  | symbol hname hdigit hb => exact .symbol hname hdigit hb

/-- In front of a token stands the same, whatever comes after the token. -/
theorem Precedes.append_right (h : Precedes skipped rest) (hmatch : LongestMatch rest kind w status)
    (hkind : kind ≠ .error) (hrest : rest ≠ []) (later : Bytes) :
    Precedes skipped (rest ++ later) := by
  cases rest with
  | nil => exact absurd rfl hrest
  | cons b rest =>
    cases h with
    | gap hgap htight hhash =>
      have hblank : Byte.isBlank b = false := Bool.eq_false_iff.2 fun hb =>
        List.cons_ne_nil b [] (htight [b] (.blank hb .nil) (List.prefix_append [b] rest))
      have hbackslash : b ≠ '\\'.toUInt8 := by
        rintro rfl
        exact hkind hmatch.permits
      exact .gap hgap (tight_cons hblank hbackslash) hhash
    | comment hgap htext hend => exact .comment hgap htext hend

/-! ## All tokens -/

/-- Whether a text says a sequence of tokens, the last of which is an end marker. -/
inductive Says : Bytes → List (Kind × String) → Prop
  | last {bs : Bytes} : Precedes bs [] → Says bs [(.endMarker, "")]
  | token {skipped w bs : Bytes} {kind : Kind} {status : Status} {ts : List (Kind × String)} :
    Precedes skipped (w ++ bs) → LongestMatch (w ++ bs) kind w status →
    kind ≠ .error → kind ≠ .endMarker → Says bs ts →
    Says (skipped ++ (w ++ bs)) ((kind, ({ kind, bytes := w } : Lexeme).text) :: ts)

variable {ts : List (Kind × String)}

/-- In front of the first token there may be more space. -/
theorem Says.append (h : Says bs ts) (hgap : Gap gap) : Says (gap ++ bs) ts := by
  cases h with
  | last hprecedes => exact .last (hprecedes.append hgap)
  | token hprecedes hmatch herror hend hsaid =>
    rw [← List.append_assoc]
    exact .token (hprecedes.append hgap) hmatch herror hend hsaid

theorem Says.of_append (h : Says (gap ++ bs) ts) (hgap : Gap gap) : Says bs ts := by
  generalize heq : gap ++ bs = bs' at h
  cases h with
  | last hprecedes =>
    obtain ⟨more, -, rfl, hmore⟩ :=
      hprecedes.exists_append hgap (heq.trans (List.append_nil _).symm)
    exact .last (by rwa [List.append_nil])
  | token hprecedes hmatch herror hend hsaid =>
    obtain ⟨more, -, rfl, hmore⟩ := hprecedes.exists_append hgap heq
    exact .token hmore hmatch herror hend hsaid

/-- Where no token is left, only the end is said. -/
theorem Says.eq_last (h : Says bs ts) (hprecedes : Precedes bs []) : ts = [(.endMarker, "")] := by
  generalize heq : bs = bs' at h
  cases h with
  | last => rfl
  | token hprecedes' hmatch _ hend _ =>
    have hrest := (hprecedes.unique hprecedes' ((List.append_nil bs).trans heq)).2
    exact absurd (hrest ▸ hmatch).kind_of_nil hend

/-- Where a token is left, it is said first. -/
theorem Says.eq_token (h : Says (skipped ++ (w ++ bs)) ts) (hprecedes : Precedes skipped (w ++ bs))
    (hmatch : LongestMatch (w ++ bs) kind w status) (herror : kind ≠ .error)
    (hend : kind ≠ .endMarker) :
    ∃ ts', ts = (kind, ({ kind, bytes := w } : Lexeme).text) :: ts' ∧ Says bs ts' := by
  generalize heq : skipped ++ (w ++ bs) = bs' at h
  cases h with
  | last hprecedes' =>
    have hrest := (hprecedes.unique hprecedes' (heq.trans (List.append_nil _).symm)).2
    exact absurd (hrest ▸ hmatch).kind_of_nil hend
  | @token skipped' w' _ kind' _ ts' hprecedes' hmatch' herror' _ hsaid =>
    obtain ⟨-, hrest⟩ := hprecedes.unique hprecedes' heq
    obtain ⟨rfl, rfl⟩ := (hrest ▸ hmatch).unique hmatch' herror
    obtain rfl := List.append_cancel_left hrest
    exact ⟨ts', rfl, hsaid⟩

/-- Where something is left that is no token, nothing is said. -/
theorem not_says_of_error (hprecedes : Precedes skipped rest)
    (hmatch : LongestMatch rest .error w status) : ¬Says (skipped ++ rest) ts := by
  intro h
  generalize heq : skipped ++ rest = bs' at h
  cases h with
  | last hprecedes' =>
    have hrest := (hprecedes.unique hprecedes' (heq.trans (List.append_nil _).symm)).2
    cases (hrest ▸ hmatch).kind_of_nil
  | token hprecedes' hmatch' herror _ _ =>
    obtain ⟨-, rfl⟩ := hprecedes.unique hprecedes' heq
    exact herror (hmatch'.unique hmatch herror).1.symm

/-- What ends with a newline has it in its last part. -/
theorem newline_mem_of_suffix (h : ['\n'.toUInt8] <:+ bs ++ bs') (hbs : bs' ≠ []) :
    '\n'.toUInt8 ∈ bs' := by
  obtain ⟨line, b, rfl⟩ := (List.eq_nil_or_concat' bs').resolve_left hbs
  obtain ⟨before, heq⟩ := h
  rw [← List.append_assoc] at heq
  rw [← (List.append_inj' heq rfl).2]
  exact List.mem_append_right line List.mem_cons_self

/-- Where a text is cut behind a line and there is no token in front of the cut, what
    comes behind it says the same. -/
theorem Says.of_cut (h : Says (skipped ++ rest ++ later) ts) (hprecedes : Precedes skipped rest)
    (hnewline : '\n'.toUInt8 ∉ rest)
    (hbreaks : rest = [] ∨ ∃ w status, LongestMatch rest .error w status)
    (hline : later = [] ∨ skipped ++ rest = [] ∨ ['\n'.toUInt8] <:+ skipped ++ rest) :
    Says later ts := by
  rcases hline with rfl | hnil | hline
  · rw [List.append_nil] at h
    rcases hbreaks with rfl | ⟨w, status, hmatch⟩
    · rw [List.append_nil] at h
      rw [h.eq_last hprecedes]
      exact .last (.gap .nil tight_nil (Option.some_ne_none _).symm)
    · exact absurd h (not_says_of_error hprecedes hmatch)
  · rwa [hnil] at h
  · obtain rfl : rest = [] := by
      by_contra hrest
      exact hnewline (newline_mem_of_suffix hline hrest)
    rw [List.append_nil] at h hline
    cases hprecedes with
    | gap hgap _ _ => exact h.of_append hgap
    | comment _ htext _ =>
      -- a comment does not go on to the end of its line
      have hmem := newline_mem_of_suffix hline (List.cons_ne_nil _ _)
      exact absurd (List.mem_of_ne_of_mem (by decide) hmem) htext

end ScriptCore.Lexer
