import ScriptCore.Proofs.Lexer.Levels
import ScriptCore.Proofs.Lexer.Scan
import ScriptCore.Proofs.Utf8

/-!
# Lexemes

What is scanned for the tokens of a run spells out the input: each byte belongs
to one token, or stands in front of one as space, in a comment or at the end of
a line that goes on.

* `Accounts`: how one lexeme accounts for the bytes that are taken for it. Each
  scan without an error does this, and comes closer to the end.
* `Covers`: how the lexemes of a whole run do so.
* `lexemes_spell_input`: what follows for all inputs.
-/

namespace ScriptCore.Lexer

open Token (Kind)

/-! ## One lexeme -/

/-- What the bytes of a lexeme are, and those in front of it, where there is no
    error. -/
inductive Lexeme.Accounted : Lexeme → Prop
  | spelled {kind skipped bytes} : Gap skipped → Spells kind bytes →
    Accounted { kind, skipped, bytes }
  | newline {skipped} : Trail skipped →
    Accounted { kind := .newline, skipped, bytes := ['\n'.toUInt8] }
  | level {kind skipped} : kind.isLevel = true → Gap skipped → Accounted { kind, skipped }
  | endMarker {skipped} : Trail skipped → Accounted { kind := .endMarker, skipped }

variable {l l' l'' : Lexer} {x : Lexeme} {bs : Bytes} {f : Option Fault}

theorem Lexeme.Accounted.skip (h : x.Accounted) (hgap : Gap bs) :
    { x with skipped := bs ++ x.skipped }.Accounted := by
  cases h with
  | spelled hgap' hspells => exact .spelled (hgap.append hgap') hspells
  | newline htrail => exact .newline (hgap.trail htrail)
  | level hlevel hgap' => exact .level hlevel (hgap.append hgap')
  | endMarker htrail => exact .endMarker (hgap.trail htrail)

theorem Lexeme.Accounted.spells (h : x.Accounted) (hkind : x.kind.isSpelled = true) :
    Spells x.kind x.bytes := by
  cases h with
  | spelled _ hspells => exact hspells
  | newline => cases hkind
  | level hlevel _ => exact absurd hlevel (Bool.eq_false_iff.1 (Kind.isLevel_of_isSpelled hkind))
  | endMarker => cases hkind

/-- How a lexeme accounts for what is taken for it: the bytes are its own, an end
    marker stands at the end, and with any other lexeme the end is closer. -/
structure Accounts (l : Lexer) (x : Lexeme) (l' : Lexer) : Prop where
  accounted : x.Accounted
  rest : l.input.rest = x.skipped ++ x.bytes ++ l'.input.rest
  ends : x.kind = .endMarker → l'.input.rest = []
  bound : x.kind ≠ .endMarker → l'.bound < l.bound

/-- What takes bytes comes closer to the end. -/
theorem Skips.bound_lt (h : Skips l bs l') (hbs : bs ≠ []) : l'.bound < l.bound := by
  have hremaining := h.remaining
  have hlength := List.length_pos_iff.2 hbs
  rw [Lexer.bound, Lexer.bound, depth, depth, h.indentation]
  omega

theorem Takes.accounts (h : Takes l x l') (herror : x.kind ≠ .error) : Accounts l x l' := by
  cases h with
  | @spelled kind _ _ _ hgap hspells hskips =>
    exact {
      accounted := .spelled hgap hspells
      rest := hskips.rest
      ends := fun hkind => absurd hspells.isSpelled (by
        rw [show kind = .endMarker from hkind]
        exact nofun)
      bound := fun _ => hskips.bound_lt (List.append_ne_nil_of_right_ne_nil _ hspells.ne_nil) }
  | @newline _ l' htrail hskips =>
    have hlt : l'.bound < l.bound :=
      hskips.bound_lt (List.append_ne_nil_of_right_ne_nil _ (List.cons_ne_nil _ _))
    exact {
      accounted := .newline htrail
      rest := hskips.rest
      ends := nofun
      bound := fun _ => hlt }
  | endMarker htrail hskips hstatus =>
    have hstatus' : l'.input.status ≠ .ok := by
      rw [← Lexer.status, hstatus]
      exact nofun
    exact {
      accounted := .endMarker htrail
      rest := by rw [List.append_nil]; exact hskips.rest
      ends := fun _ => Input.rest_of_ne_ok hstatus'
      bound := fun hkind => absurd rfl hkind }
  | stopped => exact absurd rfl herror
  | fault => exact absurd rfl herror

/-- Beginning a line comes no farther from the end: a level that it opens takes
    bytes. -/
theorem Begins.bound_le (h : Begins l bs f l') : l'.bound ≤ l.bound := by
  cases h with
  | within => exact Nat.le_refl _
  | @stopped _ l' _ hskips _ =>
    have hremaining : bs.length + l'.input.remaining = l.input.remaining := hskips.remaining
    have hindentation : l'.indentation = l.indentation := hskips.indentation
    rw [Lexer.bound, Lexer.bound, depth, depth, hindentation]
    omega
  | @entered _ l' indentation _ _ hskips _ _ henter =>
    have hremaining : bs.length + l'.input.remaining = l.input.remaining := hskips.remaining
    have hweight := Indentation.weight_enter henter
    simp only [Lexer.bound, depth]
    split_ifs at hweight with hlt
    · -- a column to the right of another one is not at the very beginning
      have hbs : bs ≠ [] := fun hnil => by
        rw [hnil] at hlt
        exact absurd hlt (UInt64.not_lt.2 (UInt64.le_iff_toNat_le.2 (Nat.zero_le _)))
      have hlength := List.length_pos_iff.2 hbs
      omega
    · omega

theorem Scans.accounts (h : Scans l x l') (herror : x.kind ≠ .error) : Accounts l x l' := by
  cases h with
  | fault => exact absurd rfl herror
  | stopped => exact absurd rfl herror
  | @level _ l' kind indentation hbegin hstatus hnext =>
    have hbegins := begins_of_eq hbegin
    obtain ⟨hlevels, howed⟩ := Indentation.next?_eq_some hnext
    have hlevel : kind.isLevel = true := by
      rcases howed with ⟨rfl, -⟩ | ⟨rfl, -⟩ <;> rfl
    have hlt : ({ l' with indentation } : Lexer).bound < l'.bound := by
      have hdepth : indentation.depth = l'.indentation.depth := congrArg List.length hlevels
      simp only [Lexer.bound, depth, hdepth]
      omega
    exact {
      accounted := .level hlevel (hbegins.gap hstatus)
      rest := by rw [List.append_nil]; exact hbegins.rest
      ends := fun hkind => absurd hlevel (by
        rw [show kind = .endMarker from hkind]
        exact nofun)
      bound := fun _ => Nat.lt_of_lt_of_le hlt hbegins.bound_le }
  | token hbegin hstatus hnext htakes =>
    have hbegins := begins_of_eq hbegin
    have htoken := htakes.accounts herror
    exact {
      accounted := htoken.accounted.skip (hbegins.gap hstatus)
      rest := by rw [hbegins.rest, htoken.rest]; simp only [List.append_assoc]
      ends := htoken.ends
      bound := fun hkind => Nat.lt_of_lt_of_le (htoken.bound hkind) hbegins.bound_le }

/-! ## The lexemes of a run -/

/-- The lexemes that are scanned for the tokens of a run from a lexer. -/
def lexemesOf (l : Lexer) : List (Token × Lexer) → List Lexeme
  | [] => []
  | (_, l') :: rs => l.scan.1 :: lexemesOf l' rs

/-- The lexemes up to the end marker. -/
def lexemes (l : Lexer) : List Lexeme :=
  l.lexemesOf l.run

/-- How lexemes cover the bytes that are left: they are these bytes, in their order,
    and go on up to an end marker. -/
structure Covers (xs : List Lexeme) (bs : Bytes) : Prop where
  bytes : xs.flatMap (fun x => x.skipped ++ x.bytes) = bs
  accounted : ∀ x ∈ xs, x.Accounted
  last : ∃ ys x, xs = ys ++ [x] ∧ x.kind = .endMarker ∧ ∀ y ∈ ys, y.kind ≠ .endMarker

theorem Covers.singleton (h : Accounts l x l') (hkind : x.kind = .endMarker) :
    Covers [x] l.input.rest where
  bytes := by rw [List.flatMap_singleton, h.rest, h.ends hkind, List.append_nil]
  accounted := List.forall_mem_singleton.2 h.accounted
  last := ⟨[], x, rfl, hkind, nofun⟩

theorem Covers.cons {xs : List Lexeme} (h : Accounts l x l') (hkind : x.kind ≠ .endMarker)
    (hxs : Covers xs l'.input.rest) : Covers (x :: xs) l.input.rest where
  bytes := by rw [List.flatMap_cons, hxs.bytes, h.rest]
  accounted := List.forall_mem_cons.2 ⟨h.accounted, hxs.accounted⟩
  last := by
    obtain ⟨ys, y, rfl, hy, hys⟩ := hxs.last
    exact ⟨x :: ys, y, rfl, hy, List.forall_mem_cons.2 ⟨hkind, hys⟩⟩

/-- A run begins with the token of a lexeme, if it did not end. -/
theorem exists_runFor_succ (hlatched : l.latched = false) (hfinished : l.finished = false)
    (n : Nat) : ∃ l', l.runFor (n + 1) =
        ({ kind := l.scan.1.kind, text := l.scan.1.text, line := l.scan.2.line }, l') ::
          l'.runFor n ∧
      l'.input = l.scan.2.input ∧ l'.bound = l.scan.2.bound ∧
      l'.latched = decide (l.scan.1.kind = .error) ∧
      l'.finished = decide (l.scan.1.kind = .endMarker) := by
  rw [runFor, next?, hfinished, if_neg Bool.false_ne_true, get, hlatched,
    if_neg Bool.false_ne_true]
  exact ⟨_, rfl, rfl, rfl, rfl, rfl⟩

/-- A run without an error goes on up to the end of the input, and tells the
    lexemes that cover it. -/
theorem covers_runFor {n : Nat} (hn : l.bound ≤ n) (hlatched : l.latched = false)
    (hfinished : l.finished = false) (herror : ∀ r ∈ l.runFor n, r.1.kind ≠ .error) :
    Covers (l.lexemesOf (l.runFor n)) l.input.rest ∧
      (l.runFor n).map (fun r => (r.1.kind, r.1.text)) =
        (l.lexemesOf (l.runFor n)).map fun x => (x.kind, x.text) := by
  -- the run has steps left as long as the end is ahead, since each lexeme lowers the bound
  induction n generalizing l with
  | zero => exact absurd hn (by rw [bound]; omega)
  | succ n ih =>
    obtain ⟨l', heq, hinput, hbound, hlatched', hfinished'⟩ :=
      exists_runFor_succ hlatched hfinished n
    rw [heq] at herror ⊢
    obtain ⟨herror, hrest⟩ := List.forall_mem_cons.1 herror
    have haccounts := (scans_scan l).accounts herror
    by_cases hkind : l.scan.1.kind = .endMarker
    · rw [runFor_of_finished (hfinished'.trans (decide_eq_true hkind))]
      exact ⟨.singleton haccounts hkind, rfl⟩
    · have hle : l'.bound ≤ n :=
        Nat.le_of_lt_succ (hbound ▸ Nat.lt_of_lt_of_le (haccounts.bound hkind) hn)
      obtain ⟨hcovers, htokens⟩ := ih hle (hlatched'.trans (decide_eq_false herror))
        (hfinished'.trans (decide_eq_false hkind)) hrest
      exact ⟨.cons haccounts hkind (hinput ▸ hcovers), congrArg (_ :: ·) htokens⟩

/-- A run without an error ends with an end marker. -/
theorem exists_tokens_eq_concat (hlatched : l.latched = false) (hfinished : l.finished = false)
    (herror : ∀ t ∈ l.tokens, t.kind ≠ .error) :
    ∃ ts t, l.tokens = ts ++ [t] ∧ t.kind = .endMarker := by
  obtain ⟨hcovers, htokens⟩ := covers_runFor (Nat.le_refl _) hlatched hfinished
    fun r hr => herror r.1 (List.mem_map_of_mem hr)
  obtain ⟨xs, x, heq, hkind, -⟩ := hcovers.last
  rw [heq, List.map_append] at htokens
  -- The last token is the one of the last lexeme.
  obtain ⟨rs, rs', hrs, -, hrs'⟩ := List.map_eq_append_iff.1 htokens
  obtain ⟨r, rfl, hr⟩ := List.map_eq_singleton_iff.1 hrs'
  refine ⟨rs.map (·.1), r.1, ?_, (Prod.mk.inj hr).1.trans hkind⟩
  rw [tokens, run, hrs, List.map_append]
  rfl

/-! ## Texts -/

/-- In a text, a name, a number or a string is a text. -/
theorem exists_encode_of_spells {kind : Kind} {cs : List Char} {before after : Bytes}
    (hspells : Spells kind bs) (hword : kind.isWord = true)
    (htext : Utf8.encode cs = before ++ (bs ++ after)) : ∃ cs', bs = Utf8.encode cs' := by
  cases hspells with
  | name hb hbs =>
    refine Utf8.exists_encode_of_ascii (List.forall_mem_cons.2 ⟨?_, fun c hc => ?_⟩)
    · exact isAscii_of_continuesName (by rw [Byte.continuesName, hb]; rfl)
    · exact isAscii_of_continuesName (hbs c hc)
  | number hb hbs =>
    exact Utf8.exists_encode_of_ascii (List.forall_mem_cons.2 ⟨isAscii_of_isDigit hb, hbs⟩)
  | @string text =>
    -- cut at the opening quote, and then at the closing one
    obtain ⟨-, cs', hcs'⟩ := Utf8.exists_encode_of_split (b := '\''.toUInt8) (by decide) htext
    have hcut : Utf8.encode cs' = text ++ '\''.toUInt8 :: after :=
      hcs'.symm.trans (List.append_assoc ..)
    obtain ⟨⟨cs'', rfl⟩, -⟩ := Utf8.exists_encode_of_split (by decide) hcut
    exact ⟨'\'' :: (cs'' ++ ['\'']), by rw [Utf8.encode_cons, Utf8.encode_append]; rfl⟩
  | symbol b => exact absurd hword (Bool.eq_false_iff.1 (Kind.isWord_ofByte b))

theorem Covers.exists_append {xs : List Lexeme} (h : Covers xs bs) (hx : x ∈ xs) :
    ∃ before after, bs = before ++ (x.bytes ++ after) := by
  obtain ⟨ys, zs, rfl⟩ := List.append_of_mem hx
  have hbytes := h.bytes
  rw [List.flatMap_append, List.flatMap_cons] at hbytes
  refine ⟨ys.flatMap (fun x => x.skipped ++ x.bytes) ++ x.skipped,
    zs.flatMap fun x => x.skipped ++ x.bytes, ?_⟩
  rw [← hbytes]
  simp only [List.append_assoc]

/-- No byte is lost or taken twice: where a text that comes in pieces has no error,
    the lexemes up to the end marker, each with the space in front of it, are the
    bytes of the text in their order; each is what it may be, and shows its bytes,
    but for newlines; and in the bytes of a text, the bytes of a name, a number or
    a string are read back from what it shows. -/
theorem lexemes_spell_input {pieces : List Bytes} (hpieces : ∀ p ∈ pieces, p ≠ [])
    {options : Options}
    (herror : ∀ t ∈ (start (.ofPieces pieces) options).tokens, t.kind ≠ .error) :
    let l := start (.ofPieces pieces) options
    (l.lexemes.flatMap (fun x => x.skipped ++ x.bytes) = pieces.flatten ∧
        (∃ xs x, l.lexemes = xs ++ [x] ∧ x.kind = .endMarker ∧ ∀ y ∈ xs, y.kind ≠ .endMarker)) ∧
      (∀ x ∈ l.lexemes, x.Accounted ∧ (x.kind.isSpelled = true → x.bytes ≠ [])) ∧
      l.tokens.map (fun t => (t.kind, t.text)) = l.lexemes.map (fun x =>
        (x.kind, if x.kind = .newline then "" else Utf8.decode x.bytes)) ∧
      ∀ s, pieces.flatten = Bytes.ofString s → ∀ x ∈ l.lexemes, x.kind.isWord = true →
        Bytes.ofString (Utf8.decode x.bytes) = x.bytes := by
  intro l
  have hrest : l.input.rest = pieces.flatten := by
    rw [Input.rest_of_ok rfl]
    exact congrArg Prod.fst (Source.flow_ofPieces hpieces)
  obtain ⟨hcovers, htokens⟩ := covers_runFor (l := l) (Nat.le_refl _) rfl rfl
    fun r hr => herror r.1 (List.mem_map_of_mem hr)
  rw [hrest] at hcovers
  refine ⟨⟨hcovers.bytes, hcovers.last⟩, fun x hx => ?_, ?_, fun s hs x hx hword => ?_⟩
  · have haccounted := hcovers.accounted x hx
    exact ⟨haccounted, fun hkind => (haccounted.spells hkind).ne_nil⟩
  · rw [tokens, List.map_map]
    exact htokens
  · obtain ⟨before, after, heq⟩ := hcovers.exists_append hx
    have hspells := (hcovers.accounted x hx).spells (Kind.isSpelled_of_isWord hword)
    obtain ⟨cs, hcs⟩ := exists_encode_of_spells hspells hword (hs.symm.trans heq)
    rw [hcs, Utf8.ofString_decode_encode]

/-- The text `a 'é'`, a backslash that ends a line, `+`, a comment and a newline,
    cut in its string. -/
theorem lexemes_spell_input_of_string :
    let pieces : List Bytes := [[97, 32, 39, 195], [169, 39, 92, 10, 43, 32, 35, 97, 10]]
    let l := start (.ofPieces pieces) {}
    (∀ p ∈ pieces, p ≠ []) ∧ (∀ t ∈ l.tokens, t.kind ≠ .error) ∧
      l.lexemes.flatMap (fun x => x.skipped ++ x.bytes) = pieces.flatten ∧
      l.tokens.map (·.text) = ["a", "'é'", "+", "", ""] := by
  intro pieces l
  have hpieces : ∀ p ∈ pieces, p ≠ [] := by decide
  have herror : ∀ t ∈ l.tokens, t.kind ≠ .error := by decide +kernel
  exact ⟨hpieces, herror, (lexemes_spell_input hpieces herror).1.1, by decide +kernel⟩

end ScriptCore.Lexer
