import Mathlib
import ScriptCore.Proofs.Lexer.Interrupts
import ScriptCore.Proofs.Settings.Text

/-!
# Columns with 64 bits

The blanks in front of a line are measured with 64 bits. A tab size of 40, the largest that a
comment may set, leaves room for more blanks than any text has, but settings allow sizes up to
2 ^ 63 - 1, and then a few tabs are enough to go beyond the last column.

* `width`: the column behind blanks, without a limit. A tab leads to the next multiple of the
  tab size (`isLeast_nextColumn`).
* `measure?_eq_some_iff`: what is measured is this column, if 64 bits hold it.
* `column_exact_iff`: for all settings that a text can spell and all sources, a column is
  exact if and only if it is below 2 ^ 64. The program breaks off at any other.
* `breaksOff_of_wideBlanks`: it breaks off at two tabs and two spaces.
* `unbroken_of_size`: it does not break off where the input is short enough.
-/

namespace ScriptCore.Lexer

variable {T c : Nat} {b : UInt8} {bs : Bytes}

/-! ## Columns without a limit -/

/-- Whether a byte is measured in front of a line. -/
def isIndent (b : UInt8) : Bool :=
  b == ' '.toUInt8 || b == '\t'.toUInt8

/-- The column to which a blank leads from a column. -/
def nextColumn (T c : Nat) (b : UInt8) : Nat :=
  if b = '\t'.toUInt8 then (c / T + 1) * T else c + 1

/-- The column behind blanks. -/
def width (T : Nat) (blanks : Bytes) : Nat :=
  blanks.foldl (nextColumn T) 0

/-- A tab leads to the next multiple of the tab size. -/
theorem isLeast_nextColumn (hT : 1 ≤ T) (c : Nat) :
    IsLeast {m | c < m ∧ T ∣ m} (nextColumn T c '\t'.toUInt8) := by
  rw [nextColumn, if_pos rfl]
  refine ⟨⟨Nat.lt_div_mul_add hT |>.trans_eq (Nat.succ_mul _ _).symm, Dvd.intro_left _ rfl⟩, ?_⟩
  rintro m ⟨hlt, k, rfl⟩
  have hk : c / T < k := Nat.div_lt_of_lt_mul hlt
  rw [Nat.mul_comm T k]
  exact Nat.mul_le_mul_right T hk

theorem lt_nextColumn (hT : 1 ≤ T) (c : Nat) (b : UInt8) : c < nextColumn T c b := by
  by_cases hb : b = '\t'.toUInt8
  · rw [hb]
    exact (isLeast_nextColumn hT c).1.1
  · rw [nextColumn, if_neg hb]
    exact Nat.lt_succ_self c

theorem nextColumn_le (hT : 1 ≤ T) (c : Nat) (b : UInt8) : nextColumn T c b ≤ c + T := by
  rw [nextColumn]
  split
  · rw [Nat.succ_mul]
    exact Nat.add_le_add_right (Nat.div_mul_le_self c T) T
  · exact Nat.add_le_add_left hT c

theorem width_concat (T : Nat) (bs : Bytes) (b : UInt8) :
    width T (bs ++ [b]) = nextColumn T (width T bs) b := by
  rw [width, List.foldl_concat, width]

theorem width_lt_concat (hT : 1 ≤ T) (bs : Bytes) (b : UInt8) :
    width T bs < width T (bs ++ [b]) := by
  rw [width_concat]
  exact lt_nextColumn hT _ b

/-- Each blank takes the width of a tab at most. -/
theorem width_le (hT : 1 ≤ T) (bs : Bytes) : width T bs ≤ bs.length * T := by
  induction bs using List.reverseRecOn with
  | nil => exact Nat.zero_le _
  | append_singleton bs b ih =>
    rw [width_concat, List.length_append, List.length_singleton, Nat.succ_mul]
    exact (nextColumn_le hT _ b).trans (Nat.add_le_add_right ih T)

/-! ## Columns with 64 bits -/

variable {T c c' : UInt64}

theorem checked?_eq_some_iff {n : Nat} : checked? n = some c ↔ c.toNat = n := by
  rw [checked?]
  split_ifs with h
  · rw [Option.some_inj, ← UInt64.toNat_inj, UInt64.toNat_ofNat_of_lt' h, eq_comm]
  · exact iff_of_false nofun fun heq => h (heq ▸ UInt64.toNat_lt c)

/-- A blank leads where it leads without a limit, if 64 bits hold that. -/
theorem nextColumn?_eq_some_iff (hT : 1 ≤ T.toNat) :
    nextColumn? T c b = some c' ↔ c'.toNat = nextColumn T.toNat c.toNat b := by
  rw [nextColumn?, nextColumn]
  split
  · simp only [Option.bind_eq_bind, Option.bind_eq_some_iff, checked?_eq_some_iff,
      UInt64.toNat_div]
    constructor
    · rintro ⟨stop, hstop, hc⟩
      rw [hc, hstop]
    · intro hc
      -- the product is not smaller than the sum
      have hlt : c.toNat / T.toNat + 1 < UInt64.size :=
        (Nat.le_mul_of_pos_right _ hT).trans_lt (hc ▸ UInt64.toNat_lt c')
      have hstop := UInt64.toNat_ofNat_of_lt' hlt
      exact ⟨_, hstop, by rw [hstop, hc]⟩
  · exact checked?_eq_some_iff

theorem measure?_concat (T : UInt64) (bs : Bytes) (b : UInt8) :
    measure? T (bs ++ [b]) = (measure? T bs).bind fun c => nextColumn? T c b := by
  rw [measure?, List.foldlM_append, measure?]
  exact congrArg _ (funext fun c => Option.bind_fun_some _)

/-- What is measured is the column without a limit, if 64 bits hold that. -/
theorem measure?_eq_some_iff (hT : 1 ≤ T.toNat) :
    measure? T bs = some c ↔ c.toNat = width T.toNat bs := by
  induction bs using List.reverseRecOn generalizing c with
  | nil => rw [measure?, List.foldlM_nil, Option.pure_def, Option.some_inj, ← UInt64.toNat_inj,
      eq_comm]; rfl
  | append_singleton bs b ih =>
    simp only [measure?_concat, Option.bind_eq_some_iff, ih, nextColumn?_eq_some_iff hT,
      width_concat]
    constructor
    · rintro ⟨m, hm, hc⟩
      rw [hc, hm]
    · intro hc
      have hlt : width T.toNat bs < UInt64.size :=
        (lt_nextColumn hT _ b).trans (hc ▸ UInt64.toNat_lt c)
      have hm := UInt64.toNat_ofNat_of_lt' hlt
      exact ⟨_, hm, by rw [hm, hc]⟩

theorem measure?_eq_none_iff (hT : 1 ≤ T.toNat) :
    measure? T bs = none ↔ 2 ^ 64 ≤ width T.toNat bs := by
  rw [Option.eq_none_iff_forall_ne_some]
  constructor
  · intro hnone
    by_contra hlt
    have hc := UInt64.toNat_ofNat_of_lt' (Nat.not_le.1 hlt)
    exact hnone _ ((measure?_eq_some_iff hT).2 hc)
  · intro hle c hc
    rw [← (measure?_eq_some_iff hT).1 hc] at hle
    exact absurd (UInt64.toNat_lt c) (Nat.not_lt.2 hle)

theorem columnAfter_concat (T : UInt64) (bs : Bytes) (b : UInt8) : columnAfter T (bs ++ [b]) =
    if b = '\t'.toUInt8 then (columnAfter T bs / T + 1) * T else columnAfter T bs + 1 := by
  rw [columnAfter, List.foldl_concat, columnAfter]

/-- What 64 bits keep of a column. -/
theorem toNat_columnAfter_concat (T : UInt64) (bs : Bytes) (b : UInt8) :
    (columnAfter T (bs ++ [b])).toNat =
      nextColumn T.toNat (columnAfter T bs).toNat b % 2 ^ 64 := by
  rw [columnAfter_concat, nextColumn]
  split
  · rw [UInt64.toNat_mul, UInt64.toNat_add, UInt64.toNat_div, Nat.mod_mul_mod]
    rfl
  · rw [UInt64.toNat_add]
    rfl

/-- Below 2 ^ 64 they keep all of it. -/
theorem toNat_columnAfter (hT : 1 ≤ T.toNat) (h : width T.toNat bs < 2 ^ 64) :
    (columnAfter T bs).toNat = width T.toNat bs := by
  induction bs using List.reverseRecOn with
  | nil => rfl
  | append_singleton bs b ih =>
    rw [toNat_columnAfter_concat, ih ((width_lt_concat hT bs b).trans h), ← width_concat]
    exact Nat.mod_eq_of_lt h

theorem toNat_columnAfter_iff (hT : 1 ≤ T.toNat) :
    (columnAfter T bs).toNat = width T.toNat bs ↔ width T.toNat bs < 2 ^ 64 :=
  ⟨fun h => h ▸ UInt64.toNat_lt _, toNat_columnAfter hT⟩

/-- The blanks that are measured are all in front of the line. -/
theorem run_columnPattern_eq (T c : UInt64) (bs : Bytes) :
    ((columnPattern T).run c bs).1 = bs.takeWhile isIndent := by
  induction bs generalizing c with
  | nil => rfl
  | cons b bs ih =>
    rw [List.takeWhile_cons]
    cases hstep : (columnPattern T).step c b with
    | none =>
      have hb : isIndent b = false := by
        simp only [columnPattern] at hstep
        split_ifs at hstep with hspace htab
        simp [isIndent, hspace, htab]
      rw [Pattern.run_cons_none hstep, hb]
      rfl
    | some c' =>
      have hb : isIndent b = true := by
        simp only [columnPattern] at hstep
        split_ifs at hstep with hspace htab
        · simp [isIndent, hspace]
        · simp [isIndent, htab]
      rw [Pattern.run_cons_some rfl hstep, hb, ih c']
      rfl

/-! ## What lexers measure -/

theorem toNat_tabSize_start (source : Source) (options : Options) :
    (start source options).tabSize.toNat = max 1 options.tabSize.toNat := by
  show (if 1 ≤ options.tabSize then options.tabSize else 1).toNat = _
  rw [max_def]
  exact (apply_ite UInt64.toNat _ _ _).trans (if_congr UInt64.le_iff_toNat_le rfl rfl)

/-- The tab size that a lexer works with is the one that was set, or one that a comment may
    set. -/
theorem tabSize_cases {read : String → Option Toml} (hread : Toml.IsReader read) {text : String}
    {s : Settings} (hs : Settings.ofTextBy read text = .ok s) (source : Source)
    (calls : List Call) {T : UInt64}
    (hT : T = ((History.start source s.lexerOptions).calls calls).lexer.tabSize) :
    (T.toNat = s.lexer.tabSize ∨ T.toNat ≤ TabDirective.largest) ∧
      1 ≤ T.toNat ∧ T.toNat < 2 ^ 63 := by
  obtain ⟨⟨hone, hlt⟩, -⟩ := Settings.sizes_of_ofTextBy hread.fits hs
  rw [hT]
  refine tabSize_induction (P := fun T => (T.toNat = s.lexer.tabSize ∨
    T.toNat ≤ TabDirective.largest) ∧ 1 ≤ T.toNat ∧ T.toNat < 2 ^ 63)
    (fun n hone hle => ?_) ?_ calls
  · rw [TabDirective.toNat_toUInt64 hle]
    exact ⟨.inr hle, hone, hle.trans_lt (by decide)⟩
  · have hset : s.lexerOptions.tabSize.toNat = s.lexer.tabSize :=
      UInt64.toNat_ofNat_of_lt' (hlt.trans (by decide))
    have hstart : (History.start source s.lexerOptions).lexer.tabSize.toNat = s.lexer.tabSize := by
      rw [History.start, toNat_tabSize_start, hset, max_eq_right hone]
    rw [hstart]
    exact ⟨.inl rfl, hone, hlt⟩

theorem breaksOff_iff {l : Lexer} (hT : 1 ≤ l.tabSize.toNat) : l.breaksOff = true ↔
    l.latched = false ∧ l.lineStart = true ∧
      2 ^ 64 ≤ width l.tabSize.toNat (l.input.munch (columnPattern l.tabSize) 0).1 := by
  rw [breaksOff, Bool.and_eq_true, Bool.and_eq_true, Bool.not_eq_true', Option.isNone_iff_eq_none,
    measure?_eq_none_iff hT, and_assoc]

/-- **Columns are exact below 2 ^ 64.** Settings that a text can spell, whatever way it is read,
    lead to a tab size from 1 to 2 ^ 63 - 1. The blanks that are measured where a line begins are
    all the spaces and tabs in front of it. Their column is the one without a limit if and only if
    that is below 2 ^ 64, as it is for few enough of them; where it is not, the program breaks
    off. Up to there, each blank is measured as it is without a limit, and the column grows with
    it; at the first blank that leads further, an operation has a result that 64 bits do not
    hold. -/
theorem column_exact_iff {read : String → Option Toml} (hread : Toml.IsReader read)
    {text : String} {s : Settings} (hs : Settings.ofTextBy read text = .ok s) (source : Source)
    (calls : List Call) :
    let l := ((History.start source s.lexerOptions).calls calls).lexer
    let T := l.tabSize
    let blanks := (l.input.munch (columnPattern T) 0).1
    let column := (l.input.munch (columnPattern T) 0).2.1
    (T.toNat = s.lexer.tabSize ∨ T.toNat ≤ TabDirective.largest) ∧
    1 ≤ T.toNat ∧ T.toNat < 2 ^ 63 ∧
    blanks = l.input.rest.takeWhile isIndent ∧
    (column.toNat = width T.toNat blanks ↔ width T.toNat blanks < 2 ^ 64) ∧
    (l.breaksOff = true ↔
      l.latched = false ∧ l.lineStart = true ∧ 2 ^ 64 ≤ width T.toNat blanks) ∧
    (blanks.length * T.toNat < 2 ^ 64 → width T.toNat blanks < 2 ^ 64) ∧
    ∀ bs b, bs ++ [b] <+: blanks → ∀ c, measure? T bs = some c → c.toNat = width T.toNat bs ∧
      (∀ c', nextColumn? T c b = some c' → c < c' ∧ measure? T (bs ++ [b]) = some c') ∧
      (nextColumn? T c b = none ↔ 2 ^ 64 ≤ width T.toNat (bs ++ [b])) := by
  intro l T blanks column
  obtain ⟨hset, hone, hlt⟩ := tabSize_cases hread hs source calls (T := T) rfl
  have hrun := (Input.munched (columnPattern T) 0 l.input).run
  have hcolumn : column = columnAfter T blanks := run_columnPattern hrun
  have hblanks := run_columnPattern_eq T 0 l.input.rest
  rw [hrun] at hblanks
  refine ⟨hset, hone, hlt, hblanks, ?_, breaksOff_iff hone, (width_le hone blanks).trans_lt, ?_⟩
  · rw [hcolumn]
    exact toNat_columnAfter_iff hone
  · intro bs b _ c hc
    have hexact := (measure?_eq_some_iff hone).1 hc
    have hnext : measure? T (bs ++ [b]) = nextColumn? T c b := by
      rw [measure?_concat, hc, Option.bind_some]
    refine ⟨hexact, fun c' hc' => ⟨?_, hnext.trans hc'⟩, ?_⟩
    · rw [UInt64.lt_iff_toNat_lt, (nextColumn?_eq_some_iff hone).1 hc']
      exact lt_nextColumn hone _ b
    · rw [← hnext, measure?_eq_none_iff hone]

/-- Settings with the largest tab size. -/
def widestText : String :=
  "[tokenizer]\ntab_size = 9223372036854775807\n"

@[inherit_doc widestText]
def widest : Settings where
  lexer := { tabSize := 9223372036854775807 }

/-- Two tabs and two spaces in front of a line. -/
def wideBlanks : Bytes :=
  "\t\t  ".toList.map Char.toUInt8

/-- A line after wide blanks, and another one. -/
def wideLine : Source :=
  .ofBytes (wideBlanks ++ "a\nb\n".toList.map Char.toUInt8)

/-- The second tab and the first space are measured, and the second space is not. -/
theorem column_exact_iff_of_widest :
    let T := widest.lexerOptions.tabSize
    Settings.ofTextBy Toml.read? widestText = .ok widest ∧
      measure? T (wideBlanks.take 3) = some 18446744073709551615 ∧
      nextColumn? T 18446744073709551615 ' '.toUInt8 = none := by
  intro T
  have hs : Settings.ofTextBy Toml.read? widestText = .ok widest := by cbv
  let l := ((History.start wideLine widest.lexerOptions).calls []).lexer
  have hblanks : (l.input.munch (columnPattern l.tabSize) 0).1 = wideBlanks := by cbv
  obtain ⟨-, -, -, -, -, -, -, hsteps⟩ := column_exact_iff Toml.isReader_read? hs wideLine []
  rw [hblanks] at hsteps
  have htab := hsteps (wideBlanks.take 1) '\t'.toUInt8 (by decide) 9223372036854775807 (by decide)
  have hspace := hsteps (wideBlanks.take 2) ' '.toUInt8 (by decide) 18446744073709551614
    (htab.2.1 _ (by decide)).2
  have hlast := hsteps (wideBlanks.take 3) ' '.toUInt8 (by decide) 18446744073709551615
    (hspace.2.1 _ (by decide)).2
  exact ⟨hs, (hspace.2.1 _ (by decide)).2, hlast.2.2.2 (by decide)⟩

/-- Two tabs and two spaces lead to column 2 ^ 64, and the program breaks off. -/
theorem breaksOff_of_wideBlanks :
    let l := Lexer.start wideLine widest.lexerOptions
    Settings.ofTextBy Toml.read? widestText = .ok widest ∧
      (l.input.munch (columnPattern l.tabSize) 0).1 = wideBlanks ∧
      width widest.lexer.tabSize wideBlanks = 2 ^ 64 ∧ measure? l.tabSize wideBlanks = none ∧
      l.get? = none := by
  cbv

/-! ## Short inputs -/

/-- Whether the program breaks off nowhere in a run that begins with a lexer. -/
def Unbroken (l : Lexer) (run : List (Token × Lexer)) : Prop :=
  ∀ m ∈ l :: run.map (·.2), m.breaksOff = false

/-- Whether a lexer has at most `n` bytes before it, and a tab size of at most `m`, now and after
    each comment. -/
structure Within (n m : Nat) (l : Lexer) : Prop where
  remaining : l.input.remaining ≤ n
  pos : 1 ≤ l.tabSize.toNat
  tabSize : l.tabSize.toNat ≤ m
  largest : TabDirective.largest ≤ m

theorem Within.breaksOff {n m : Nat} {l : Lexer} (h : Within n m l) (hnm : n * m < 2 ^ 64) :
    l.breaksOff = false := by
  have hmunched := (Input.munched (columnPattern l.tabSize) 0 l.input).remaining
  have hlength : (l.input.munch (columnPattern l.tabSize) 0).1.length ≤ n :=
    (Nat.le_of_add_right_le hmunched.le).trans h.remaining
  refine Bool.eq_false_iff.2 fun hbreak => ?_
  have hwide := ((breaksOff_iff h.pos).1 hbreak).2.2
  have hle := (width_le h.pos _).trans (Nat.mul_le_mul hlength h.tabSize)
  exact absurd hnm (Nat.not_lt.2 (hwide.trans hle))

theorem Within.behind {n m : Nat} {l : Lexer} (h : Within n m l) : Within n m l.behind where
  remaining := (Input.stable_remaining n).get h.remaining
  pos := tabSize_get_induction (P := (1 ≤ ·.toNat))
    (fun k hone hle => by rwa [TabDirective.toNat_toUInt64 hle]) h.pos
  tabSize := tabSize_get_induction (P := (·.toNat ≤ m))
    (fun k _ hle => by rw [TabDirective.toNat_toUInt64 hle]; exact hle.trans h.largest) h.tabSize
  largest := h.largest

theorem Within.unbroken {n m : Nat} {l : Lexer} (h : Within n m l) (hnm : n * m < 2 ^ 64)
    (k : Nat) : Unbroken l (l.runFor k) := by
  induction k generalizing l with
  | zero => exact List.forall_mem_singleton.2 (h.breaksOff hnm)
  | succ k ih =>
    cases hfinished : l.finished with
    | true =>
      rw [runFor_of_finished hfinished]
      exact List.forall_mem_singleton.2 (h.breaksOff hnm)
    | false =>
      rw [runFor_eq_cons hfinished]
      exact List.forall_mem_cons.2 ⟨h.breaksOff hnm, ih h.behind⟩

/-- **Short inputs are measured.** The program breaks off nowhere in a run on a source that has
    less than 2 ^ 64 bytes, each counted as a tab of the size that was set or of the largest that
    a comment may set. -/
theorem unbroken_of_size {source : Source} {options : Options}
    (h : source.size * max (max 1 options.tabSize.toNat) TabDirective.largest < 2 ^ 64) :
    Unbroken (start source options) (start source options).run := by
  have hsize := toNat_tabSize_start source options
  refine Within.unbroken ⟨?_, ?_, ?_, Nat.le_max_right _ _⟩ h _
  · exact (Nat.zero_add source.size).le
  · exact hsize ▸ Nat.le_max_left _ _
  · exact hsize ▸ Nat.le_max_left _ _

end ScriptCore.Lexer
