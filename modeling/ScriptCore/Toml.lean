/-!
# TOML documents

What settings need of TOML: a document is a list of tables, each with a name,
and of entries in front of them; an entry gives a key a value. Names and keys are
kept in the order of the text.

A text may spell a table in several ways. In the plain one, which settings are
written in, a table stands under a header with a plain name, and each entry is on
a line of its own, so that a document is made of lines. The lines of a document
give it back (`Toml.ofLines?_toLines`); lines that use a name twice give none.
-/

namespace ScriptCore

/-- The value of a key. A value of a kind that no setting has is kept as it is
    spelled, such as a number with a fraction, a date or a list. -/
inductive Toml.Value
  | text (s : String)
  | integer (n : Int)
  | other (spelling : List Char)
  | truth (b : Bool)
  deriving DecidableEq, Repr

/-- Keys and their values. -/
abbrev Toml.Entries := List (String × Toml.Value)

/-- A document: the entries in front of the tables, and the tables. -/
structure Toml where
  entries : Toml.Entries := []
  tables : List (String × Toml.Entries) := []
  deriving DecidableEq, Repr

namespace Toml

/-- What a line of a document says. -/
inductive Line
  | blank
  | header (name : String)
  | entry (key : String) (value : Value)
  deriving DecidableEq, Repr

/-- Whether no name is used twice in the same place. Tables and the entries in
    front of them are in one place. -/
def HasDistinctNames (t : Toml) : Prop :=
  (t.entries.map (·.1) ++ t.tables.map (·.1)).Nodup ∧ ∀ x ∈ t.tables, (x.2.map (·.1)).Nodup

instance (t : Toml) : Decidable t.HasDistinctNames :=
  inferInstanceAs (Decidable (_ ∧ _))

/-- The document that lines give, from the last line to the first: an entry is
    put in front of those of the part it stands in. -/
def group : List Line → Toml
  | [] => {}
  | .blank :: ls => group ls
  | .header name :: ls => { tables := (name, (group ls).entries) :: (group ls).tables }
  | .entry key value :: ls => { group ls with entries := (key, value) :: (group ls).entries }

/-- The document that lines give, if they use no name twice. -/
def ofLines? (ls : List Line) : Option Toml :=
  if (group ls).HasDistinctNames then some (group ls) else none

/-- The line of an entry. -/
def entryLine (e : String × Value) : Line :=
  .entry e.1 e.2

/-- The lines of a table. -/
def tableLines (t : String × Entries) : List Line :=
  .header t.1 :: t.2.map entryLine

/-- The lines of a document, with a blank line between its parts. -/
def toLines (t : Toml) : List Line :=
  let tables := t.tables.map tableLines
  [.blank].intercalate (if t.entries = [] then tables else t.entries.map entryLine :: tables)

/-- The entries under a name. A table that is not there has none; the name must
    not be a key in front of the tables. -/
def table? (t : Toml) (name : String) : Option Entries :=
  if (t.entries.lookup name).isSome then none else some ((t.tables.lookup name).getD [])

theorem group_entryLines (es : Entries) (ls : List Line) :
    group (es.map entryLine ++ ls) = { group ls with entries := es ++ (group ls).entries } := by
  induction es with
  | nil => rfl
  | cons e es ih =>
    rw [List.map_cons, List.cons_append, entryLine, group, ih]
    rfl

theorem group_tableLines (t : String × Entries) (ls : List Line) :
    group (tableLines t ++ ls) =
      { tables := (t.1, t.2 ++ (group ls).entries) :: (group ls).tables } := by
  rw [tableLines, List.cons_append, group, group_entryLines]

theorem group_tables (ts : List (String × Entries)) :
    group ([.blank].intercalate (ts.map tableLines)) = { tables := ts } := by
  induction ts with
  | nil => rfl
  | cons t ts ih =>
    cases ts with
    | nil => simpa [List.intercalate, group] using group_tableLines t []
    | cons u ts =>
      have hsplit : [Line.blank].intercalate ((t :: u :: ts).map tableLines) =
          tableLines t ++ .blank :: [Line.blank].intercalate ((u :: ts).map tableLines) := by
        simp [List.intercalate]
      rw [hsplit, group_tableLines, group, ih]
      simp

/-- The lines of a document give it back. -/
theorem group_toLines (t : Toml) : group t.toLines = t := by
  obtain ⟨es, ts⟩ := t
  by_cases h : es = []
  · subst h
    simpa [toLines] using group_tables ts
  · cases ts with
    | nil =>
      have hlines : toLines ⟨es, []⟩ = es.map entryLine ++ [] := by
        simp [toLines, h, List.intercalate]
      rw [hlines, group_entryLines]
      simp [group]
    | cons u ts =>
      have hlines : toLines ⟨es, u :: ts⟩ = es.map entryLine ++
          .blank :: [Line.blank].intercalate ((u :: ts).map tableLines) := by
        simp [toLines, h, List.intercalate]
      rw [hlines, group_entryLines, group, group_tables]
      simp

theorem ofLines?_toLines {t : Toml} (h : t.HasDistinctNames) : ofLines? t.toLines = some t := by
  rw [ofLines?, group_toLines, if_pos h]

end Toml

end ScriptCore
