import ScriptCore.Settings
import ScriptCore.Toml.Printer
import ScriptCore.Toml.Reader

/-!
# Settings as text

Settings are written as a TOML document with a table for each section. A
setting without a value is left out. Tables and keys that no setting has are
ignored when settings are read, and what is not there has its default; but a
setting that is there must have a value of its type.
-/

namespace ScriptCore.Settings

/-! ## Writing -/

/-- The entry of a setting that may have no value. -/
def optionalEntry (key : String) (value : Option String) : Toml.Entries :=
  value.toList.map fun s => (key, .text s)

/-- The entries of a section. -/
def LexerSection.toEntries (s : LexerSection) : Toml.Entries :=
  [("tab_size", .integer s.tabSize), ("max_indent", .integer s.maxIndent)] ++
    optionalEntry "ps1" s.firstPrompt ++ optionalEntry "ps2" s.laterPrompt

@[inherit_doc LexerSection.toEntries]
def GrammarSection.toEntries (s : GrammarSection) : Toml.Entries :=
  [("report_left_recursion", .truth s.reportLeftRecursion)]

@[inherit_doc LexerSection.toEntries]
def LogSection.toEntries (s : LogSection) : Toml.Entries :=
  [("level", .text s.level), ("format", .text s.format), ("output", .text s.output),
    ("directory", .text s.directory), ("prefix", .text s.stem)] ++
    optionalEntry "filter" s.filter ++ [("span_events", .truth s.spanEvents)]

/-- The document of settings. -/
def toToml (s : Settings) : Toml where
  tables := [("tokenizer", s.lexer.toEntries), ("grammar", s.grammar.toEntries),
    ("logging", s.log.toEntries)]

/-- The text of settings. -/
def toText (s : Settings) : String :=
  s.toToml.render

/-! ## Reading -/

/-- A natural number. -/
def natOf? : Toml.Value → Option Nat
  | .integer n => if 0 ≤ n then some n.toNat else none
  | _ => none

/-- A text. -/
def textOf? : Toml.Value → Option String
  | .text s => some s
  | _ => none

/-- A truth value. -/
def truthOf? : Toml.Value → Option Bool
  | .truth b => some b
  | _ => none

/-- A setting that has a default. -/
def setting? {α : Type} (es : Toml.Entries) (key : String) (read : Toml.Value → Option α)
    (default : α) : Option α :=
  match es.lookup key with
  | none => some default
  | some v => read v

/-- The section that entries spell. -/
def LexerSection.ofEntries? (es : Toml.Entries) : Option LexerSection := do
  let default : LexerSection := {}
  return {
    tabSize := ← setting? es "tab_size" natOf? default.tabSize
    maxIndent := ← setting? es "max_indent" natOf? default.maxIndent
    firstPrompt := ← setting? es "ps1" (fun v => (textOf? v).map some) default.firstPrompt
    laterPrompt := ← setting? es "ps2" (fun v => (textOf? v).map some) default.laterPrompt }

@[inherit_doc LexerSection.ofEntries?]
def GrammarSection.ofEntries? (es : Toml.Entries) : Option GrammarSection := do
  let default : GrammarSection := {}
  return {
    reportLeftRecursion :=
      ← setting? es "report_left_recursion" truthOf? default.reportLeftRecursion }

@[inherit_doc LexerSection.ofEntries?]
def LogSection.ofEntries? (es : Toml.Entries) : Option LogSection := do
  let default : LogSection := {}
  return {
    level := ← setting? es "level" textOf? default.level
    format := ← setting? es "format" textOf? default.format
    output := ← setting? es "output" textOf? default.output
    directory := ← setting? es "directory" textOf? default.directory
    stem := ← setting? es "prefix" textOf? default.stem
    filter := ← setting? es "filter" (fun v => (textOf? v).map some) default.filter
    spanEvents := ← setting? es "span_events" truthOf? default.spanEvents }

/-- The settings that a document spells, whether they mean something or not. -/
def ofToml? (t : Toml) : Option Settings := do
  return {
    lexer := ← LexerSection.ofEntries? (← t.table? "tokenizer")
    grammar := ← GrammarSection.ofEntries? (← t.table? "grammar")
    log := ← LogSection.ofEntries? (← t.table? "logging") }

/-- The settings that a text spells, if `read` tells the document that it spells. -/
def ofTextBy (read : String → Option Toml) (text : String) : Except Error Settings :=
  match (read text).bind ofToml? with
  | none => .error .malformed
  | some s =>
    match s.validate with
    | .ok () => .ok s
    | .error e => .error e

/-- The settings that a text spells. -/
def ofText (text : String) : Except Error Settings :=
  ofTextBy Toml.read? text

end ScriptCore.Settings
