import ScriptCore.Numeral

/-!
# Logging

What can be chosen about the log: how much is logged, in which form, and where
to. Levels, forms and places are named by words, in which the case of ASCII
letters does not matter; a level may also be named by its number.
-/

namespace ScriptCore.Log

/-- How much is logged, from errors only to everything. -/
inductive Level
  | error
  | warn
  | info
  | debug
  | trace
  deriving DecidableEq, Repr

namespace Level

/-- How a level is shown. -/
def name : Level → String
  | error => "ERROR"
  | warn => "WARN"
  | info => "INFO"
  | debug => "DEBUG"
  | trace => "TRACE"

/-- The level of a number from 1 to 5. -/
def ofNat? : Nat → Option Level
  | 1 => some error
  | 2 => some warn
  | 3 => some info
  | 4 => some debug
  | 5 => some trace
  | _ => none

/-- The level that a word names. -/
def ofWord? (s : String) : Option Level :=
  match s.toLower with
  | "error" => some error
  | "warn" => some warn
  | "info" => some info
  | "debug" => some debug
  | "trace" => some trace
  | _ => none

/-- The number that a text spells, perhaps with a plus sign in front. -/
def number? (s : String) : Option Nat :=
  match s.toList with
  | '+' :: digits => Numeral.value? 10 digits
  | digits => Numeral.value? 10 digits

/-- The level that a text names. -/
def ofText? (s : String) : Option Level :=
  match number? s with
  | some n => ofNat? n
  | none => ofWord? s

end Level

/-- The form of what is logged. -/
inductive Format
  | pretty
  | compact
  | json
  deriving DecidableEq, Repr

/-- How a form is shown. -/
def Format.name : Format → String
  | pretty => "pretty"
  | compact => "compact"
  | json => "json"

/-- The form that a text names. -/
def Format.ofText? (s : String) : Option Format :=
  match s.toLower with
  | "pretty" => some .pretty
  | "compact" => some .compact
  | "json" => some .json
  | _ => none

/-- Where the log goes: one of the program's own outputs, or a file for each day
    in a directory, with a name that begins with a stem (see `filePath`). -/
inductive Target
  | stderr
  | stdout
  | files (directory stem : String)
  deriving DecidableEq, Repr

/-- The place that a text names, given the directory and the stem for files. -/
def Target.ofText? (directory stem : String) (s : String) : Option Target :=
  match s.toLower with
  | "stderr" => some .stderr
  | "stdout" => some .stdout
  | "file" => some (.files directory stem)
  | _ => none

/-- The path of the file of a day. Its name is the stem and the date, with a point
    between. The stem may itself be a path, which leaves the directory if it
    begins with a slash. -/
def filePath (directory stem date : String) : String :=
  let name := if stem = "" then date else stem ++ "." ++ date
  if directory = "" ∨ stem.toList.head? = some '/' then name
  else if directory.toList.getLast? = some '/' then directory ++ name
  else directory ++ "/" ++ name

/-- What is chosen about the log. -/
structure Options where
  level : Level
  format : Format
  target : Target
  /-- Whether the beginning and the end of a span are logged too. -/
  spanEvents : Bool
  /-- Directives that choose the level for parts of the program. -/
  filter : Option String
  deriving DecidableEq, Repr

end ScriptCore.Log
