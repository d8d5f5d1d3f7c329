import ScriptCore.Lexer
import ScriptCore.Log

/-!
# Settings

What can be chosen about a run of the program, in sections for the lexer, for
grammars and for the log. Everything has a default. Words are kept as they were
given, so that settings are written back as they were read;
`Settings.logOptions` says what they mean, and `Settings.validate` that they
mean something.
-/

namespace ScriptCore

namespace Settings

/-- The settings of the lexer. -/
structure LexerSection where
  tabSize : Nat := 8
  maxIndent : Nat := 100
  firstPrompt : Option String := none
  laterPrompt : Option String := none
  deriving DecidableEq, Repr

/-- The settings for grammars. -/
structure GrammarSection where
  reportLeftRecursion : Bool := true
  deriving DecidableEq, Repr

/-- The settings of the log. -/
structure LogSection where
  level : String := "info"
  format : String := "pretty"
  output : String := "stderr"
  directory : String := "logs"
  stem : String := "coil"
  filter : Option String := none
  spanEvents : Bool := false
  deriving DecidableEq, Repr

/-- What is wrong with settings. -/
inductive Error
  | malformed
  | noTabSize
  | noIndent
  | unknownLevel (given : String)
  | unknownFormat (given : String)
  | unknownOutput (given : String)
  deriving DecidableEq, Repr

/-- How an error is shown. Words for the form and the place of the log are shown
    in small letters. -/
def Error.message (e : Error) : String :=
  "Configuration error: " ++
    match e with
    | malformed => "the settings cannot be read"
    | noTabSize => "tokenizer.tab_size must be at least 1"
    | noIndent => "tokenizer.max_indent must be at least 1"
    | unknownLevel s => "unknown log level '" ++ s ++ "'"
    | unknownFormat s => "unknown log format '" ++ s.toLower ++ "'"
    | unknownOutput s => "unknown log output '" ++ s.toLower ++ "'"

end Settings

/-- The settings of a run. -/
structure Settings where
  lexer : Settings.LexerSection := {}
  grammar : Settings.GrammarSection := {}
  log : Settings.LogSection := {}
  deriving DecidableEq, Repr

namespace Settings

/-- What the settings of the log mean, or the first word that means nothing. -/
def logOptions (s : Settings) : Except Error Log.Options :=
  match Log.Level.ofText? s.log.level with
  | none => .error (.unknownLevel s.log.level)
  | some level =>
    match Log.Format.ofText? s.log.format with
    | none => .error (.unknownFormat s.log.format)
    | some format =>
      match Log.Target.ofText? s.log.directory s.log.stem s.log.output with
      | none => .error (.unknownOutput s.log.output)
      | some target =>
        .ok { level, format, target, spanEvents := s.log.spanEvents, filter := s.log.filter }

/-- Checks that the sizes are positive and that the words for the log mean
    something. -/
def validate (s : Settings) : Except Error Unit :=
  if s.lexer.tabSize = 0 then .error .noTabSize
  else if s.lexer.maxIndent = 0 then .error .noIndent
  else match s.logOptions with
    | .ok _ => .ok ()
    | .error e => .error e

/-- What the settings of the lexer mean. -/
def lexerOptions (s : Settings) : Lexer.Options where
  tabSize := s.lexer.tabSize.toUInt64
  maxIndent := s.lexer.maxIndent
  prompts := { first := s.lexer.firstPrompt, later := s.lexer.laterPrompt }

end Settings

end ScriptCore
