import ScriptCore.CommandLine.Arguments
import ScriptCore.CommandLine.Machine
import ScriptCore.Grammar.First
import ScriptCore.Grammar.Json
import ScriptCore.Grammar.Tables
import ScriptCore.Settings.Text

/-!
# The command line

The program lists the tokens of a file or of its input, or shows the grammar of
grammars or its first sets. A run leaves what is written to the two outputs,
and the exit code: 0 if all went well. Where the program breaks off, what was
written up to there stays, and the exit code is 101; what the system tells of it
is left out.

Settings are read from the path that the arguments give, or else from the file
`coil.toml` in the working directory or the nearest directory above it that
has one. How the document in a file is read is a parameter; `Toml.read?` is one
way. A file shows no prompts.
-/

namespace ScriptCore.CommandLine

/-- What a run leaves. -/
structure Outcome where
  output : String := ""
  messages : String := ""
  code : Nat := 0
  deriving DecidableEq, Repr

/-- A run that only shows a message. -/
def Outcome.failure (message : String) : Outcome where
  messages := message ++ "\n"
  code := 1

/-- A run that breaks off before anything is written. -/
def Outcome.brokenOff : Outcome where
  code := 101

/-! ## Commands -/

/-- The line of a token. -/
def tokenLine (t : Token) : String :=
  toString t.line ++ ": " ++ t.render ++ "\n"

/-- The line that tells what is wrong. -/
def faultLine (l : Lexer) : String :=
  "line " ++ toString l.line ++ ": " ++ l.status.message ++ "\n"

/-- How a list of tokens ends: with an end marker where nothing is wrong, because of
    an error, or where the program breaks off. -/
inductive Ending
  | well
  | ill
  | brokenOff
  deriving DecidableEq, Repr

/-- The exit code. -/
def Ending.code : Ending → Nat
  | well => 0
  | ill => 1
  | brokenOff => 101

/-- The tokens that are listed, `n` at most, each with the lexer after it, and how
    the list ends. It goes on up to an end marker, or up to an error that the lexer
    does not recover from, unless the program breaks off before. -/
def listFor : Nat → Lexer → List (Token × Lexer) × Ending
  | 0, _ => ([], .ill)
  | n + 1, l =>
    match l.get? with
    | none => ([], .brokenOff)
    | some (t, l) =>
      let rest := match t.kind with
        | .endMarker => ([], if l.status.isError then Ending.ill else .well)
        | .error => match l.recover? with
          | some l => listFor n l
          | none => ([], .ill)
        | _ => listFor n l
      ((t, l) :: rest.1, rest.2)

/-- A bound on the number of tokens that are listed: those of a run, and one for
    each interrupted read. -/
def listBound (l : Lexer) : Nat :=
  l.bound + l.input.source.pauses + if l.status = .interrupted then 1 else 0

/-- What is told beside a list of tokens, where `shown` prompts were shown before:
    the other prompts, and what is wrong where there is an error token. -/
def told (shown : Nat) : List (Token × Lexer) → List String
  | [] => []
  | (t, l) :: listed =>
    l.input.shown.drop shown ++ (if t.kind = .error then [faultLine l] else []) ++
      told l.input.shown.length listed

/-- Lists the tokens of a lexer. -/
def listTokens (l : Lexer) : Outcome :=
  let (listed, ending) := listFor (listBound l) l
  { output := String.join (listed.map fun x => tokenLine x.1)
    messages := String.join (told l.input.shown.length listed)
    code := ending.code }

/-- The line of a report. -/
def reportLine (r : Grammar.LeftRecursion) : String :=
  "Left-recursion for '" ++ r.name ++ "' (while computing '" ++ r.below ++ "')\n"

/-- The line of a rule, if its first set is known. -/
def firstLine (g : Grammar) (r : Grammar.Rule) : String :=
  match r.first.set? with
  | some set => r.name ++ " " ++ g.renderSet set ++ "\n"
  | none => ""

/-- Computes the first sets of a grammar anew and lists them. Left recursion is
    a fault; the settings say whether it is also told. -/
def listFirsts (g : Grammar) (s : Settings) : Outcome :=
  match g.clearFirsts.addFirsts with
  | (.error e, _) => .failure ("Error: " ++ e.message)
  | (.ok reports, g) =>
    { output := String.join (g.rules.map (firstLine g))
      messages :=
        if s.grammar.reportLeftRecursion then String.join (reports.map reportLine) else ""
      code := if reports = [] then 0 else 1 }

/-- Shows a grammar. -/
def showGrammar (g : Grammar) : Outcome where
  output := g.toText ++ "\n"

/-! ## Settings -/

/-- Why the settings cannot be had. -/
inductive SettingsError
  | refused (path : String) (error : SystemError)
  | notText (path : String)
  | wrong (error : Settings.Error)
  deriving DecidableEq, Repr

/-- How an error is shown. -/
def SettingsError.message : SettingsError → String
  | refused path error => "I/O error: failed to read " ++ path ++ ": " ++ error.message
  | notText path =>
    "I/O error: failed to read " ++ path ++ ": stream did not contain valid UTF-8"
  | wrong error => error.message

/-- The settings that a path leads to. -/
def settingsAt (read : String → Option Toml) (path : String) (found : Except SystemError Node) :
    Except SettingsError Settings :=
  match found.bind Node.read with
  | .error e => .error (.refused path e)
  | .ok bytes =>
    match Utf8.decode? bytes with
    | none => .error (.notText path)
    | some text => (Settings.ofTextBy read text).mapError .wrong

variable {m : Type → Type} [Monad m] (read : String → Option Toml)

/-- The settings in the nearest of `n` directories, beginning with the one that
    `up` leads to, or the defaults. -/
def nearestSettings (machine : Machine m) (up : String) :
    Nat → m (Except SettingsError Settings)
  | 0 => return .ok {}
  | n + 1 => do
    let path := up ++ "coil.toml"
    match ← machine.look path with
    | .ok (.file contents) => return settingsAt read path (.ok (.file contents))
    | _ => nearestSettings machine (up ++ "../") n

/-- The settings of a run. -/
def loadSettings (machine : Machine m) (path : Option String) :
    m (Except SettingsError Settings) := do
  match path with
  | some path => return settingsAt read path (← machine.look path)
  | none => nearestSettings read machine "" ((← machine.depth) + 1)

/-! ## Runs -/

/-- Opens the file of the day for the log, if the log goes to files. -/
def openLog (machine : Machine m) (s : Settings) : m (Except SystemError Unit) := do
  match s.logOptions with
  | .ok { target := .files directory stem, .. } =>
    machine.openFile (Log.filePath directory stem (← machine.date))
  | _ => return .ok ()

/-- The bytes of what a path leads to as a source. Reading a directory fails. -/
def Node.source : Node → Lexer.Source
  | file contents => .ofLines contents
  | directory => { reads := [.failed SystemError.isDirectory.message] }

/-- The options of the lexer for a file. -/
def fileOptions (s : Settings) : Lexer.Options :=
  { s.lexerOptions with prompts := {} }

/-- The options of the lexer for the standard input: if it is typed in there are
    prompts, whether they are set or not. -/
def inputOptions (s : Settings) (isTyped : Bool) : Lexer.Options :=
  if isTyped ∧ s.lexer.firstPrompt = none then
    { s.lexerOptions with prompts := { first := some ">>> ", later := some "... " } }
  else s.lexerOptions

/-- Obeys a command. -/
def obey (machine : Machine m) (s : Settings) : Command → m Outcome
  | .tokens (some path) => do
    match ← machine.look path with
    | .ok node => return listTokens (.start node.source (fileOptions s))
    | .error e => return .failure ("Error: " ++ e.details)
  | .tokens none => do
    let source := Lexer.Source.ofLines (← machine.input)
    return listTokens (.start source (inputOptions s (← machine.isTyped)))
  | .firsts => return listFirsts Grammar.metaGrammar s
  | .grammarJson => return showGrammar Grammar.metaGrammar

/-- Runs the program. The log is opened before the command is obeyed, so that the
    command finds what was made for it. If the log cannot be opened the program
    breaks off. -/
def run (machine : Machine m) (args : List String) : m Outcome := do
  match Invocation.ofArguments args with
  | .error r => return .failure r.message
  | .ok invocation =>
    match ← loadSettings read machine invocation.settingsPath with
    | .error e => return .failure e.message
    | .ok s =>
      match ← openLog machine s with
      | .ok () => obey machine s invocation.command
      | .error _ => return .brokenOff

end ScriptCore.CommandLine
