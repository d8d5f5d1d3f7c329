/-!
# Arguments

The arguments of the program name a command, and perhaps the file with the
settings. They are read from left to right, up to the first one that cannot be
obeyed. The argument after `--config` is a path, whatever it looks like.
-/

namespace ScriptCore.CommandLine

/-- What the program is to do. -/
inductive Command
  | tokens (file : Option String)
  | firsts
  | grammarJson
  deriving DecidableEq, Repr

/-- A command, and the path of the settings if it is given. -/
structure Invocation where
  command : Command
  settingsPath : Option String
  deriving DecidableEq, Repr

/-- Why arguments are not obeyed. Asking for help, or for a command that is not
    there, gives the usage. -/
inductive Refusal
  | usage
  | noPath
  | unknownOption (option : String)
  deriving DecidableEq, Repr

/-- The lines that say how the program is used. -/
def usageLines : List String :=
  ["coil - tokenizer and grammar tables",
    "",
    "USAGE:",
    "    coil [OPTIONS] <COMMAND>",
    "",
    "COMMANDS:",
    "    tokens [FILE]   Dump tokens from FILE, or from stdin",
    "    firsts          Recompute and print the meta-grammar's FIRST sets",
    "    grammar-json    Print the meta-grammar as JSON",
    "",
    "OPTIONS:",
    "    -h, --help          Print help information",
    "    --config <PATH>     Use PATH instead of the discovered coil.toml"]

/-- How the program is used. -/
def usage : String :=
  "\n".intercalate usageLines

/-- How a refusal is shown. -/
def Refusal.message : Refusal → String
  | usage => CommandLine.usage
  | noPath => "--config needs a path"
  | unknownOption option => "Unknown option: " ++ option ++ "\n\n" ++ CommandLine.usage

/-- The words among the arguments, and the path of the settings. Of several
    paths the last one counts. -/
def scan : List String → Except Refusal (List String × Option String)
  | [] => .ok ([], none)
  | ["--config"] => .error .noPath
  | "--config" :: path :: args => (scan args).map fun (words, later) => (words, later.or path)
  | arg :: args =>
    if arg = "--help" ∨ arg = "-h" then .error .usage
    else if ['-', '-'] <+: arg.toList then .error (.unknownOption arg)
    else (scan args).map fun (words, path) => (arg :: words, path)

/-- The command that words spell. -/
def Command.ofWords? : List String → Option Command
  | ["tokens"] => some (.tokens none)
  | ["tokens", file] => some (.tokens (some file))
  | ["firsts"] => some .firsts
  | ["grammar-json"] => some .grammarJson
  | _ => none

/-- What arguments ask for. -/
def Invocation.ofArguments (args : List String) : Except Refusal Invocation :=
  match scan args with
  | .error r => .error r
  | .ok (words, settingsPath) =>
    match Command.ofWords? words with
    | some command => .ok { command, settingsPath }
    | none => .error .usage

end ScriptCore.CommandLine
