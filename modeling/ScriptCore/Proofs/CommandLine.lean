import Mathlib
import ScriptCore.Proofs.CommandLine.FileTree
import ScriptCore.Proofs.CommandLine.Listing
import ScriptCore.Proofs.Lexer.Prompts

/-!
# Listing the tokens of a file and of the input

The tokens of a text are listed alike, whether it is in a file or comes through the standard
input, and whatever prompts are set. Nothing is listed if the log cannot be opened.

* `run_loadSettings`: settings depend on neither the input nor the date, and are only looked at.
* `withLog`: the tree that a command finds. It has all that there was before
  (`extends_withLog`).
* `run_of_settings`: a run after its settings are found.
* `run_tokens`: listing tokens.
-/

namespace ScriptCore.CommandLine

open Lexer

variable {t t' : FileTree} {here : List String} {date date' path : String}
  {input input' bytes : Bytes} {settingsPath : Option String} {args args' : List String}
  {s : Settings} {read : String → Option Toml}

/-! ## Settings -/

theorem run_nearestSettings_succ (up : String) (n : Nat) :
    (nearestSettings read (FileTree.machine here date input) up (n + 1)).run t =
      match t.look here (up ++ "coil.toml") with
      | .ok (.file contents) => (settingsAt read (up ++ "coil.toml") (.ok (.file contents)), t)
      | _ => (nearestSettings read (FileTree.machine here date input) (up ++ "../") n).run t := by
  rw [nearestSettings]
  change StateT.run (match t.look here (up ++ "coil.toml") with
    | .ok (.file contents) => return settingsAt read (up ++ "coil.toml") (.ok (.file contents))
    | _ => nearestSettings read (FileTree.machine here date input) (up ++ "../") n) t = _
  split <;> rfl

theorem run_nearestSettings (up : String) (n : Nat) :
    (nearestSettings read (FileTree.machine here date input) up n).run t =
      (((nearestSettings read (FileTree.machine here date' input') up n).run t).1, t) := by
  induction n generalizing up with
  | zero => rfl
  | succ n ih =>
    rw [run_nearestSettings_succ, run_nearestSettings_succ]
    split
    · rfl
    · exact ih (up ++ "../")

/-- Settings are the same on each day and whatever the input is, and the tree is left as it
    is. -/
theorem run_loadSettings : (loadSettings read (FileTree.machine here date input) settingsPath).run t =
    (((loadSettings read (FileTree.machine here date' input') settingsPath).run t).1, t) := by
  cases settingsPath with
  | some path => rfl
  | none => exact run_nearestSettings "" (here.length + 1)

/-! ## The log -/

/-- The path of the file for the log of a day, if the log goes to files. -/
def logPath? (s : Settings) (date : String) : Option String :=
  match s.logOptions with
  | .ok { target := .files directory stem, .. } => some (Log.filePath directory stem date)
  | _ => none

/-- The tree after the log is opened. -/
def withLog (t : FileTree) (here : List String) (date : String) (s : Settings) :
    Except SystemError FileTree :=
  match logPath? s date with
  | some path => t.openFile here path
  | none => .ok t

theorem run_openLog : (openLog (FileTree.machine here date input) s).run t =
    match withLog t here date s with
    | .ok t' => (.ok (), t')
    | .error e => (.error e, t) := by
  have hopen : ∀ path, ((FileTree.machine here date input).openFile path).run t =
      match t.openFile here path with
      | .ok t' => (.ok (), t')
      | .error e => (.error e, t) := fun path => by
    change StateT.run (match t.openFile here path with
      | .ok t' => do set t'; return .ok ()
      | .error e => return .error e : StateM FileTree (Except SystemError Unit)) t = _
    split <;> rfl
  rw [openLog, withLog, logPath?]
  rcases s.logOptions with e | ⟨level, format, _ | _ | ⟨directory, stem⟩, spanEvents, filter⟩
  · rfl
  · rfl
  · rfl
  · exact hopen (Log.filePath directory stem date)

theorem extends_withLog (h : withLog t here date s = .ok t') : t.Extends t' := by
  rw [withLog] at h
  split at h
  · exact FileTree.extends_openFile h
  · cases h
    exact .refl t

/-! ## Runs -/

theorem obey_file (hfile : t.look here path = .ok (.file bytes)) :
    (obey (FileTree.machine here date input) s (.tokens (some path))).run t =
      (listTokens (start (.ofLines bytes) (fileOptions s)), t) := by
  have hlook : ((FileTree.machine here date input).look path).run t = (.ok (.file bytes), t) :=
    congrArg (·, t) hfile
  rw [obey]
  change StateT.run ((FileTree.machine here date input).look path >>= _) t = _
  rw [StateT.run_bind, hlook]
  rfl

theorem obey_input : (obey (FileTree.machine here date bytes) s (.tokens none)).run t =
    (listTokens (start (.ofLines bytes) s.lexerOptions), t) :=
  rfl

/-- A run after its settings are found: the log is opened, and then the command is obeyed. -/
theorem run_of_settings {invocation : Invocation}
    (hargs : Invocation.ofArguments args = .ok invocation)
    (hs : ((loadSettings read (FileTree.machine here date' input')
      invocation.settingsPath).run t).1 = .ok s) :
    (run read (FileTree.machine here date input) args).run t =
      match withLog t here date s with
      | .ok t' => (obey (FileTree.machine here date input) s invocation.command).run t'
      | .error _ => (.brokenOff, t) := by
  have hload : (loadSettings read (FileTree.machine here date input) invocation.settingsPath).run t =
      (.ok s, t) := by rw [run_loadSettings, hs]
  rw [run, hargs]
  change StateT.run (loadSettings read _ invocation.settingsPath >>= _) t = _
  rw [StateT.run_bind, hload]
  change StateT.run (openLog _ s >>= _) t = _
  rw [StateT.run_bind, run_openLog]
  cases withLog t here date s <;> rfl

/-! ## Tokens -/

/-- Prompts do not show in a list of tokens. -/
theorem listTokens_prompts (bytes : Bytes) (options : Options) (prompts : Prompts) :
    (listTokens (start (.ofLines bytes) options)).output =
        (listTokens (start (.ofLines bytes) { options with prompts })).output ∧
      (listTokens (start (.ofLines bytes) options)).code =
        (listTokens (start (.ofLines bytes) { options with prompts })).code := by
  have hflow : (Source.ofLines bytes).flow.2 ≠ .interrupted := by
    rw [Source.delivers_ofLines bytes]
    exact nofun
  exact listTokens_of_match Input.indistinct_prompted (match_prompts hflow options prompts) rfl

/-- **Tokens are listed alike.** For every file with some bytes, a run on this file and a run to
    which the same bytes are piped write the same, logged lines apart, and end with the same exit
    code, whatever way documents are read. If the log goes to a file that cannot be opened, they
    write nothing and end with code 101. Otherwise, unless a line begins beyond the last column,
    they write a line for each token of the run of the lexer, in order, up to and including the
    first error or end marker, and the exit code is 0 exactly if there is no error token. What
    prompts are set is all the same. -/
theorem run_tokens (input : Bytes)
    (hargs : Invocation.ofArguments args = .ok ⟨.tokens (some path), settingsPath⟩)
    (hargs' : Invocation.ofArguments args' = .ok ⟨.tokens none, settingsPath⟩)
    (hfile : t.look here path = .ok (.file bytes))
    (hs : ((loadSettings read (FileTree.machine here date bytes) settingsPath).run t).1 = .ok s) :
    let filed := ((run read (FileTree.machine here date input) args).run t).1
    let piped := ((run read (FileTree.machine here date bytes) args').run t).1
    filed.output = piped.output ∧ filed.code = piped.code ∧
      match withLog t here date s with
      | .error _ => piped.output = "" ∧ piped.code = 101
      | .ok _ => ∀ prompts,
        let l := start (.ofLines bytes) { s.lexerOptions with prompts }
        Unbroken l l.run →
          piped.output = String.join ((upToEnd l.tokens).map tokenLine) ∧
          piped.code = if ∀ t ∈ l.tokens, t.kind ≠ .error then 0 else 1 := by
  intro filed piped
  have hfiled : filed = _ := congrArg Prod.fst (run_of_settings hargs hs)
  have hpiped : piped = _ := congrArg Prod.fst (run_of_settings hargs' hs)
  cases hlog : withLog t here date s with
  | error e =>
    rw [hlog] at hfiled hpiped
    rw [hfiled, hpiped]
    exact ⟨rfl, rfl, rfl, rfl⟩
  | ok t' =>
    rw [hlog] at hfiled hpiped
    rw [hfiled, hpiped]
    dsimp only
    rw [obey_file ((extends_withLog hlog).look hfile), obey_input]
    -- a file is listed like an input without prompts
    obtain ⟨houtput, hcode⟩ := listTokens_prompts bytes s.lexerOptions {}
    refine ⟨houtput.symm, hcode.symm, fun prompts hunbroken => ?_⟩
    obtain ⟨houtput, hcode⟩ := listTokens_prompts bytes s.lexerOptions prompts
    obtain ⟨hlines, hend⟩ := listTokens_ofLines bytes { s.lexerOptions with prompts } hunbroken
    exact ⟨houtput.trans hlines, hcode.trans hend⟩

/-- A text whose second line has a quote that is not closed. -/
def openQuote : Bytes :=
  Bytes.ofString "a\n'b\n"

/-- Settings with a prompt. -/
def prompted : Settings where
  lexer := { firstPrompt := some "> " }
  log := { filter := some "off" }

/-- A tree with both. -/
def promptedTree : FileTree where
  files :=
    [(["coil.toml"], Bytes.ofString "[tokenizer]\nps1='> '\n[logging]\nfilter='off'\n"),
      (["f"], openQuote)]

theorem run_tokens_of_prompted :
    let filed := ((run Toml.read? (FileTree.machine [] "2024-02-29" []) ["tokens", "f"]).run promptedTree).1
    let piped := ((run Toml.read? (FileTree.machine [] "2024-02-29" openQuote) ["tokens"]).run promptedTree).1
    filed.output = piped.output ∧ filed.code = piped.code ∧
      piped.output = "1: NAME(a)\n1: NEWLINE\n2: ERRORTOKEN\n" ∧ piped.code = 1 := by
  have hargs : Invocation.ofArguments ["tokens", "f"] = .ok ⟨.tokens (some "f"), none⟩ := by cbv
  have hargs' : Invocation.ofArguments ["tokens"] = .ok ⟨.tokens none, none⟩ := by cbv
  have hfile : promptedTree.look [] "f" = .ok (.file openQuote) := by cbv
  have hs : ((loadSettings Toml.read? (FileTree.machine [] "2024-02-29" openQuote) none).run promptedTree).1 =
      .ok prompted := by cbv
  have hlog : withLog promptedTree [] "2024-02-29" prompted = .ok promptedTree := by cbv
  have htokens : (start (.ofLines openQuote) prompted.lexerOptions).tokens =
      [⟨.name, "a", 1⟩, ⟨.newline, "", 1⟩, ⟨.error, "'b\n", 2⟩, ⟨.endMarker, "", 2⟩] := by cbv
  have hsize : (Source.ofLines openQuote).size * max (max 1 prompted.lexerOptions.tabSize.toNat)
      TabDirective.largest < 2 ^ 64 := by decide
  obtain ⟨houtput, hcode, hpiped⟩ := run_tokens [] hargs hargs' hfile hs
  rw [hlog] at hpiped
  obtain ⟨hlines, hend⟩ := hpiped prompted.lexerOptions.prompts (unbroken_of_size hsize)
  rw [htokens] at hlines hend
  refine ⟨houtput, hcode, hlines.trans ?_, hend.trans ?_⟩
  · cbv
  · decide

/-- A text without an error. -/
def oneName : Bytes :=
  Bytes.ofString "a\n"

/-- Settings by which nothing is logged, although the log goes to a file. -/
def mutedLog : Settings where
  log := { filter := some "off", output := "file" }

/-- A tree with these settings, and with a file where the directory for the log would be made. -/
def mutedTree : FileTree where
  files :=
    [(["coil.toml"], Bytes.ofString "[logging]\nfilter='off'\noutput='file'\n"), (["logs"], [])]

/-- The text is not listed, and the exit code is not 0. -/
theorem tokens_not_listed :
    let piped := ((run Toml.read? (FileTree.machine [] "2024-02-29" oneName) ["tokens"]).run mutedTree).1
    let tokens := (start (.ofLines oneName) mutedLog.lexerOptions).tokens
    ((loadSettings Toml.read? (FileTree.machine [] "2024-02-29" oneName) none).run mutedTree).1 =
        .ok mutedLog ∧
      (∀ t ∈ tokens, t.kind ≠ .error) ∧
      piped.output ≠ String.join ((upToEnd tokens).map tokenLine) ∧ piped.code ≠ 0 := by
  have hs : ((loadSettings Toml.read? (FileTree.machine [] "2024-02-29" oneName) none).run mutedTree).1 =
      .ok mutedLog := by cbv
  have htokens : (start (.ofLines oneName) mutedLog.lexerOptions).tokens =
      [⟨.name, "a", 1⟩, ⟨.newline, "", 1⟩, ⟨.endMarker, "", 2⟩] := by cbv
  have herror : ∀ t ∈ (start (.ofLines oneName) mutedLog.lexerOptions).tokens,
      t.kind ≠ .error := by
    rw [htokens]
    decide
  have hlines : String.join ((upToEnd
      (start (.ofLines oneName) mutedLog.lexerOptions).tokens).map tokenLine) =
        "1: NAME(a)\n1: NEWLINE\n2: ENDMARKER\n" := by
    rw [htokens]
    cbv
  have hargs : Invocation.ofArguments ["tokens"] = .ok ⟨.tokens none, none⟩ := by cbv
  have hlog : withLog mutedTree [] "2024-02-29" mutedLog = .error .notDirectory := by cbv
  have hrun : (run Toml.read? (FileTree.machine [] "2024-02-29" oneName) ["tokens"]).run mutedTree = _ :=
    run_of_settings hargs hs
  rw [hlog] at hrun
  refine ⟨hs, herror, ?_, ?_⟩
  · rw [hrun, hlines]
    decide
  · rw [hrun]
    decide

end ScriptCore.CommandLine
