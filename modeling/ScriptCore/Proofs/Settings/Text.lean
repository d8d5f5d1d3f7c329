import Mathlib
import ScriptCore.Proofs.Settings
import ScriptCore.Proofs.Toml

/-!
# Writing and reading settings

Settings that were read are read back from the text that they are written as, whatever the text
that they were read from gave, left out or added. This holds for every way to read documents that
gives a document back from its text (`Toml.IsReader`); `Toml.read?` is one.

* `Settings.ofToml?_toToml`: settings are read back from their document.
* `Settings.isWritable_toToml`: their document has a text, if the sizes have 64 bits.
* `Settings.ofTextBy_toText`: settings that were read are read back.
-/

namespace ScriptCore

/-- What is relied on where documents are read: a document is read back from its text, and the
    integers in its tables have 64 bits. -/
structure Toml.IsReader (read : String → Option Toml) : Prop where
  read_render : ∀ t : Toml, t.IsWritable → read t.render = some t
  fits : ∀ text t, read text = some t → t.Fits

theorem Toml.isReader_read? : IsReader read? where
  read_render _ := read?_render
  fits _ _ := fits_of_read?

namespace Settings

/-! ## Reading sections back -/

theorem LexerSection.ofEntries?_toEntries (s : LexerSection) : ofEntries? s.toEntries = some s := by
  obtain ⟨tabSize, maxIndent, firstPrompt, laterPrompt⟩ := s
  cases firstPrompt <;> cases laterPrompt <;> rfl

theorem GrammarSection.ofEntries?_toEntries (s : GrammarSection) :
    ofEntries? s.toEntries = some s :=
  rfl

theorem LogSection.ofEntries?_toEntries (s : LogSection) : ofEntries? s.toEntries = some s := by
  obtain ⟨level, format, output, directory, stem, filter, spanEvents⟩ := s
  cases filter <;> rfl

/-- Settings are read back from their document. -/
theorem ofToml?_toToml (s : Settings) : ofToml? s.toToml = some s := by
  have hlexer : s.toToml.table? "tokenizer" = some s.lexer.toEntries := rfl
  have hgrammar : s.toToml.table? "grammar" = some s.grammar.toEntries := rfl
  have hlog : s.toToml.table? "logging" = some s.log.toEntries := rfl
  rw [ofToml?, hlexer, hgrammar, hlog]
  simp only [Option.bind_eq_bind, Option.bind_some, LexerSection.ofEntries?_toEntries,
    GrammarSection.ofEntries?_toEntries, LogSection.ofEntries?_toEntries]
  rfl

/-! ## Writing sections -/

/-- Entries can stand under one header if their keys are some of different names, in this
    order. -/
theorem isWritable_of_keys {es : Toml.Entries} (keys : List String)
    (hkeys : (es.map (·.1)).Sublist keys) (hnodup : keys.Nodup)
    (hnames : ∀ key ∈ keys, Toml.IsName key) (hvalues : ∀ e ∈ es, e.2.IsWritable) :
    (es.map (·.1)).Nodup ∧ Toml.Entries.IsWritable es :=
  ⟨hkeys.nodup hnodup, fun e he =>
    ⟨hnames e.1 (hkeys.subset (List.mem_map_of_mem he)), hvalues e he⟩⟩

theorem keys_optionalEntry (key : String) (value : Option String) :
    ((optionalEntry key value).map (·.1)).Sublist [key] := by
  cases value with
  | none => exact List.nil_sublist _
  | some s => exact List.Sublist.refl _

theorem isWritable_of_mem_optionalEntry {key : String} {value : Option String} :
    ∀ e ∈ optionalEntry key value, e.2.IsWritable := by
  cases value with
  | none => exact List.forall_mem_nil _
  | some s => exact List.forall_mem_singleton.2 (.text s)

theorem isWritable_natCast {n : Nat} (hn : n < 2 ^ 63) : Toml.Value.IsWritable (.integer n) := by
  have hmin : Int64.minValue.toInt = -2 ^ 63 := rfl
  have hmax : Int64.maxValue.toInt = 2 ^ 63 - 1 := rfl
  exact .integer ⟨by omega, by omega⟩

theorem LexerSection.isWritable_toEntries {s : LexerSection} (htab : s.tabSize < 2 ^ 63)
    (hindent : s.maxIndent < 2 ^ 63) :
    (s.toEntries.map (·.1)).Nodup ∧ Toml.Entries.IsWritable s.toEntries := by
  apply isWritable_of_keys (["tab_size", "max_indent"] ++ ["ps1"] ++ ["ps2"])
  · rw [toEntries, List.map_append, List.map_append]
    exact ((List.Sublist.refl _).append (keys_optionalEntry _ _)).append (keys_optionalEntry _ _)
  · decide
  · simp [Toml.IsName, Toml.isKeyChar]
  · simp only [toEntries, List.forall_mem_append, List.forall_mem_cons]
    exact ⟨⟨⟨isWritable_natCast htab, isWritable_natCast hindent, List.forall_mem_nil _⟩,
      isWritable_of_mem_optionalEntry⟩, isWritable_of_mem_optionalEntry⟩

theorem GrammarSection.isWritable_toEntries (s : GrammarSection) :
    (s.toEntries.map (·.1)).Nodup ∧ Toml.Entries.IsWritable s.toEntries := by
  apply isWritable_of_keys ["report_left_recursion"]
  · exact List.Sublist.refl _
  · decide
  · simp [Toml.IsName, Toml.isKeyChar]
  · exact List.forall_mem_singleton.2 (.truth _)

theorem LogSection.isWritable_toEntries (s : LogSection) :
    (s.toEntries.map (·.1)).Nodup ∧ Toml.Entries.IsWritable s.toEntries := by
  apply isWritable_of_keys
    (["level", "format", "output", "directory", "prefix"] ++ ["filter"] ++ ["span_events"])
  · rw [toEntries, List.map_append, List.map_append]
    exact ((List.Sublist.refl _).append (keys_optionalEntry _ _)).append (List.Sublist.refl _)
  · decide
  · simp [Toml.IsName, Toml.isKeyChar]
  · simp only [toEntries, List.forall_mem_append, List.forall_mem_cons]
    exact ⟨⟨⟨.text _, .text _, .text _, .text _, .text _, List.forall_mem_nil _⟩,
      isWritable_of_mem_optionalEntry⟩, .truth _, List.forall_mem_nil _⟩

/-- The document of settings has a text, if the sizes have 64 bits. -/
theorem isWritable_toToml {s : Settings} (htab : s.lexer.tabSize < 2 ^ 63)
    (hindent : s.lexer.maxIndent < 2 ^ 63) : s.toToml.IsWritable := by
  obtain ⟨hlexer, hlexer'⟩ := LexerSection.isWritable_toEntries htab hindent
  obtain ⟨hgrammar, hgrammar'⟩ := s.grammar.isWritable_toEntries
  obtain ⟨hlog, hlog'⟩ := s.log.isWritable_toEntries
  have hnames : ["tokenizer", "grammar", "logging"].Nodup := by decide
  have hname : ∀ name ∈ ["tokenizer", "grammar", "logging"], Toml.IsName name := by
    simp [Toml.IsName, Toml.isKeyChar]
  refine ⟨⟨hnames, ?_⟩, List.forall_mem_nil _, ?_⟩
  · exact List.forall_mem_cons.2 ⟨hlexer, List.forall_mem_cons.2
      ⟨hgrammar, List.forall_mem_singleton.2 hlog⟩⟩
  · exact List.forall_mem_cons.2 ⟨⟨hname _ (by simp), hlexer'⟩, List.forall_mem_cons.2
      ⟨⟨hname _ (by simp), hgrammar'⟩, List.forall_mem_singleton.2 ⟨hname _ (by simp), hlog'⟩⟩⟩

/-! ## Texts of settings -/

variable {read : String → Option Toml} {text : String} {s : Settings}

/-- Settings that mean something are read back from their text, if the sizes have 64 bits. -/
theorem ofTextBy_of_validate (hread : Toml.IsReader read) (hvalid : s.validate = .ok ())
    (htab : s.lexer.tabSize < 2 ^ 63) (hindent : s.lexer.maxIndent < 2 ^ 63) :
    ofTextBy read s.toText = .ok s :=
  ofTextBy_eq_ok_iff.2 ⟨⟨s.toToml, hread.read_render _ (isWritable_toToml htab hindent),
    ofToml?_toToml s⟩, hvalid⟩

/-- The text of the defaults, for one. -/
example : ofText (toText {}) = .ok {} :=
  ofTextBy_of_validate Toml.isReader_read? (by cbv) (by decide) (by decide)

/-- **Settings are read back.** Settings that were read from any text are read back from the text
    that they are written as. -/
theorem ofTextBy_toText (hread : Toml.IsReader read) (h : ofTextBy read text = .ok s) :
    ofTextBy read s.toText = .ok s := by
  obtain ⟨⟨-, htab⟩, -, hindent⟩ := sizes_of_ofTextBy hread.fits h
  exact ofTextBy_of_validate hread (ofTextBy_eq_ok_iff.1 h).2 htab hindent

/-- A text with a table and a key that no setting has, and without most of those that there are. -/
def sampleText : String :=
  "# for lessons\n[editor]\nfont = \"mono\"\n\n[tokenizer]\n  ps1 = '>>> ' # first lines\n" ++
    "tab_size = 0x4\ncolour = true\n\n[logging]\nlevel = \"DEBUG\"\n"

@[inherit_doc sampleText]
def sample : Settings where
  lexer := { tabSize := 4, firstPrompt := some ">>> " }
  log := { level := "DEBUG" }

theorem ofTextBy_toText_of_sample :
    ofText sampleText = .ok sample ∧ ofText sample.toText = .ok sample := by
  have h : ofText sampleText = .ok sample := by cbv
  exact ⟨h, ofTextBy_toText Toml.isReader_read? h⟩

end Settings

end ScriptCore
