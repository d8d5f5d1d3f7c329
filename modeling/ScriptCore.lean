import ScriptCore.Quoted
import ScriptCore.NameMap
import ScriptCore.Lexer
import ScriptCore.Lexer.Scanner
import ScriptCore.Object.Session
import ScriptCore.Grammar.Builder
import ScriptCore.Grammar.First
import ScriptCore.Grammar.Json
import ScriptCore.Grammar.Tables
import ScriptCore.Settings.Text
import ScriptCore.CommandLine.FileTree
import ScriptCore.CommandLine
import ScriptCore.Main
import ScriptCore.Proofs.NameMap
import ScriptCore.Proofs.Object.Account
import ScriptCore.Proofs.Object.Sound
import ScriptCore.Proofs.Object.Call
import ScriptCore.Proofs.Object.Session
import ScriptCore.Proofs.Object.Cycle
import ScriptCore.Proofs.Object.Lookup
import ScriptCore.Proofs.Object.Failure
import ScriptCore.Proofs.Object.Frame
import ScriptCore.Proofs.Object.Entry
import ScriptCore.Proofs.Object.Member
import ScriptCore.Proofs.Object.Order
import ScriptCore.Proofs.Object.Dispatch
import ScriptCore.Proofs.Object.Integer
import ScriptCore.Proofs.Object.Sequence
import ScriptCore.Proofs.Object.Keys
import ScriptCore.Proofs.Json.Values
import ScriptCore.Proofs.Json.Text
import ScriptCore.Proofs.Grammar.Json
import ScriptCore.Proofs.BitSet
import ScriptCore.Proofs.BitSet.Members
import ScriptCore.Proofs.BitSet.Merge
import ScriptCore.Proofs.Grammar.Builder
import ScriptCore.Proofs.Grammar.Survey
import ScriptCore.Proofs.Grammar.First
import ScriptCore.Proofs.Grammar.LeftRecursion
import ScriptCore.Proofs.Grammar.Tables
import ScriptCore.Proofs.Grammar.Room
import ScriptCore.Proofs.Grammar.Failure
import ScriptCore.Proofs.Lexer.Indentation
import ScriptCore.Proofs.Lexer.Reads
import ScriptCore.Proofs.Lexer.Lexemes
import ScriptCore.Proofs.Lexer.Languages
import ScriptCore.Proofs.Lexer.LongestMatch
import ScriptCore.Proofs.Lexer.Errors
import ScriptCore.Proofs.Lexer.Lines
import ScriptCore.Proofs.Lexer.Balance
import ScriptCore.Proofs.Lexer.Recovery
import ScriptCore.Proofs.Lexer.Wording
import ScriptCore.Proofs.Quoted
import ScriptCore.Proofs.Lexer.Coming
import ScriptCore.Proofs.Lexer.Interrupts
import ScriptCore.Proofs.Lexer.Length
import ScriptCore.Proofs.Object.Texts
import ScriptCore.Proofs.Object.Rendering
import ScriptCore.Proofs.Object.Printing
import ScriptCore.Proofs.Lexer.TabDirective
import ScriptCore.Proofs.Lexer.LineNumbers
import ScriptCore.Proofs.Lexer.Dialogue
import ScriptCore.Proofs.Lexer.Returns
import ScriptCore.Proofs.Lexer.Scanner
import ScriptCore.Proofs.Settings
import ScriptCore.Proofs.Lexer.Columns
import ScriptCore.Proofs.Settings.Text
import ScriptCore.Proofs.CommandLine
