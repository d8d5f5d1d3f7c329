import ScriptCore.Utf8

/-!
# Tokens

The kinds of token, their numbers in grammar tables, and the token as the
lexer hands it out. Kinds are numbered from 0 in the order of their names
below; the symbols of grammar rules are numbered from `firstRule` on.
-/

namespace ScriptCore

namespace Token

/-- The kinds of token. -/
inductive Kind
  | endMarker
  | name
  | number
  | string
  | newline
  | indent
  | dedent
  | leftParen
  | rightParen
  | leftBracket
  | rightBracket
  | colon
  | comma
  | semicolon
  | plus
  | minus
  | star
  | slash
  | bar
  | ampersand
  | less
  | greater
  | equal
  | dot
  | percent
  | backquote
  | leftBrace
  | rightBrace
  | operator
  | error
  deriving DecidableEq, Repr

/-- The number of the first grammar rule: every kind has a smaller one. -/
def firstRule : Int := 256

namespace Kind

/-- Every kind, in the order of their numbers. -/
def all : List Kind :=
  [.endMarker, .name, .number, .string, .newline, .indent, .dedent, .leftParen, .rightParen,
    .leftBracket, .rightBracket, .colon, .comma, .semicolon, .plus, .minus, .star, .slash, .bar,
    .ampersand, .less, .greater, .equal, .dot, .percent, .backquote, .leftBrace, .rightBrace,
    .operator, .error]

/-- The number of a kind in grammar tables. -/
def code (k : Kind) : Nat :=
  k.ctorIdx

/-- The kind of a number. -/
def ofCode? (n : Int) : Option Kind :=
  if 0 ≤ n then all[n.toNat]? else none

/-- The name of a kind, by which it is shown. -/
def label : Kind → String
  | endMarker => "ENDMARKER"
  | name => "NAME"
  | number => "NUMBER"
  | string => "STRING"
  | newline => "NEWLINE"
  | indent => "INDENT"
  | dedent => "DEDENT"
  | leftParen => "LPAR"
  | rightParen => "RPAR"
  | leftBracket => "LSQB"
  | rightBracket => "RSQB"
  | colon => "COLON"
  | comma => "COMMA"
  | semicolon => "SEMI"
  | plus => "PLUS"
  | minus => "MINUS"
  | star => "STAR"
  | slash => "SLASH"
  | bar => "VBAR"
  | ampersand => "AMPER"
  | less => "LESS"
  | greater => "GREATER"
  | equal => "EQUAL"
  | dot => "DOT"
  | percent => "PERCENT"
  | backquote => "BACKQUOTE"
  | leftBrace => "LBRACE"
  | rightBrace => "RBRACE"
  | operator => "OP"
  | error => "ERRORTOKEN"

/-- Whether the text of a token says more than its kind. -/
def hasText : Kind → Bool
  | name | number | string | operator => true
  | _ => false

/-- The characters that are tokens by themselves, with their kinds. -/
def punctuation : List (Char × Kind) :=
  [('(', leftParen), (')', rightParen), ('[', leftBracket), (']', rightBracket), (':', colon),
    (',', comma), (';', semicolon), ('+', plus), ('-', minus), ('*', star), ('/', slash),
    ('|', bar), ('&', ampersand), ('<', less), ('>', greater), ('=', equal), ('.', dot),
    ('%', percent), ('\x60', backquote), ('\x7b', leftBrace), ('\x7d', rightBrace)]

/-- The kind of a byte that is a token by itself. -/
def ofByte (b : UInt8) : Kind :=
  match punctuation.find? (·.1.toUInt8 == b) with
  | some (_, k) => k
  | none => operator

theorem ofCode?_code (k : Kind) : ofCode? k.code = some k := by
  cases k <;> rfl

end Kind

end Token

/-- A token: its kind, the text it was read from, and the line it stands on. -/
structure Token where
  kind : Token.Kind
  text : String
  line : Nat
  deriving DecidableEq, Repr

/-- How a token is shown. -/
def Token.render (t : Token) : String :=
  if t.kind.hasText then t.kind.label ++ "(" ++ t.text ++ ")" else t.kind.label

end ScriptCore
