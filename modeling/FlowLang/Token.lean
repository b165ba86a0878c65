import FlowLang.Decimal.Layout
import FlowLang.Decimal.Numeral
import FlowLang.Text.Quoted

/-!
# Tokens

A token is a lexeme with the number of the line on which it starts. A lexeme is a literal, a name,
one of six keywords, or one of the symbols.

* `Keyword.ofWord?` and `Symbol.ofPair?`, `Symbol.ofChar?` read a keyword or a symbol.
* `Lexeme.describe` names a lexeme in a message.

A `Lexeme` renders `TokenKind`, with keywords and symbols as types of their own. The three functions
read the tables `KEYWORDS`, `TWO_SYMBOLS_TOKENS` and `ONE_SYMBOL_TOKENS`.
-/

namespace FlowLang

/-- The words that are no names. -/
inductive Keyword where
  | num | str | print | loop | condition | alternative
  deriving DecidableEq

namespace Keyword

/-- The keyword as it stands in a source. -/
def spelling : Keyword → String
  | .num => "num"
  | .str => "str"
  | .print => "print"
  | .loop => "while"
  | .condition => "if"
  | .alternative => "else"

/-- The keyword's name in messages. -/
def title : Keyword → String
  | .num => "Num"
  | .str => "Str"
  | .print => "Print"
  | .loop => "While"
  | .condition => "If"
  | .alternative => "Else"

def all : List Keyword := [.num, .str, .print, .loop, .condition, .alternative]

/-- The keyword that a word spells. -/
def ofWord? (word : String) : Option Keyword := all.find? (·.spelling = word)

end Keyword

/-- Operators and punctuation. -/
inductive Symbol where
  | plus | minus | star | slash
  | openParen | closeParen | openBrace | closeBrace | semicolon | assign
  | less | lessEqual | greater | greaterEqual | equal | notEqual
  | both | either | bang | increment | decrement
  deriving DecidableEq

namespace Symbol

/-- The symbol of two characters. -/
def ofPair? : Char → Char → Option Symbol
  | '=', '=' => some .equal
  | '!', '=' => some .notEqual
  | '<', '=' => some .lessEqual
  | '>', '=' => some .greaterEqual
  | '&', '&' => some .both
  | '|', '|' => some .either
  | '+', '+' => some .increment
  | '-', '-' => some .decrement
  | _, _ => none

/-- The symbol of one character. -/
def ofChar? : Char → Option Symbol
  | '+' => some .plus
  | '-' => some .minus
  | '*' => some .star
  | '/' => some .slash
  | '(' => some .openParen
  | ')' => some .closeParen
  | '\x7b' => some .openBrace
  | '\x7d' => some .closeBrace
  | ';' => some .semicolon
  | '=' => some .assign
  | '<' => some .less
  | '>' => some .greater
  | '!' => some .bang
  | _ => none

/-- The symbol's name in messages. -/
def title : Symbol → String
  | .plus => "Plus"
  | .minus => "Minus"
  | .star => "Star"
  | .slash => "Slash"
  | .openParen => "OpenParen"
  | .closeParen => "CloseParen"
  | .openBrace => "OpenCurlyBrace"
  | .closeBrace => "CloseCurlyBrace"
  | .semicolon => "SemiColon"
  | .assign => "Equal"
  | .less => "LessThan"
  | .lessEqual => "LessEqual"
  | .greater => "GreaterThan"
  | .greaterEqual => "GreaterEqual"
  | .equal => "DoubleEqual"
  | .notEqual => "NotEqual"
  | .both => "DoubleAmpersand"
  | .either => "DoublePipe"
  | .bang => "Exclamation"
  | .increment => "Increment"
  | .decrement => "Decrement"

end Symbol

/-- The smallest units of a source that mean something. -/
inductive Lexeme where
  | integer (n : Int)
  | real (x : Binary64)
  | text (s : String)
  | name (s : String)
  | keyword (k : Keyword)
  | symbol (s : Symbol)
  deriving DecidableEq

namespace Lexeme

/-- The lexeme of a numeral. -/
def ofNumeral : Numeral → Lexeme
  | .integer n => .integer n
  | .real x => .real x

/-- A word is a keyword or else a name. -/
def ofWord (word : String) : Lexeme :=
  match Keyword.ofWord? word with
  | some k => .keyword k
  | none => .name word

/-- How a message names the lexeme. -/
def describe : Lexeme → String
  | .integer n => s!"IntLit({n})"
  | .real x => s!"FloatLit({x.text .marked})"
  | .text s => s!"StrLit({Text.quoted s})"
  | .name s => s!"Ident({Text.quoted s})"
  | .keyword k => k.title
  | .symbol s => s.title

end Lexeme

/-- A lexeme and the line on which it starts. -/
structure Token where
  lexeme : Lexeme
  line : Nat
  deriving DecidableEq

end FlowLang
