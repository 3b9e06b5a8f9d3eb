import FlowCheck.Location
import FlowCheck.Number.Binary64

/-! # Tokens

The words of Flow. -/

namespace FlowCheck.Flow

/-- The words and signs with one spelling. -/
inductive Symbol where
  | keywordFn | keywordRef | keywordTrue | keywordFalse | keywordNull
  | leftParen | rightParen | comma | colon | semicolon | dot | question
  | less | greater | lessEqual | greaterEqual | equal | notEqual
  | plus | minus | star | slash | percent | bang | and | or
  | fatArrow | arrow
  deriving DecidableEq, Repr, Inhabited

/-- How a symbol is spelled. -/
def Symbol.text : Symbol → String
  | .keywordFn => "fn"
  | .keywordRef => "ref"
  | .keywordTrue => "true"
  | .keywordFalse => "false"
  | .keywordNull => "null"
  | .leftParen => "("
  | .rightParen => ")"
  | .comma => ","
  | .colon => ":"
  | .semicolon => ";"
  | .dot => "."
  | .question => "?"
  | .less => "<"
  | .greater => ">"
  | .lessEqual => "<="
  | .greaterEqual => ">="
  | .equal => "=="
  | .notEqual => "!="
  | .plus => "+"
  | .minus => "-"
  | .star => "*"
  | .slash => "/"
  | .percent => "%"
  | .bang => "!"
  | .and => "&&"
  | .or => "||"
  | .fatArrow => "=>"
  | .arrow => "->"

/-- What a token is. -/
inductive TokenKind where
  | identifier (name : String)
  | int (value : Nat)
  | float (value : Binary64)
  | string (value : String)
  | symbol (symbol : Symbol)
  | endOfFile
  deriving DecidableEq, Repr, Inhabited

/-- How a token is named in a message. -/
def TokenKind.describe : TokenKind → String
  | .identifier name => name
  | .int value => Text.Numeral.text value
  | .float value => String.ofList value.text
  | .string value => "\"" ++ value ++ "\""
  | .symbol s => s.text
  | .endOfFile => "end of file"

/-- A token and the places where it starts and where the text goes on after it. What is missing at a token
is reported at `anchor`: at its start, or, when it starts on a later line than the token before it ended on,
at the end of that token. -/
structure Token where
  kind : TokenKind
  start : Location
  stop : Location
  anchor : Location
  deriving DecidableEq, Repr, Inhabited

/-- The token that a text without tokens ends with. -/
def Token.atStart : Token := ⟨.endOfFile, .start, .start, .start⟩

end FlowCheck.Flow
