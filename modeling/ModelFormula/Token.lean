import ModelFormula.Literal

/-!
# Tokens

A token is a piece of a formula with its kind. Numbers and strings also carry the value that they
stand for.
-/
namespace ModelFormula

namespace Token

inductive Kind where
  | leftParen | rightParen | leftBracket | rightBracket | leftBrace | rightBrace
  | quotedName | comma | period | plus | minus | slash | slashSlash | star | starStar
  | bang | bangEqual | equal | equalEqual | less | lessEqual | greater | greaterEqual
  | modulo | tilde | colon | pipe | number | identifier | string | endOfFormula
deriving DecidableEq, Repr

namespace Kind

def all : List Kind :=
  [leftParen, rightParen, leftBracket, rightBracket, leftBrace, rightBrace, quotedName, comma,
    period, plus, minus, slash, slashSlash, star, starStar, bang, bangEqual, equal, equalEqual,
    less, lessEqual, greater, greaterEqual, modulo, tilde, colon, pipe, number, identifier, string,
    endOfFormula]

/-- The name under which a kind is shown. -/
def name : Kind → String
  | leftParen => "LEFT_PAREN" | rightParen => "RIGHT_PAREN"
  | leftBracket => "LEFT_BRACKET" | rightBracket => "RIGHT_BRACKET"
  | leftBrace => "LEFT_BRACE" | rightBrace => "RIGHT_BRACE"
  | quotedName => "BQNAME" | comma => "COMMA" | period => "PERIOD"
  | plus => "PLUS" | minus => "MINUS"
  | slash => "SLASH" | slashSlash => "SLASH_SLASH" | star => "STAR" | starStar => "STAR_STAR"
  | bang => "BANG" | bangEqual => "BANG_EQUAL" | equal => "EQUAL" | equalEqual => "EQUAL_EQUAL"
  | less => "LESS" | lessEqual => "LESS_EQUAL"
  | greater => "GREATER" | greaterEqual => "GREATER_EQUAL"
  | modulo => "MODULO" | tilde => "TILDE" | colon => "COLON" | pipe => "PIPE"
  | number => "NUMBER" | identifier => "IDENTIFIER" | string => "STRING" | endOfFormula => "EOF"

def ofName? (s : String) : Option Kind := all.find? (·.name == s)

end Kind

end Token

structure Token where
  kind : Token.Kind
  lexeme : String
  literal : Option Literal := none
deriving Repr

namespace Token

/-- Kind, lexeme and literal agree. -/
def same (a b : Token) : Bool :=
  a.kind == b.kind && a.lexeme == b.lexeme && a.literal == b.literal

def literalText (t : Token) : String :=
  match t.literal with
  | some l => l.plain
  | none => "None"

def text (t : Token) : String :=
  "Token(kind= " ++ t.kind.name ++ ", lexeme= " ++ t.lexeme ++ ", literal= " ++ t.literalText ++ ")"

/-- The fields in braces. -/
def recordText (t : Token) : String :=
  "\x7b'kind': " ++ t.kind.name ++ ", 'lexeme': " ++ t.lexeme ++ ", 'literal': " ++ t.literalText
    ++ "\x7d"

end Token

end ModelFormula
