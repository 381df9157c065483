import Scriptlet.Number.Text
import Scriptlet.Text.Json

/-!
# Tokens

A token is a kind, the text it was read from and the line on which that text ends. Kinds are the
`Symbol`s, which have a fixed meaning (punctuation, operators, keywords, a name, the end of the text),
and the two literals, which carry their value. Two tokens are `alike` when they have the same sort of
kind, whatever value it carries, the same text and the same line.

Tokens are listed in two forms: `Token.listing`, a line of plain text, and `Token.toJson`.
-/

namespace Scriptlet

/-- A kind of token that carries no value. -/
inductive Symbol where
  | leftParen | rightParen | leftBrace | rightBrace
  | comma | dot | minus | plus | semicolon | slash | star
  | bang | bangEqual | equal | equalEqual
  | greater | greaterEqual | less | lessEqual
  | ampersand | ampersandAmpersand | pipe | pipePipe
  | identifier
  | classKw | constKw | elseKw | falseKw | forKw | functionKw | ifKw | nullKw | newKw | returnKw
  | undefinedKw | superKw | thisKw | trueKw | letKw | whileKw | moduleKw | usingKw | extendsKw
  | implementsKw
  | endOfText
deriving DecidableEq

namespace Symbol

/-- The name of a symbol in token listings. -/
def name : Symbol → String
  | leftParen => "LEFT_PAREN"
  | rightParen => "RIGHT_PAREN"
  | leftBrace => "LEFT_BRACE"
  | rightBrace => "RIGHT_BRACE"
  | comma => "COMMA"
  | dot => "DOT"
  | minus => "MINUS"
  | plus => "PLUS"
  | semicolon => "SEMICOLON"
  | slash => "SLASH"
  | star => "STAR"
  | bang => "BANG"
  | bangEqual => "BANG_EQUAL"
  | equal => "EQUAL"
  | equalEqual => "EQUAL_EQUAL"
  | greater => "GREATER"
  | greaterEqual => "GREATER_EQUAL"
  | less => "LESS"
  | lessEqual => "LESS_EQUAL"
  | ampersand => "AMPERSAND"
  | ampersandAmpersand => "AMPERSAND_AMPERSAND"
  | pipe => "PIPE"
  | pipePipe => "PIPE_PIPE"
  | identifier => "IDENTIFIER"
  | classKw => "CLASS"
  | constKw => "CONST"
  | elseKw => "ELSE"
  | falseKw => "FALSE"
  | forKw => "FOR"
  | functionKw => "FUNCTION"
  | ifKw => "IF"
  | nullKw => "NULL"
  | newKw => "NEW"
  | returnKw => "RETURN"
  | undefinedKw => "UNDEFINED"
  | superKw => "SUPER"
  | thisKw => "THIS"
  | trueKw => "TRUE"
  | letKw => "LET"
  | whileKw => "WHILE"
  | moduleKw => "MODULE"
  | usingKw => "USING"
  | extendsKw => "EXTENDS"
  | implementsKw => "IMPLEMENTS"
  | endOfText => "EOF"

/-- Every symbol. -/
def all : List Symbol :=
  [leftParen, rightParen, leftBrace, rightBrace, comma, dot, minus, plus, semicolon, slash, star,
   bang, bangEqual, equal, equalEqual, greater, greaterEqual, less, lessEqual, ampersand,
   ampersandAmpersand, pipe, pipePipe, identifier, classKw, constKw, elseKw, falseKw, forKw,
   functionKw, ifKw, nullKw, newKw, returnKw, undefinedKw, superKw, thisKw, trueKw, letKw, whileKw,
   moduleKw, usingKw, extendsKw, implementsKw, endOfText]

/-- The words with a meaning of their own. -/
def keywords : List (String × Symbol) :=
  [("class", classKw), ("const", constKw), ("else", elseKw), ("false", falseKw), ("for", forKw),
   ("function", functionKw), ("if", ifKw), ("null", nullKw), ("new", newKw), ("return", returnKw),
   ("undefined", undefinedKw), ("super", superKw), ("this", thisKw), ("true", trueKw),
   ("let", letKw), ("while", whileKw), ("module", moduleKw), ("using", usingKw),
   ("extends", extendsKw), ("implements", implementsKw)]

/-- The symbol of a word: a keyword or a name. -/
def ofWord (word : String) : Symbol := (keywords.lookup word).getD identifier

end Symbol

/-- What a token is. -/
inductive TokenKind where
  | symbol (s : Symbol)
  | string (value : String)
  | number (value : Number)
deriving DecidableEq

namespace TokenKind

/-- The name of a kind in token listings. -/
def name : TokenKind → String
  | symbol s => s.name
  | string _ => "STRING"
  | number _ => "NUMBER"

/-- The same sort of kind, whatever value it carries. -/
def sameSort : TokenKind → TokenKind → Bool
  | symbol s, symbol t => s = t
  | string _, string _ => true
  | number _, number _ => true
  | _, _ => false

/-- The value a kind carries, as listed. -/
def literalText : TokenKind → String
  | symbol _ => "null"
  | string value => value
  | number value => value.literalText

def toJson : TokenKind → Json
  | symbol s => .string s.name
  | string value => .object [("STRING", .string value)]
  | number value => .object [("NUMBER", .atom value.jsonText)]

end TokenKind

/-- A token: its kind, its text, and the line on which the text ends. -/
structure Token where
  kind : TokenKind
  lexeme : String
  line : Nat
deriving DecidableEq

namespace Token

/-- The token is the symbol `s`. -/
def is (t : Token) (s : Symbol) : Bool := t.kind = .symbol s

/-- The same sort of kind, text and line. -/
def alike (t u : Token) : Bool :=
  t.kind.sameSort u.kind && t.lexeme == u.lexeme && t.line == u.line

/-- The line of a token listing: the name of the kind, the text and the value. -/
def listing (t : Token) : String := t.kind.name ++ " " ++ t.lexeme ++ " " ++ t.kind.literalText

def toJson (t : Token) : Json :=
  .object [("token_type", t.kind.toJson), ("lexeme", .string t.lexeme),
    ("line", .atom (toString t.line))]

/-- Where a token stands, as reports say it. -/
def place (t : Token) : String :=
  if t.is .endOfText then " at end" else " at '" ++ t.lexeme ++ "'"

end Token

end Scriptlet
