import Scriptlet.Token.Basic

/-!
# From text to tokens

The text is cut into `Piece`s, one after the other and each as long as possible: a blank, a newline, a
comment, a token, a character that begins nothing, or a string that is never closed. Every piece keeps
its own text, so the texts of all pieces make up the whole source. A second pass counts lines: what a
piece yields carries the line on which the piece ends.

* `Piece.cut`: the first piece of a text that begins with a given character.
* `pieces`: all pieces of a text.
* `lex`: the tokens and lexical errors of a text, with the end of the text as last token.
-/

namespace Scriptlet

/-- A fault in the text itself. -/
inductive LexicalFault where
  | unexpected (c : Char)
  | unterminatedString
deriving DecidableEq

namespace LexicalFault

def message : LexicalFault → String
  | unexpected c => "Unexpected character '" ++ c.toString ++ "'."
  | unterminatedString => "Unterminated string."

end LexicalFault

/-- A lexical fault and its line. -/
structure LexicalError where
  line : Nat
  fault : LexicalFault
deriving DecidableEq

/-- What the lexer yields. -/
inductive LexItem where
  | token (t : Token)
  | error (e : LexicalError)
deriving DecidableEq

namespace Lexer

/-- What a piece of text is. -/
inductive PieceKind where
  | skipped
  | token (kind : TokenKind)
  | fault (fault : LexicalFault)
deriving DecidableEq

/-- A piece of the source. -/
structure Piece where
  kind : PieceKind
  text : List Char
deriving DecidableEq

def isDigit (c : Char) : Bool := '0' ≤ c && c ≤ '9'

def isWordStart (c : Char) : Bool :=
  ('a' ≤ c && c ≤ 'z') || ('A' ≤ c && c ≤ 'Z') || c == '_'

def isWordChar (c : Char) : Bool := isWordStart c || isDigit c

/-- Blanks between tokens, newlines apart. -/
def isBlank (c : Char) : Bool := c == ' ' || c == '\r' || c == '\t'

/-- The symbol that is one character and begins no longer one. -/
def single? : Char → Option Symbol
  | '(' => some .leftParen
  | ')' => some .rightParen
  | '{' => some .leftBrace
  | '}' => some .rightBrace
  | ',' => some .comma
  | '.' => some .dot
  | '-' => some .minus
  | '+' => some .plus
  | ';' => some .semicolon
  | '*' => some .star
  | _ => none

/-- A symbol of one character together with the character that makes it a longer one. -/
def double? : Char → Option (Symbol × Char × Symbol)
  | '!' => some (.bang, '=', .bangEqual)
  | '=' => some (.equal, '=', .equalEqual)
  | '<' => some (.less, '=', .lessEqual)
  | '>' => some (.greater, '=', .greaterEqual)
  | '&' => some (.ampersand, '&', .ampersandAmpersand)
  | '|' => some (.pipe, '|', .pipePipe)
  | _ => none

def symbolPiece (s : Symbol) (text : List Char) : Piece := ⟨.token (.symbol s), text⟩

/-- A string, up to and with its closing quote. -/
def cutString (rest : List Char) : Piece :=
  let body := rest.takeWhile (· != '"')
  match rest.drop body.length with
  | [] => ⟨.fault .unterminatedString, '"' :: body⟩
  | _ :: _ => ⟨.token (.string (String.ofList body)), '"' :: body ++ ['"']⟩

/-- Digits, and a point with more digits if both are there. -/
def cutNumber (c : Char) (rest : List Char) : Piece :=
  let whole := c :: rest.takeWhile isDigit
  match rest.dropWhile isDigit with
  | '.' :: after =>
    let fraction := after.takeWhile isDigit
    if fraction.isEmpty then ⟨.token (.number (Number.ofDigits whole [])), whole⟩
    else ⟨.token (.number (Number.ofDigits whole fraction)), whole ++ '.' :: fraction⟩
  | _ => ⟨.token (.number (Number.ofDigits whole [])), whole⟩

/-- A keyword or a name. -/
def cutWord (c : Char) (rest : List Char) : Piece :=
  let word := c :: rest.takeWhile isWordChar
  symbolPiece (Symbol.ofWord (String.ofList word)) word

/-- A slash, or a comment up to the end of its line. -/
def cutSlash (rest : List Char) : Piece :=
  match rest with
  | '/' :: after => ⟨.skipped, '/' :: '/' :: after.takeWhile (· != '\n')⟩
  | _ => symbolPiece .slash ['/']

/-- The first piece of the text `c :: rest`. -/
def Piece.cut (c : Char) (rest : List Char) : Piece :=
  if isBlank c || c == '\n' then ⟨.skipped, [c]⟩
  else if c == '/' then cutSlash rest
  else if c == '"' then cutString rest
  else if isDigit c then cutNumber c rest
  else if isWordStart c then cutWord c rest
  else
    match single? c with
    | some s => symbolPiece s [c]
    | none =>
      match double? c with
      | some (short, second, long) =>
        if rest.head? = some second then symbolPiece long [c, second] else symbolPiece short [c]
      | none => ⟨.fault (.unexpected c), [c]⟩

/-- The first `n` pieces of a text. -/
def piecesUpTo : Nat → List Char → List Piece
  | 0, _ => []
  | _ + 1, [] => []
  | n + 1, c :: rest =>
    let piece := Piece.cut c rest
    piece :: piecesUpTo n ((c :: rest).drop piece.text.length)

/-- The pieces of a text. No piece is empty, so there are at most as many as characters. -/
def pieces (source : List Char) : List Piece := piecesUpTo source.length source

/-- What a piece yields when it ends on `line`. -/
def Piece.item? (piece : Piece) (line : Nat) : Option LexItem :=
  match piece.kind with
  | .skipped => none
  | .token kind => some (.token ⟨kind, String.ofList piece.text, line⟩)
  | .fault fault => some (.error ⟨line, fault⟩)

/-- The items of pieces that begin on `line`, with the end of the text as last one. -/
def itemsFrom (line : Nat) : List Piece → List LexItem
  | [] => [.token ⟨.symbol .endOfText, "", line⟩]
  | piece :: rest =>
    let line := line + piece.text.count '\n'
    match piece.item? line with
    | some item => item :: itemsFrom line rest
    | none => itemsFrom line rest

end Lexer

/-- The tokens and lexical errors of a source text, in order. -/
def lex (source : String) : List LexItem := Lexer.itemsFrom 1 (Lexer.pieces source.toList)

namespace LexItem

def token? : LexItem → Option Token
  | token t => some t
  | error _ => none

def error? : LexItem → Option LexicalError
  | token _ => none
  | error e => some e

end LexItem

end Scriptlet
