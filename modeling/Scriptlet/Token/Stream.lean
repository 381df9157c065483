import Scriptlet.Token.Lexer

/-!
# Tokens one at a time

The tokens of a text, one for each call of `Stream.next`. A stream works on the octets of the text
(UTF-8): it keeps where the current piece begins, how far it has been read and on which line, and cuts
lexemes out of the text by these positions. Every character the lexer knows is a single octet, and
octets of longer characters are never taken for one, so that only an unexpected character has to be
read as a whole.

A slice of the text must begin and end between two characters; a stream that asked for any other would
break (`Answer.breaks`). After the end of the text has been yielded, nothing is.

* `Stream.ofText`: a text from its beginning.
* `Stream.next`: the next token or lexical error.
* `Stream.nth`: what one of the calls of `next` in a row yields.
-/

namespace Scriptlet

open Lexer

/-- A text that is being read octet by octet. -/
structure Stream where
  text : String
  octets : ByteArray
  /-- The first octet of the current piece. -/
  start : Nat
  /-- The octet to be read next. One more than there are octets once the end has been yielded. -/
  position : Nat
  line : Nat

namespace Stream

def ofText (text : String) : Stream := ⟨text, text.toUTF8, 0, 0, 1⟩

/-- How many octets are still to be read. -/
def left (s : Stream) : Nat := s.octets.size - s.position

/-- The character whose code is the octet at a position; behind the last octet, the one of code zero. -/
def octet (s : Stream) (i : Nat) : Char := Char.ofNat ((s.octets[i]?).getD 0).toNat

def peek (s : Stream) : Char := s.octet s.position

def advance (s : Stream) : Stream := { s with position := s.position + 1 }

/-- There is an octet to be read, and it is `c`. -/
def sees (s : Stream) (c : Char) : Bool := decide (s.position < s.octets.size) && s.peek == c

/-- Reads on as long as octets satisfy `p`, at most `n` of them. -/
def passWhile (p : Char → Bool) : Nat → Stream → Stream
  | 0, s => s
  | n + 1, s => if p s.peek then passWhile p n s.advance else s

/-- Reads on to the next quote, and counts lines; at most `n` octets. -/
def passText : Nat → Stream → Stream
  | 0, s => s
  | n + 1, s =>
    if s.peek == '"' then s
    else
      let line := if s.peek == '\n' then s.line + 1 else s.line
      passText n { s.advance with line }

/-- The text between two positions, if they are between characters. -/
def slice? (s : Stream) (first last : Nat) : Option String :=
  if first ≤ last && String.Pos.Raw.isValid s.text ⟨first⟩ && String.Pos.Raw.isValid s.text ⟨last⟩ then
    some (String.Pos.Raw.extract s.text ⟨first⟩ ⟨last⟩)
  else none

/-- What has been read of the current piece. -/
def lexeme? (s : Stream) : Option String := s.slice? s.start s.position

/-- What a piece turned out to be, and the stream behind it. -/
inductive Scan where
  | skipped (s : Stream)
  | token (kind : TokenKind) (s : Stream)
  | fault (fault : LexicalFault) (s : Stream)
  | breaks

namespace Scan

/-- A token whose kind is read off a slice. -/
def ofSlice (slice : Option String) (kind : String → TokenKind) (s : Stream) : Scan :=
  match slice with
  | some text => .token (kind text) s
  | none => .breaks

end Scan

/-- The number a numeral stands for. -/
def numberOf (numeral : String) : Number :=
  Number.ofDigits (numeral.toList.takeWhile isDigit) ((numeral.toList.dropWhile isDigit).drop 1)

/-- A string, behind its opening quote. -/
def scanString (s : Stream) : Scan :=
  let s := s.passText s.left
  if s.octets.size ≤ s.position then .fault .unterminatedString s
  else
    let s := s.advance
    .ofSlice (s.slice? (s.start + 1) (s.position - 1)) .string s

/-- A numeral, behind its first digit. -/
def scanNumber (s : Stream) : Scan :=
  let s := s.passWhile isDigit s.left
  let s :=
    if s.peek == '.' && isDigit (s.octet (s.position + 1)) then
      s.advance.passWhile isDigit s.advance.left
    else s
  .ofSlice s.lexeme? (fun numeral => .number (numberOf numeral)) s

/-- A keyword or a name, behind its first character. -/
def scanWord (s : Stream) : Scan :=
  let s := s.passWhile isWordChar s.left
  .ofSlice s.lexeme? (fun word => .symbol (Symbol.ofWord word)) s

/-- A slash or a comment, behind its first slash. -/
def scanSlash (s : Stream) : Scan :=
  if s.sees '/' then .skipped (s.advance.passWhile (· != '\n') s.advance.left)
  else .token (.symbol .slash) s

/-- A whole character that begins nothing, of which one octet has been read. -/
def scanUnexpected (s : Stream) (octet : Char) : Scan :=
  let c :=
    if String.Pos.Raw.isValid s.text ⟨s.start⟩ then String.Pos.Raw.get s.text ⟨s.start⟩ else octet
  .fault (.unexpected c) { s with position := s.start + c.utf8Size }

/-- The piece that begins with the next octet. -/
def scan (s : Stream) : Scan :=
  let c := s.peek
  let s := { s with start := s.position }.advance
  if isBlank c then .skipped s
  else if c == '\n' then .skipped { s with line := s.line + 1 }
  else if c == '/' then s.scanSlash
  else if c == '"' then s.scanString
  else if isDigit c then s.scanNumber
  else if isWordStart c then s.scanWord
  else
    match single? c with
    | some symbol => .token (.symbol symbol) s
    | none =>
      match double? c with
      | some (short, second, long) =>
        if s.sees second then .token (.symbol long) s.advance else .token (.symbol short) s
      | none => s.scanUnexpected c

/-- What a call yields: an item, nothing, or no answer at all. -/
inductive Answer where
  | yields (item : LexItem) (s : Stream)
  | ends (s : Stream)
  | breaks

/-- The next item, when at most `n` pieces are looked at. -/
def nextWithin : Nat → Stream → Answer
  | 0, s => .ends s
  | n + 1, s =>
    if s.octets.size < s.position then .ends s
    else if s.position = s.octets.size then
      .yields (.token ⟨.symbol .endOfText, "", s.line⟩) s.advance
    else
      match s.scan with
      | .skipped s => nextWithin n s
      | .fault fault s => .yields (.error ⟨s.line, fault⟩) s
      | .token kind s =>
        match s.lexeme? with
        | some lexeme => .yields (.token ⟨kind, lexeme, s.line⟩) s
        | none => .breaks
      | .breaks => .breaks

/-- The next token or lexical error. No piece is empty, and one more look is needed at the end. -/
def next (s : Stream) : Answer := s.nextWithin (s.left + 1)

/-- What call number `n` of `next` yields, the first one being number zero. -/
def nth (s : Stream) : Nat → Answer
  | 0 => s.next
  | n + 1 =>
    match s.nth n with
    | .yields _ s => s.next
    | .ends s => s.next
    | .breaks => .breaks

/-- The item of an answer, if there is an answer. -/
def Answer.item? : Answer → Option (Option LexItem)
  | yields item _ => some (some item)
  | ends _ => some none
  | breaks => none

end Stream

end Scriptlet
