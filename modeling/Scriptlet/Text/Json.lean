/-!
# JSON documents

The part of JSON that token listings need: strings, objects with fields in a fixed order, arrays, and
`atom`s that are already in their final form (numbers and `null`).

* `Json.compact`: on one line, without blanks.
* `Json.pretty`: one item or field a line, two blanks a level.
-/

namespace Scriptlet

inductive Json where
  | atom (text : String)
  | string (value : String)
  | array (items : List Json)
  | object (fields : List (String × Json))

namespace Json

/-- A character inside a string: quotes, backslashes and control characters are escaped. -/
def escapeChar (c : Char) : String :=
  if c = '"' then "\\\""
  else if c = '\\' then "\\\\"
  else if c = '\n' then "\\n"
  else if c = '\r' then "\\r"
  else if c = '\t' then "\\t"
  else if c.toNat = 8 then "\\b"
  else if c.toNat = 12 then "\\f"
  else if c.toNat < 0x20 then
    "\\u00" ++ String.ofList [Nat.digitChar (c.toNat / 16), Nat.digitChar (c.toNat % 16)]
  else c.toString

/-- A string with its quotes. -/
def quote (s : String) : String := "\"" ++ String.join (s.toList.map escapeChar) ++ "\""

mutual

def compact : Json → String
  | .atom text => text
  | .string value => quote value
  | .array items => "[" ++ ",".intercalate (compactItems items) ++ "]"
  | .object fields => "\x7b" ++ ",".intercalate (compactFields fields) ++ "\x7d"
termination_by structural json => json

def compactItems : List Json → List String
  | [] => []
  | item :: items => compact item :: compactItems items
termination_by structural items => items

def compactFields : List (String × Json) → List String
  | [] => []
  | (name, value) :: fields => (quote name ++ ":" ++ compact value) :: compactFields fields
termination_by structural fields => fields

end

/-- A new line at the given level. -/
def newline (level : Nat) : String := "\n" ++ String.ofList (List.replicate (2 * level) ' ')

/-- Entries between brackets, each on a line of its own one level further in. -/
def indented (level : Nat) (left right : String) (entries : List String) : String :=
  if entries.isEmpty then left ++ right
  else
    left ++ newline (level + 1) ++ ("," ++ newline (level + 1)).intercalate entries ++ newline level
      ++ right

mutual

/-- The document with its first line already at `level`. -/
def prettyAt (level : Nat) : Json → String
  | .atom text => text
  | .string value => quote value
  | .array items => indented level "[" "]" (prettyItems (level + 1) items)
  | .object fields => indented level "\x7b" "\x7d" (prettyFields (level + 1) fields)
termination_by structural json => json

def prettyItems (level : Nat) : List Json → List String
  | [] => []
  | item :: items => prettyAt level item :: prettyItems level items
termination_by structural items => items

def prettyFields (level : Nat) : List (String × Json) → List String
  | [] => []
  | (name, value) :: fields =>
    (quote name ++ ": " ++ prettyAt level value) :: prettyFields level fields
termination_by structural fields => fields

end

def pretty (json : Json) : String := prettyAt 0 json

end Json

end Scriptlet
