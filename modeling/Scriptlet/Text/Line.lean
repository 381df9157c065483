/-!
# Lines of a byte stream

A line ends with a newline, which may have a carriage return before it, or with the stream. The end
mark is not part of the line, and nothing after the last newline is no line.
-/

namespace Scriptlet.Line

/-- A line without the carriage return before its newline. -/
def chomp (line : List UInt8) : List UInt8 :=
  if line.getLast? = some 13 then line.dropLast else line

/-- The lines of `bytes`, when `line` has been read of the current one. -/
def splitFrom (line : Array UInt8) : List UInt8 → List (List UInt8)
  | [] => if line.isEmpty then [] else [line.toList]
  | b :: bytes =>
    if b = 10 then chomp line.toList :: splitFrom #[] bytes else splitFrom (line.push b) bytes

/-- The lines of a byte stream, without their end marks. -/
def split (bytes : List UInt8) : List (List UInt8) := splitFrom #[] bytes

end Scriptlet.Line
