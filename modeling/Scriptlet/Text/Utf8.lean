/-!
# UTF-8

`decode` reads octets one by one and gives, in order, the characters they encode and a `none` for
every maximal run of octets that begins a character and cannot be continued (an octet that begins
none is such a run by itself).

* `decodeLossy`: every such run is replaced by U+FFFD.
* `decode?`: the text, if there is no such run.
-/

namespace Scriptlet.Utf8

/-- A character that has begun: how many octets it still owes, the least and the greatest octet that
may come next, and the bits so far. -/
structure Pending where
  owed : Nat
  low : Nat
  high : Nat
  value : Nat

/-- What the first octet of a character yields. -/
def begin (b : Nat) : Array (Option Char) × Option Pending :=
  if b < 0x80 then (#[some (Char.ofNat b)], none)
  else if 0xC2 ≤ b && b ≤ 0xDF then (#[], some ⟨1, 0x80, 0xBF, b - 0xC0⟩)
  else if b == 0xE0 then (#[], some ⟨2, 0xA0, 0xBF, 0⟩)
  else if b == 0xED then (#[], some ⟨2, 0x80, 0x9F, 0xD⟩)
  else if 0xE1 ≤ b && b ≤ 0xEF then (#[], some ⟨2, 0x80, 0xBF, b - 0xE0⟩)
  else if b == 0xF0 then (#[], some ⟨3, 0x90, 0xBF, 0⟩)
  else if 0xF1 ≤ b && b ≤ 0xF3 then (#[], some ⟨3, 0x80, 0xBF, b - 0xF0⟩)
  else if b == 0xF4 then (#[], some ⟨3, 0x80, 0x8F, 4⟩)
  else (#[none], none)

/-- Reads one more octet. One that cannot continue the pending character ends it as malformed and
begins the next. -/
def step : Array (Option Char) × Option Pending → UInt8 → Array (Option Char) × Option Pending
  | (out, none), b =>
    let (new, pending) := begin b.toNat
    (out ++ new, pending)
  | (out, some p), b =>
    let n := b.toNat
    if p.low ≤ n && n ≤ p.high then
      let value := p.value * 64 + (n - 0x80)
      if p.owed ≤ 1 then (out.push (some (Char.ofNat value)), none)
      else (out, some ⟨p.owed - 1, 0x80, 0xBF, value⟩)
    else
      let (new, pending) := begin n
      (out.push none ++ new, pending)

/-- The characters the octets encode, `none` standing for a malformed run. -/
def decode (bytes : List UInt8) : Array (Option Char) :=
  match bytes.foldl step (#[], none) with
  | (out, none) => out
  | (out, some _) => out.push none

/-- The text with U+FFFD in place of every malformed run. -/
def decodeLossy (bytes : List UInt8) : String :=
  String.ofList ((decode bytes).toList.map (·.getD '\uFFFD'))

/-- The text, if no octet is malformed. -/
def decode? (bytes : List UInt8) : Option String :=
  ((decode bytes).toList.mapM id).map String.ofList

end Scriptlet.Utf8
