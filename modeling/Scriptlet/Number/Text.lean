import Scriptlet.Number.Decimal

/-!
# The texts of a number

One number is written in four ways.

* `Number.text`: what scripts print and concatenate. Whole numbers have no point, there is never an
  exponent, and `-0` is `0`.
* `Number.literalText`: the literal in a token listing. Whole numbers below `10 ^ 15` end in `.0`.
* `Number.treeText`: the literal in a printed syntax tree. Whole numbers are written with all their
  digits and end in `.0`; the sign of zero shows.
* `Number.jsonText`: the number in a JSON document, with an exponent outside a middle range.

All but the exact digits of `treeText` start from `Number.shortest`.
-/

namespace Scriptlet

namespace Decimal

/-- The decimal without an exponent, padded with zeros. -/
def positional (d : Decimal) : String :=
  let n : Int := d.digits.length
  if d.point ≤ 0 then
    "0." ++ String.ofList (List.replicate (-d.point).toNat '0' ++ d.digits)
  else if n ≤ d.point then
    String.ofList (d.digits ++ List.replicate (d.point - n).toNat '0')
  else
    String.ofList (d.digits.take d.point.toNat) ++ "." ++ String.ofList (d.digits.drop d.point.toNat)

/-- The decimal has no digit after the point. -/
def isWhole (d : Decimal) : Bool := (d.digits.length : Int) ≤ d.point

/-- One digit before the point, none after it if there is no other, and a signed exponent. -/
def scientific (d : Decimal) : String :=
  let e := d.point - 1
  let fraction := if d.digits.length ≤ 1 then "" else "." ++ String.ofList (d.digits.drop 1)
  String.ofList (d.digits.take 1) ++ fraction ++ "e" ++ (if e < 0 then "-" else "+")
    ++ toString e.natAbs

end Decimal

namespace Number

/-- Whole numbers below this one are written as integers in token listings and by scripts. -/
def integerLimit : Nat := Nat.pow 10 15

/-- The number is whole and below `integerLimit`. -/
def isInteger (x : Number) : Bool := x.isWhole && x.wholePart < integerLimit

def sign (x : Number) : String := if x.isNegative then "-" else ""

/-- An integer with its sign, a zero having none. -/
def integerText (x : Number) : String :=
  (if x.isZero then "" else x.sign) ++ toString x.wholePart

/-- The fewest digits that read back, without an exponent; a value halfway between two decimals is
written as the upper one. -/
def plainText (x : Number) : String :=
  if x.isNaN then "NaN"
  else if x.isInfinite then x.sign ++ "inf"
  else if x.isZero then x.sign ++ "0"
  else x.sign ++ (shortest .up x.magnitude).positional

/-- The number as scripts see it. -/
def text (x : Number) : String :=
  if x.isInfinite then x.sign ++ "Infinity"
  else if x.isInteger then x.integerText
  else x.plainText

/-- The number as the literal of a listed token. -/
def literalText (x : Number) : String :=
  if x.isInteger then x.integerText ++ ".0" else x.plainText

/-- The number as a literal of a printed syntax tree. -/
def treeText (x : Number) : String :=
  if x.isWhole then x.sign ++ toString x.wholePart ++ ".0" else x.plainText

/-- The number in a JSON document: `null` if it is not finite, without an exponent from `10 ^ -5` up
to `10 ^ 16`, and a value halfway between two decimals is written as the even one. -/
def jsonText (x : Number) : String :=
  if !x.isFinite then "null"
  else if x.isZero then x.sign ++ "0.0"
  else
    let d := shortest .toEven x.magnitude
    x.sign ++
      (if d.point ≤ -5 || 16 < d.point then d.scientific
       else if d.isWhole then d.positional ++ ".0"
       else d.positional)

end Number

end Scriptlet
