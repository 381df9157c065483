/-!
# Numbers of the script language

A number is a binary64 value, kept as its bit pattern: the top bit is the sign, the other 63 bits
are the *magnitude*. Magnitudes below `infinity` are the finite values in increasing order, so the
value of one is best counted in `unit`s of the smallest positive number: magnitude `m` stands for
`units m` of them, and `2 ^ 1074` of them make one.

* `units m`: how many of the smallest positive number magnitude `m` is worth.
* `nearest num den`: the magnitude closest to the fraction `num / den`, a tie going to the even one.
* `roundToWhole`: the closest whole number, a tie going to the even one.
* `roundToHundredths`: what the language's subtraction does to a difference.

Sums, products, quotients and comparisons are those of `Float`.
-/

namespace Scriptlet

/-- A number of the script language: a binary64 bit pattern. -/
structure Number where
  bits : UInt64
deriving DecidableEq, Inhabited

namespace Number

/-- The bit of the sign. -/
def signBit : Nat := Nat.pow 2 63

/-- The magnitude of the infinities; those above it are not numbers. -/
def infinity : Nat := 2047 * Nat.pow 2 52

/-- How many of the smallest positive number make one. -/
def unit : Nat := Nat.pow 2 1074

/-! ## Sign and magnitude -/

/-- The sign bit is set (also on `-0`). -/
def isNegative (x : Number) : Bool := signBit ≤ x.bits.toNat

/-- All bits but the sign. -/
def magnitude (x : Number) : Nat := x.bits.toNat % signBit

/-- The number with the given sign and magnitude. -/
def ofMagnitude (negative : Bool) (m : Nat) : Number :=
  ⟨UInt64.ofNat (if negative then signBit + m else m)⟩

def isFinite (x : Number) : Bool := x.magnitude < infinity

def isInfinite (x : Number) : Bool := x.magnitude == infinity

def isNaN (x : Number) : Bool := infinity < x.magnitude

/-- Zero of either sign. -/
def isZero (x : Number) : Bool := x.magnitude == 0

/-- Strictly above zero, so neither a zero nor a NaN. -/
def isPositive (x : Number) : Bool := !x.isNegative && !x.isZero && !x.isNaN

/-! ## The value of a magnitude -/

/-- The digits before scaling: a magnitude below `2 ^ 52` is its own significand, any other has an
implicit leading bit. -/
def significand (m : Nat) : Nat :=
  if m < Nat.pow 2 52 then m else Nat.pow 2 52 + m % Nat.pow 2 52

/-- How often the significand is doubled. -/
def scale (m : Nat) : Nat := m / Nat.pow 2 52 - 1

/-- The value of magnitude `m`, counted in the smallest positive number. -/
def units (m : Nat) : Nat := significand m * Nat.pow 2 (scale m)

/-- The closest whole number to `num / den`, a tie going to the even one. -/
def roundDiv (num den : Nat) : Nat :=
  let q := num / den
  let twice := 2 * (num % den)
  if den < twice ∨ (twice = den ∧ q % 2 = 1) then q + 1 else q

/-- The magnitude closest to the fraction `num / den`, a tie going to the even one; beyond the
largest finite value it is `infinity`. -/
def nearest (num den : Nat) : Nat :=
  let s := (num * unit / den).log2 - 52
  min (s * Nat.pow 2 52 + roundDiv (num * unit) (den * Nat.pow 2 s)) infinity

/-- The number closest to `n`. -/
def ofNat (n : Nat) : Number := ofMagnitude false (nearest n 1)

/-- Finite, with no fractional part. -/
def isWhole (x : Number) : Bool := x.isFinite && units x.magnitude % unit == 0

/-- The part of a finite number before the point, without its sign. -/
def wholePart (x : Number) : Nat := units x.magnitude / unit

/-! ## Arithmetic -/

def toFloat (x : Number) : Float := Float.ofBits x.bits

def ofFloat (f : Float) : Number := ⟨f.toBits⟩

def add (x y : Number) : Number := ofFloat (x.toFloat + y.toFloat)

def sub (x y : Number) : Number := ofFloat (x.toFloat - y.toFloat)

def mul (x y : Number) : Number := ofFloat (x.toFloat * y.toFloat)

def div (x y : Number) : Number := ofFloat (x.toFloat / y.toFloat)

/-- The same magnitude with the other sign. -/
def neg (x : Number) : Number := ofMagnitude (!x.isNegative) x.magnitude

/-- The closest whole number, a tie going to the even one; the sign is kept, also on a zero. -/
def roundToWhole (x : Number) : Number :=
  if x.isFinite then ofMagnitude x.isNegative (nearest (roundDiv (units x.magnitude) unit) 1) else x

/-- Rounded to two places after the point, by way of a hundredfold. -/
def roundToHundredths (x : Number) : Number :=
  ((x.mul (ofNat 100)).roundToWhole).div (ofNat 100)

/-! ## Comparison

A NaN is neither equal to, nor below, nor above anything; the two zeros are equal. -/

def equal (x y : Number) : Bool := x.toFloat == y.toFloat

def less (x y : Number) : Bool := x.toFloat < y.toFloat

def lessEqual (x y : Number) : Bool := x.toFloat ≤ y.toFloat

/-- A number that equals nothing. -/
def nan : Number := ofMagnitude false (infinity + Nat.pow 2 51)

end Number

end Scriptlet
