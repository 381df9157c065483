import Scriptlet.Number.Basic

/-!
# Decimal numerals

* `Number.ofDigits`: the number closest to a numeral with a whole and a fractional part.
* `Number.shortest`: the fewest decimal digits that read back to the same number, and of those the
  nearest.

A numeral reads back to magnitude `m` iff it lies in the `Window` of `m`: between the midpoints to
the two neighbouring magnitudes, the midpoints included iff `m` is even. Decimals with few digits lie
on a coarse grid (multiples of a high power of ten), so the search goes from the coarsest grid to the
finest and stops at the first one with a point in the window. On each grid only the two points
around the value have to be looked at. Everything is exact arithmetic on naturals: values are counted
in parts of `2 * unit * 10 ^ finest`.
-/

namespace Scriptlet

/-- A positive decimal: `0.d₁d₂…dₙ × 10 ^ point`. -/
structure Decimal where
  digits : List Char
  point : Int
deriving DecidableEq

/-- What becomes of a value halfway between two decimals. -/
inductive Tie where
  | up
  | toEven
deriving DecidableEq

namespace Number

/-- The finest grid that is ever needed is that of multiples of `10 ^ -finest`: its points are closer
together than any two numbers. -/
def finest : Nat := 345

/-- The number closest to the numeral `whole.fraction`, both parts being digits. -/
def ofDigits (whole fraction : List Char) : Number :=
  ofMagnitude false (nearest (Nat.ofDigitChars 10 (whole ++ fraction) 0) (Nat.pow 10 fraction.length))

/-- A value with the interval of what is rounded to it. -/
structure Window where
  value : Nat
  low : Nat
  high : Nat
  closed : Bool

/-- The window of a positive magnitude. -/
def window (m : Nat) : Window where
  value := 2 * units m * Nat.pow 10 finest
  low := (units m + units (m - 1)) * Nat.pow 10 finest
  high := (units m + units (m + 1)) * Nat.pow 10 finest
  closed := m % 2 == 0

/-- The point `t` is rounded to the window's value. -/
def Window.admits (w : Window) (t : Nat) : Bool :=
  (w.low < t && t < w.high) || (w.closed && (t == w.low || t == w.high))

/-- The multiple of `step` in the window that is nearest to the value, if there is one: `some c`
stands for `c * step`. -/
def Window.multiple? (w : Window) (tie : Tie) (step : Nat) : Option Nat :=
  let c := w.value / step
  let r := w.value % step
  let up := 2 * r > step || (2 * r == step && (tie = .up || c % 2 == 1))
  match w.admits (c * step), w.admits ((c + 1) * step) with
  | false, false => none
  | true, false => some c
  | false, true => some (c + 1)
  | true, true => some (if up then c + 1 else c)

/-- The distance of neighbours on the grid of multiples of `10 ^ (j - finest)`. -/
def gridStep (j : Nat) : Nat := 2 * unit * Nat.pow 10 j

/-- The coarsest grid from the `j`th down that has a point in the window, with that point. On the
finest grid the point below the value always is in the window. -/
def Window.coarsest (w : Window) (tie : Tie) : Nat → Nat × Nat
  | 0 => (w.value / gridStep 0, 0)
  | j + 1 =>
    match w.multiple? tie (gridStep (j + 1)) with
    | some c => (c, j + 1)
    | none => w.coarsest tie j

/-- A grid so coarse that its first positive point lies beyond the window. -/
def Window.start (w : Window) : Nat := (w.value.log2 - 1074) / 3 + 1

/-- The fewest digits that read back to the positive finite magnitude `m`; of those the nearest to
its value, `tie` deciding between two at the same distance. -/
def shortest (tie : Tie) (m : Nat) : Decimal :=
  let w := window m
  let found := w.coarsest tie w.start
  let digits := Nat.toDigits 10 found.1
  ⟨digits, digits.length + found.2 - finest⟩

end Number

end Scriptlet
