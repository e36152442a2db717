import EplLang.Number.Binary64

/-!
# The shortest decimal that reads back

Between a double and its two neighbours lie the reals that round to it. The
shortest decimal of a double is a decimal in that interval with as few digits
as possible; among those of that length it is the one nearest to the double,
and of two equally near ones the one with the even last digit.

The search goes through the grids of one, two, up to seventeen digits. On each
grid only the two neighbours of the value need a test: if any point of the grid
lies in the interval, one of them does.
-/

set_option autoImplicit false

namespace EplLang

/-- A positive decimal `digits * 10 ^ exponent`, no trailing zero in `digits`. -/
structure Decimal where
  digits : Nat
  exponent : Int
  deriving DecidableEq, Repr

namespace Decimal

open Binary64 (powerUp powerDown)

/-- The reals that round to `m * 2 ^ q`, as fractions over one denominator,
and whether the two ends belong to them. -/
structure Interval where
  low : Nat
  value : Nat
  high : Nat
  den : Nat
  closed : Bool

/-- The interval of a positive finite double. Below a power of two the
neighbour is only half as far away. -/
def interval (m : Nat) (q : Int) : Interval :=
  let scale := powerUp 2 (q - 2)
  let below := if m = Binary64.hiddenBit ∧ Binary64.leastExponent < q then 1 else 2
  { low := (4 * m - below) * scale
    value := 4 * m * scale
    high := (4 * m + 2) * scale
    den := powerDown 2 (q - 2)
    closed := m % 2 == 0 }

/-- Whether the decimal `c * 10 ^ k` lies in an interval. -/
def Interval.contains (i : Interval) (c : Nat) (k : Int) : Bool :=
  let point := c * powerUp 10 k * i.den
  let low := i.low * powerDown 10 k
  let high := i.high * powerDown 10 k
  if i.closed then low ≤ point && point ≤ high else low < point && point < high

/-- The number of decimal digits, at least one. -/
def digitCount (n : Nat) : Nat := (Nat.toDigits 10 n).length

/-- The least `j` from `j` on with `num * 10 ^ j` at least `den`, looking no
further than `steps`. -/
def shiftUp (num den : Nat) : Nat → Nat → Nat
  | 0, j => j
  | steps + 1, j => if den ≤ num * Nat.pow 10 j then j else shiftUp num den steps (j + 1)

/-- The exponent of the leading decimal digit of a fraction. -/
def leadingDigit (num den : Nat) : Int :=
  if den ≤ num then (digitCount (num / den) : Int) - 1
  else -(shiftUp num den 400 1 : Int)

/-- The point of the grid `10 ^ k` chosen for the value of an interval. -/
def onGrid (i : Interval) (k : Int) : Option Nat :=
  let num := i.value * powerDown 10 k
  let den := i.den * powerUp 10 k
  let floor := num / den
  let below := i.contains floor k
  let above := i.contains (floor + 1) k
  if below && above then some (Binary64.roundEven num den)
  else if below then some floor
  else if above then some (floor + 1)
  else none

/-- The first grid with a point in the interval, from `count` digits on. -/
def search (i : Interval) (top : Int) : Nat → Nat → Decimal
  | 0, _ => ⟨i.value / i.den, 0⟩
  | steps + 1, count =>
    let k := top - count + 1
    match onGrid i k with
    | some c => ⟨c, k⟩
    | none => search i top steps (count + 1)

/-- A decimal without trailing zeros among its digits, `steps` of them at most. -/
def trim : Nat → Decimal → Decimal
  | 0, d => d
  | steps + 1, d =>
    if d.digits % 10 = 0 ∧ d.digits ≠ 0 then trim steps ⟨d.digits / 10, d.exponent + 1⟩ else d

/-- The shortest decimal of the double `m * 2 ^ q`, which is positive. -/
def shortest (m : Nat) (q : Int) : Decimal :=
  let i := interval m q
  trim 18 (search i (leadingDigit i.value i.den) 18 1)

end Decimal

end EplLang
