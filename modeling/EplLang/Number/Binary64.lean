import EplLang.Number.Word

/-!
# Doubles as exact numbers

A finite double is a sign and a product `m * 2 ^ q` of a natural number below
`2 ^ 53` with a power of two whose exponent is at least `-1074`. `decode` reads
the product off the bits, `nearestBits` goes the other way: it gives the bits
of the double nearest to a positive fraction, a tie going to the even
significand. Everything is done on natural numbers, so no rounding of the
machine enters a statement about the result.
-/

set_option autoImplicit false

namespace EplLang

/-- What the bits of a double mean. -/
inductive Decoded where
  | nan
  | infinite (negative : Bool)
  | finite (negative : Bool) (significand : Nat) (exponent : Int)
  deriving DecidableEq, Repr

namespace Binary64

/-- The number of stored bits of a significand. -/
def fractionBits : Nat := 52

/-- The leading bit of a significand, which is not stored: `2 ^ fractionBits`. -/
def hiddenBit : Nat := 0x10000000000000

/-- The number of exponent fields. -/
def fields : Nat := 2048

/-- The least exponent of a significand. -/
def leastExponent : Int := -1074

/-- The exponent field of infinities and nan. -/
def topField : Nat := 2047

/-- The sign, significand and exponent in a double's bits. -/
def decode (x : Float) : Decoded :=
  let bits := x.toBits.toNat
  let negative := decide (Word.half ≤ bits)
  let field := bits / hiddenBit % fields
  let fraction := bits % hiddenBit
  if field = topField then
    if fraction = 0 then .infinite negative else .nan
  else if field = 0 then .finite negative fraction leastExponent
  else .finite negative (hiddenBit + fraction) (field - 1075)

/-- The quotient `num / den` rounded to the nearest natural number, a tie going
to the even one. -/
def roundEven (num den : Nat) : Nat :=
  let quotient := num / den
  let twice := 2 * (num % den)
  if den < twice ∨ (twice = den ∧ quotient % 2 = 1) then quotient + 1 else quotient

/-- `2 ^ q` as a numerator. -/
def powerUp (base : Nat) (q : Int) : Nat := Nat.pow base q.toNat

/-- `2 ^ q` as a denominator. -/
def powerDown (base : Nat) (q : Int) : Nat := Nat.pow base (-q).toNat

/-- The exponent of the leading bit of the fraction `num / den`. -/
def leadingBit (num den : Nat) : Int :=
  let guess : Int := (Nat.log2 num : Int) - (Nat.log2 den : Int)
  if den * powerUp 2 guess ≤ num * powerDown 2 guess then guess else guess - 1

/-- The bits of the double nearest to `num / den`, without a sign. A result of
`infinityBits` or more means that the fraction is too large for a double. -/
def nearestBits (num den : Nat) : Nat :=
  if num = 0 then 0
  else
    let q := max leastExponent (leadingBit num den - fractionBits)
    let m := roundEven (num * powerDown 2 q) (den * powerUp 2 q)
    (q - leastExponent).toNat * hiddenBit + m

/-- The bits of infinity. -/
def infinityBits : Nat := topField * hiddenBit

/-- The double with the given sign and bits. -/
def ofBits (negative : Bool) (bits : Nat) : Float :=
  Float.ofBits ((if negative then Word.half + bits else bits).toUInt64)

/-- The double nearest to a fraction with a sign, if it is not too large. -/
def nearest? (negative : Bool) (num den : Nat) : Option Float :=
  let bits := nearestBits num den
  if infinityBits ≤ bits then none else some (ofBits negative bits)

/-- The double that is infinite. -/
def infinity (negative : Bool) : Float := ofBits negative infinityBits

/-- The double that is no number. -/
def nan : Float := ofBits false (infinityBits + hiddenBit / 2)

/-- The double of an integer, rounded to the nearest when it has none. -/
def ofInt (n : Int) : Float :=
  ofBits (decide (n < 0)) (min infinityBits (nearestBits n.natAbs 1))

/-- A double cut toward zero, when it is a number that fits a signed 64-bit
integer. -/
def toInt64? (x : Float) : Option Int :=
  match decode x with
  | .finite negative m q =>
    let size : Int := (m * powerUp 2 q / powerDown 2 q : Nat)
    let n := if negative then -size else size
    if Word.least ≤ n ∧ n ≤ Word.greatest then some n else none
  | _ => none

/-- Whether a double is not a number. -/
def isNan (x : Float) : Bool :=
  match decode x with
  | .nan => true
  | _ => false

end Binary64

end EplLang
