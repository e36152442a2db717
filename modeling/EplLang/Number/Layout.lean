import EplLang.Number.Shortest
import EplLang.Text.Basic

/-!
# Number texts

A number is written with its shortest decimal, either positionally or with an
exponent. What differs between the places a number is shown in is a `Layout`:
which leading exponents are written positionally and how many digits an
exponent has at least. The language's own text switches to exponents at `1e16`
and below `1e-4` and pads exponents to two digits; JSON texts switch at `1e21`
and below `1e-6` and do not pad.
-/

set_option autoImplicit false

namespace EplLang

/-- How a finite number is laid out. -/
structure Layout where
  /-- The least exponent of a leading digit that is written positionally. -/
  least : Int
  /-- The first exponent of a leading digit that is not. -/
  beyond : Int
  /-- The least number of digits of a written exponent. -/
  exponentDigits : Nat

namespace Layout

/-- Numbers as the language shows them. -/
def language : Layout := ⟨-4, 16, 2⟩

/-- Numbers as JSON texts show them. -/
def json : Layout := ⟨-6, 21, 1⟩

/-- Digits without an exponent: `digits * 10 ^ exponent`. -/
def positional (digits : Text) (exponent : Int) : Text :=
  if 0 ≤ exponent then digits ++ List.replicate exponent.toNat (Text.byte '0')
  else
    let places := exponent.natAbs
    if places < digits.length then
      digits.take (digits.length - places) ++ "." ++ digits.drop (digits.length - places)
    else "0." ++ List.replicate (places - digits.length) (Text.byte '0') ++ digits

/-- An exponent with its sign, padded with zeros on the left. -/
def signedExponent (width : Nat) (e : Int) : Text :=
  let digits := Text.ofNat e.natAbs
  (if e < 0 then "-" else "+") ++ List.replicate (width - digits.length) (Text.byte '0') ++ digits

/-- Digits with one of them before the point, and an exponent. -/
def scientific (width : Nat) (digits : Text) (leading : Int) : Text :=
  let mantissa : Text :=
    match digits with
    | [] => []
    | [d] => [d]
    | d :: rest => d :: Text.byte '.' :: rest
  mantissa ++ "e" ++ signedExponent width leading

/-- The text of a positive decimal. -/
def decimal (layout : Layout) (d : Decimal) : Text :=
  let digits := Text.ofNat d.digits
  let leading := d.exponent + digits.length - 1
  if layout.least ≤ leading ∧ leading < layout.beyond then positional digits d.exponent
  else scientific layout.exponentDigits digits leading

/-- The text of a number. -/
def number (layout : Layout) (x : Float) : Text :=
  match Binary64.decode x with
  | .nan => "nan"
  | .infinite negative => if negative then "-inf" else "inf"
  | .finite negative m q =>
    let size : Text := if m = 0 then "0" else layout.decimal (Decimal.shortest m q)
    if negative then "-" ++ size else size

end Layout

/-- The language's text of a number. -/
def numberText (x : Float) : Text := Layout.language.number x

end EplLang
