import EplLang.Number.Binary64
import EplLang.Text.Basic

/-!
# Reading numbers

A number text is an optional sign followed by one of these:

* `inf` or `infinity` in any case, or, without a sign, `nan`;
* decimal digits with at most one point among or around them, at least one
  digit, and optionally `e` with a signed decimal exponent;
* `0x` followed by hexadecimal digits with at most one point and then `p` with
  a signed decimal exponent of two, which is required.

Underscores may stand between two digits, and between `0x` and a digit. The
value is the double nearest to the exact number; a number too large for a
double is refused, one too small becomes zero.
-/

set_option autoImplicit false

namespace EplLang.Reading

open Text (byte isDigit)

/-- The value of a hexadecimal digit. -/
def hexValue? (b : UInt8) : Option Nat :=
  if isDigit b then some (b - byte '0').toNat
  else if byte 'a' ≤ b ∧ b ≤ byte 'f' then some (b - byte 'a' + 10).toNat
  else if byte 'A' ≤ b ∧ b ≤ byte 'F' then some (b - byte 'A' + 10).toNat
  else none

/-- The value of a digit in base ten or sixteen. -/
def digit? (base : Nat) (b : UInt8) : Option Nat :=
  if base = 16 then hexValue? b else if isDigit b then some (b - byte '0').toNat else none

/-- The digits of a number read so far. -/
structure Mantissa where
  value : Nat := 0
  /-- Significant digits, leading zeros apart. -/
  digits : Nat := 0
  /-- Digits after the point. -/
  places : Nat := 0
  seenPoint : Bool := false
  seenDigit : Bool := false

/-- Takes one more digit into a mantissa. -/
def Mantissa.push (base : Nat) (m : Mantissa) (d : Nat) : Mantissa :=
  { m with
    value := m.value * base + d
    digits := if m.value = 0 ∧ d = 0 then 0 else m.digits + 1
    places := if m.seenPoint then m.places + 1 else m.places
    seenDigit := true }

/-- Reads digits, underscores and at most one point. -/
def mantissa (base : Nat) (m : Mantissa) : Text → Mantissa × Text
  | [] => (m, [])
  | b :: t =>
    if b = byte '_' then mantissa base m t
    else if b = byte '.' then
      if m.seenPoint then (m, b :: t) else mantissa base { m with seenPoint := true } t
    else
      match digit? base b with
      | some d => mantissa base (m.push base d) t
      | none => (m, b :: t)

/-- Where an exponent stops growing: past it every number is zero or too large. -/
def exponentCap : Nat := 10000

/-- Reads the digits and underscores of an exponent. -/
def exponentDigits (e : Nat) : Text → Nat × Text
  | [] => (e, [])
  | b :: t =>
    if b = byte '_' then exponentDigits e t
    else if isDigit b then
      exponentDigits (if e < exponentCap then e * 10 + (b - byte '0').toNat else e) t
    else (e, b :: t)

/-- Reads a sign and the digits of an exponent; a digit must follow the sign. -/
def exponent (t : Text) : Option (Int × Text) :=
  let (negative, digits) :=
    match t with
    | b :: rest =>
      if b = byte '+' then (false, rest) else if b = byte '-' then (true, rest) else (false, t)
    | [] => (false, t)
  match digits with
  | b :: _ =>
    if isDigit b then
      let (e, rest) := exponentDigits 0 digits
      some (if negative then -(e : Int) else e, rest)
    else none
  | [] => none

/-- What stands before a byte, as far as underscores care. -/
inductive Before where
  | digit
  | underscore
  | other
  deriving DecidableEq

/-- Whether each underscore stands between two digits. -/
def underscoresBetween (hexadecimal : Bool) : Before → Text → Bool
  | before, [] => before != .underscore
  | before, b :: t =>
    if isDigit b || (hexadecimal && (hexValue? b).isSome) then underscoresBetween hexadecimal .digit t
    else if b = byte '_' then before == .digit && underscoresBetween hexadecimal .underscore t
    else before != .underscore && underscoresBetween hexadecimal .other t

/-- Whether the underscores of an unsigned number are well placed; the mark
`0x` counts as a digit. -/
def underscoresOk : Text → Bool
  | z :: x :: t =>
    if z = byte '0' ∧ (x = byte 'x' ∨ x = byte 'X') then underscoresBetween true .digit t
    else underscoresBetween false .other (z :: x :: t)
  | t => underscoresBetween false .other t

/-- The largest decimal exponent that can still give a double. -/
def greatestPlace : Int := 310

/-- The least decimal exponent that can still give something but zero. -/
def leastPlace : Int := -330

/-- The number `mantissa * 10 ^ e`. -/
def ofDecimal (negative : Bool) (m : Mantissa) (e : Int) : Option Float :=
  let shift := e - m.places
  let place := shift + m.digits
  if m.value = 0 ∨ place < leastPlace then some (Binary64.ofBits negative 0)
  else if greatestPlace < place then none
  else
    Binary64.nearest? negative (m.value * Binary64.powerUp 10 shift) (Binary64.powerDown 10 shift)

/-- The number `mantissa * 2 ^ e` of hexadecimal digits. -/
def ofHexadecimal (negative : Bool) (m : Mantissa) (e : Int) : Option Float :=
  let shift := e - 4 * m.places
  Binary64.nearest? negative (m.value * Binary64.powerUp 2 shift) (Binary64.powerDown 2 shift)

/-- A decimal number without its sign. -/
def decimal (negative : Bool) (t : Text) : Option Float :=
  let (m, rest) := mantissa 10 {} t
  if !m.seenDigit then none
  else
    match rest with
    | [] => ofDecimal negative m 0
    | b :: more =>
      if b = byte 'e' ∨ b = byte 'E' then
        match exponent more with
        | some (e, []) => ofDecimal negative m e
        | _ => none
      else none

/-- A hexadecimal number after its mark. -/
def hexadecimal (negative : Bool) (t : Text) : Option Float :=
  let (m, rest) := mantissa 16 {} t
  if !m.seenDigit then none
  else
    match rest with
    | [] => none
    | b :: more =>
      if b = byte 'p' ∨ b = byte 'P' then
        match exponent more with
        | some (e, []) => ofHexadecimal negative m e
        | _ => none
      else none

/-- A number text without its sign. -/
def unsigned (negative : Bool) (t : Text) : Option Float :=
  let word := Text.lowerAscii t
  if word = "inf" ∨ word = "infinity" then some (Binary64.infinity negative)
  else if t.contains (byte '_') && !underscoresOk t then none
  else
    match t with
    | z :: x :: d :: rest =>
      if z = byte '0' ∧ (x = byte 'x' ∨ x = byte 'X') then hexadecimal negative (d :: rest)
      else decimal negative t
    | _ => decimal negative t

end EplLang.Reading

namespace EplLang

/-- The number a text stands for, if it is a number text within range. -/
def readNumber? (t : Text) : Option Float :=
  if Text.lowerAscii t = "nan" then some Binary64.nan
  else
    match t with
    | b :: rest =>
      if b = Text.byte '+' then Reading.unsigned false rest
      else if b = Text.byte '-' then Reading.unsigned true rest
      else Reading.unsigned false t
    | [] => none

end EplLang
