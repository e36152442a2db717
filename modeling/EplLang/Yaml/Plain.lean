import EplLang.Number.Reading

/-!
# What a plain YAML scalar denotes

A scalar written without quotes denotes null, a truth value, a number or a date
when its text has one of their forms, and otherwise the string that it is. The
reader of a document uses this to find the value of a scalar; the writer uses it
to tell which strings must be quoted so that they stay strings.

The form is suggested by the first byte. Words are looked up in a short list; a
leading digit or sign suggests a date, a whole number (with `0x`, `0o`, `0b` or
a leading zero for other bases, underscores left out) or a decimal number.
-/

set_option autoImplicit false

namespace EplLang.Yaml

open Text (byte isDigit)

/-- What a plain scalar denotes. -/
inductive Plain where
  | null
  | boolean (b : Bool)
  | whole (n : Int)
  | number (x : Float)
  | date
  | string

namespace Plain

/-- The words with a meaning of their own. -/
def words : List (Text × Plain) :=
  [("", .null), ("~", .null), ("null", .null), ("Null", .null), ("NULL", .null),
   ("true", .boolean true), ("True", .boolean true), ("TRUE", .boolean true),
   ("false", .boolean false), ("False", .boolean false), ("FALSE", .boolean false),
   (".nan", .number Binary64.nan), (".NaN", .number Binary64.nan),
   (".NAN", .number Binary64.nan),
   (".inf", .number (Binary64.infinity false)), (".Inf", .number (Binary64.infinity false)),
   (".INF", .number (Binary64.infinity false)),
   ("+.inf", .number (Binary64.infinity false)), ("+.Inf", .number (Binary64.infinity false)),
   ("+.INF", .number (Binary64.infinity false)),
   ("-.inf", .number (Binary64.infinity true)), ("-.Inf", .number (Binary64.infinity true)),
   ("-.INF", .number (Binary64.infinity true))]

/-! ## Dates

A date is `2001-2-3`, alone or followed by a time of day. After a `T` the time
must end in its zone; after a space it must have none. -/

/-- One or two digits with their value, and what follows them. -/
def shortNumber : Text → Option (Nat × Text)
  | a :: b :: t =>
    if isDigit a then
      if isDigit b then some (Text.digitsValue [a, b], t) else some (Text.digitsValue [a], b :: t)
    else none
  | [a] => if isDigit a then some (Text.digitsValue [a], []) else none
  | [] => none

/-- What follows a given byte. -/
def after (b : UInt8) : Text → Option Text
  | c :: t => if c = b then some t else none
  | [] => none

/-- The number of days of a month. -/
def daysOf (year month : Nat) : Nat :=
  if month = 2 then
    if year % 4 = 0 ∧ (year % 100 ≠ 0 ∨ year % 400 = 0) then 29 else 28
  else if month = 4 ∨ month = 6 ∨ month = 9 ∨ month = 11 then 30
  else 31

/-- What follows the day that a text starts with. -/
def day (t : Text) : Option Text := do
  let digits := t.takeWhile isDigit
  guard (digits.length = 4)
  let year := Text.digitsValue digits
  let (month, t) ← shortNumber (← after (byte '-') (t.drop 4))
  guard (1 ≤ month ∧ month ≤ 12)
  let (dayNumber, t) ← shortNumber (← after (byte '-') t)
  guard (1 ≤ dayNumber ∧ dayNumber ≤ daysOf year month)
  return t

/-- What follows a fraction of a second, if there is one. -/
def fraction : Text → Text
  | p :: d :: t =>
    if (p = byte '.' ∨ p = byte ',') ∧ isDigit d then t.dropWhile isDigit else p :: d :: t
  | t => t

/-- What follows the time of day that a text starts with. -/
def timeOfDay (t : Text) : Option Text := do
  let (hour, t) ← shortNumber t
  guard (hour < 24)
  let (minute, t) ← shortNumber (← after (byte ':') t)
  guard (minute < 60)
  let (second, t) ← shortNumber (← after (byte ':') t)
  guard (second < 60)
  return fraction t

/-- Whether a text is a zone: `Z`, or a sign with hours and minutes. -/
def isZone : Text → Bool
  | [z] => z == byte 'Z'
  | [sign, a, b, colon, c, d] =>
    (sign == byte '+' || sign == byte '-') && isDigit a && isDigit b && colon == byte ':' &&
      isDigit c && isDigit d && Text.digitsValue [a, b] ≤ 24 && Text.digitsValue [c, d] ≤ 60
  | _ => false

/-- Whether a text is a date. -/
def isDate (t : Text) : Bool :=
  match day t with
  | none => false
  | some [] => true
  | some (b :: rest) =>
    match timeOfDay rest with
    | none => false
    | some ending =>
      if b = byte 'T' ∨ b = byte 't' then isZone ending else b == byte ' ' && ending.isEmpty

/-! ## Numbers -/

/-- The value of a digit in any base up to sixteen. -/
def digitValue (b : UInt8) : Nat := (Reading.hexValue? b).getD 16

/-- The value of a run of digits in a base. -/
def inBase (base : Nat) (t : Text) : Option Nat :=
  if t.all (digitValue · < base) then
    some (t.foldl (fun n b => n * base + digitValue b) 0)
  else none

/-- The value of an unsigned whole number, its base told by how it starts. -/
def magnitude (t : Text) : Option Nat :=
  match t with
  | [] => none
  | [_] => inBase 10 t
  | z :: x :: rest =>
    if z ≠ byte '0' then inBase 10 t
    else if rest.isEmpty then inBase 8 [x]
    else if x = byte 'x' ∨ x = byte 'X' then inBase 16 rest
    else if x = byte 'o' ∨ x = byte 'O' then inBase 8 rest
    else if x = byte 'b' ∨ x = byte 'B' then inBase 2 rest
    else inBase 8 (x :: rest)

/-- The value of a whole number that fits a word: signed, or unsigned without a
sign. -/
def wholeNumber (t : Text) : Option Int :=
  match t with
  | [] => none
  | sign :: rest =>
    if sign = byte '-' then do
      let n ← magnitude rest
      guard (n ≤ Word.half)
      return -n
    else if sign = byte '+' then do
      let n ← magnitude rest
      guard (n < Word.half)
      return n
    else do
      let n ← magnitude t
      guard (n < Word.size)
      return n

/-- Whether a text is empty or an exponent. -/
def isExponent : Text → Bool
  | [] => true
  | e :: t =>
    let digits :=
      match t with
      | s :: rest => if s = byte '+' ∨ s = byte '-' then rest else t
      | [] => []
    (e == byte 'e' || e == byte 'E') && !digits.isEmpty && digits.all isDigit

/-- Whether a text is a decimal number: digits with a point among them, or
before them, or none, and perhaps an exponent. -/
def isDecimal (t : Text) : Bool :=
  let unsigned :=
    match t with
    | s :: rest => if s = byte '+' ∨ s = byte '-' then rest else t
    | [] => []
  let lead := unsigned.takeWhile isDigit
  match unsigned.dropWhile isDigit with
  | [] => !lead.isEmpty
  | b :: rest =>
    if b = byte '.' then
      (!lead.isEmpty || !(rest.takeWhile isDigit).isEmpty) && isExponent (rest.dropWhile isDigit)
    else !lead.isEmpty && isExponent (b :: rest)

/-- What a text that starts with a digit or a sign denotes. -/
def numeric (t : Text) : Plain :=
  if isDate t then .date
  else
    let digits := t.filter (· != byte '_')
    match wholeNumber digits with
    | some n => .whole n
    | none =>
      if isDecimal digits then
        match readNumber? digits with
        | some x => .number x
        | none => .string
      else .string

end Plain

/-- What a plain scalar denotes. -/
def plain (t : Text) : Plain :=
  match Plain.words.find? (·.1 == t) with
  | some (_, meaning) => meaning
  | none =>
    match t with
    | [] => .null
    | b :: _ =>
      if b = byte '.' then
        match readNumber? t with
        | some x => .number x
        | none => .string
      else if isDigit b ∨ b = byte '+' ∨ b = byte '-' then Plain.numeric t
      else .string

end EplLang.Yaml
