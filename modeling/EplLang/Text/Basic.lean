/-!
# Byte strings

Every text the language handles is a string of bytes: source files, names,
string values, messages. Nothing forces the bytes to be valid UTF-8, so the
type of texts is the type of lists of bytes, and characters are a reading of a
text (`EplLang.Text.Utf8`), not its parts.

A string literal stands for its UTF-8 encoding wherever a text is expected.
-/

set_option autoImplicit false

/-- The bytes of the UTF-8 encoding of a string. -/
def String.text (s : String) : List UInt8 := s.toByteArray.data.toList

namespace EplLang

/-- A byte string. -/
abbrev Text := List UInt8

instance : Coe String Text := ⟨String.text⟩

namespace Text

/-- The byte of an ASCII character. -/
def byte (c : Char) : UInt8 := c.toNat.toUInt8

/-- The pieces in order, with a separator between each two neighbours. -/
def join (separator : Text) : List Text → Text
  | [] => []
  | [piece] => piece
  | piece :: next :: rest => piece ++ separator ++ join separator (next :: rest)

/-- The decimal digits of a natural number. -/
def ofNat (n : Nat) : Text := (Nat.repr n).text

/-- An integer in decimal, with a sign only when it is negative. -/
def ofInt : Int → Text
  | .ofNat n => ofNat n
  | .negSucc n => byte '-' :: ofNat (n + 1)

/-- Texts are ordered byte by byte; a proper initial part comes first. -/
def order : Text → Text → Ordering
  | [], [] => .eq
  | [], _ :: _ => .lt
  | _ :: _, [] => .gt
  | a :: s, b :: t => if a < b then .lt else if b < a then .gt else order s t

/-- A text put between double quotes as it is. -/
def between (quote : Text) (t : Text) : Text := quote ++ t ++ quote

/-- The given number of spaces. -/
def spaces (n : Nat) : Text := List.replicate n (byte ' ')

/-- ASCII letters become small letters; every other byte stays. -/
def lowerAscii (t : Text) : Text :=
  t.map fun b => if byte 'A' ≤ b ∧ b ≤ byte 'Z' then b + 32 else b

/-- ASCII letters become capitals; every other byte stays. -/
def upperAscii (t : Text) : Text :=
  t.map fun b => if byte 'a' ≤ b ∧ b ≤ byte 'z' then b - 32 else b

/-- The pieces of a text between the occurrences of a byte. -/
def splitOn (separator : UInt8) : Text → List Text
  | [] => [[]]
  | b :: t =>
    if b = separator then [] :: splitOn separator t
    else
      match splitOn separator t with
      | [] => [[b]]
      | piece :: rest => (b :: piece) :: rest

/-- Whether one text occurs inside another. -/
def occursIn (part : Text) : Text → Bool
  | [] => part.isEmpty
  | b :: t => part.isPrefixOf (b :: t) || occursIn part t

/-- Whether a byte is an ASCII digit. -/
def isDigit (b : UInt8) : Bool := byte '0' ≤ b && b ≤ byte '9'

/-- Whether a byte may open an identifier: an ASCII letter or an underscore. -/
def opensName (b : UInt8) : Bool :=
  (byte 'a' ≤ b && b ≤ byte 'z') || (byte 'A' ≤ b && b ≤ byte 'Z') || b == byte '_'

/-- Whether a byte may stand inside an identifier. -/
def insideName (b : UInt8) : Bool := opensName b || isDigit b

/-- A text is an identifier when it opens like one and goes on like one. -/
def isIdentifier : Text → Bool
  | [] => false
  | b :: t => opensName b && t.all insideName

/-- The value of a run of decimal digits. -/
def digitsValue (t : Text) : Nat := t.foldl (fun n b => n * 10 + (b - byte '0').toNat) 0

end Text

end EplLang
