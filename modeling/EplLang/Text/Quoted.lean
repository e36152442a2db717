import EplLang.Text.Printable
import EplLang.Text.Utf8

/-!
# Quoted texts in messages

A text shown inside a message stands between double quotes. Printable
characters appear as they are; the quote and the backslash get a backslash;
the common controls get their letter; any other character is written by its
code in hexadecimal, two digits below U+0080, four below U+10000, eight above;
a stray byte is written by its value in two digits.
-/

set_option autoImplicit false

namespace EplLang.Text

/-- The hexadecimal digit of a value below sixteen. -/
def hexDigit (n : Nat) : UInt8 :=
  if n < 10 then byte '0' + n.toUInt8 else byte 'a' + (n - 10).toUInt8

/-- A value in hexadecimal with exactly the given number of digits. -/
def hex : Nat → Nat → Text
  | 0, _ => []
  | width + 1, n => hex width (n / 16) ++ [hexDigit (n % 16)]

/-- The form of one character between double quotes. -/
def quoteChar (c : Char) : Text :=
  if c = '"' then "\\\""
  else if c = '\\' then "\\\\"
  else if isPrintable c then Utf8.encodeChar c
  else
    match c.toNat with
    | 0x07 => "\\a"
    | 0x08 => "\\b"
    | 0x09 => "\\t"
    | 0x0A => "\\n"
    | 0x0B => "\\v"
    | 0x0C => "\\f"
    | 0x0D => "\\r"
    | n =>
      if n < 0x80 then "\\x" ++ hex 2 n
      else if n < 0x10000 then "\\u" ++ hex 4 n
      else "\\U" ++ hex 8 n

/-- The form of one piece between double quotes. -/
def quotePiece : Utf8.Piece → Text
  | .char c => quoteChar c
  | .stray b => "\\x" ++ hex 2 b.toNat

/-- A text as messages show it. -/
def quoted (t : Text) : Text := between "\"" ((Utf8.pieces t).flatMap quotePiece)

/-- A single character as messages show it, between single quotes. -/
def quotedChar (c : Char) : Text :=
  between "'" (if c = '\'' then "\\'" else if c = '"' then "\"" else quoteChar c)

end EplLang.Text
