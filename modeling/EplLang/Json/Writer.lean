import EplLang.Json
import EplLang.Text.Quoted

/-!
# JSON texts

Data is written in one of two layouts: on one line without blanks, or with every
item and every field on a line of its own, indented by two spaces for each
level. A list or record without parts is a pair of brackets in both.

What differs between the places that show data is a `Style`. Exported texts
escape `<`, `>`, `&` and the two Unicode line separators too, so that they can
stand inside a page or a program; they hold the replacement character for a stray
byte, and a number that is not finite cannot be written at all. Messages about
data escape only what a string must not hold, and write such numbers as the
nearest thing to them.
-/

set_option autoImplicit false

namespace EplLang.Json

/-- What differs between written forms. -/
structure Style where
  /-- Whether a character is written by its code. -/
  byCode : Char → Bool
  /-- What a stray byte is written as. -/
  stray : Text
  /-- What stands for a number that is not finite, if anything does. -/
  nan : Option Text
  infinite : Bool → Option Text

namespace Style

/-- The style of exported texts. -/
def exported : Style where
  byCode c := c.toNat < 0x20 || c ∈ ['<', '>', '&'] || c.toNat == 0x2028 || c.toNat == 0x2029
  stray := Utf8.encodeChar Utf8.replacement
  nan := none
  infinite _ := none

/-- The style of data in messages and in texts made from data. -/
def lenient : Style where
  byCode c := c.toNat < 0x20 || c.toNat == 0x7F
  stray := "\\ufffd"
  nan := some "null"
  infinite negative :=
    some (if negative then "-1.7976931348623157e+308" else "1.7976931348623157e+308")

/-- One character inside a written string. -/
def char (style : Style) (c : Char) : Text :=
  match c.toNat with
  | 0x22 => "\\\""
  | 0x5C => "\\\\"
  | 0x08 => "\\b"
  | 0x0C => "\\f"
  | 0x0A => "\\n"
  | 0x0D => "\\r"
  | 0x09 => "\\t"
  | n => if style.byCode c then "\\u" ++ Text.hex 4 n else Utf8.encodeChar c

/-- One piece inside a written string. -/
def piece (style : Style) : Utf8.Piece → Text
  | .char c => style.char c
  | .stray _ => style.stray

/-- A string as it is written. -/
def string (style : Style) (t : Text) : Text :=
  Text.between "\"" ((Utf8.pieces t).flatMap style.piece)

/-- The numeral of a number; without one, the number's name is the complaint. -/
def number (style : Style) (x : Float) : Except Text Text :=
  match Binary64.decode x with
  | .finite .. => .ok (Layout.json.number x)
  | .nan =>
    match style.nan with
    | some t => .ok t
    | none => .error "NaN"
  | .infinite negative =>
    match style.infinite negative with
    | some t => .ok t
    | none => .error (if negative then "-Inf" else "+Inf")

end Style

/-- A list or record between its brackets. Given a depth, each part is on a line
of its own. -/
def bracketed (opening closing : Text) (depth : Option Nat) (parts : List Text) : Text :=
  match depth, parts with
  | _, [] => opening ++ closing
  | none, parts => opening ++ Text.join "," parts ++ closing
  | some level, parts =>
    let line : Text := "\n" ++ Text.spaces (2 * (level + 1))
    opening ++ line ++ Text.join ("," ++ line) parts ++ "\n" ++ Text.spaces (2 * level) ++ closing

/-- What stands between the name of a field and its value. -/
def separator (depth : Option Nat) : Text := if depth.isSome then ": " else ":"

mutual

/-- The text of data: on one line, or indented from a depth on. The name of the
first number without a numeral is the complaint. -/
def write (style : Style) (depth : Option Nat) : Json → Except Text Text
  | .null => .ok "null"
  | .boolean b => .ok (if b then "true" else "false")
  | .whole n => .ok (Text.ofInt n)
  | .number x => style.number x
  | .string t => .ok (style.string t)
  | .array items => do
    return bracketed "[" "]" depth (← writeItems style (depth.map (· + 1)) items)
  | .object fields => do
    return bracketed "\x7b" "\x7d" depth (← writeFields style (depth.map (· + 1)) fields)

/-- The texts of the items of a list. -/
def writeItems (style : Style) (depth : Option Nat) : List Json → Except Text (List Text)
  | [] => .ok []
  | item :: rest => do
    let text ← write style depth item
    return text :: (← writeItems style depth rest)

/-- The texts of the fields of a record. -/
def writeFields (style : Style) (depth : Option Nat) :
    List (Text × Json) → Except Text (List Text)
  | [] => .ok []
  | (name, value) :: rest => do
    let text ← write style depth value
    return (style.string name ++ separator depth ++ text) :: (← writeFields style depth rest)

end

/-- The exported text of data on one line. -/
def compact (j : Json) : Except Text Text := j.write .exported none

/-- The exported text of data over several lines. -/
def indented (j : Json) : Except Text Text := j.write .exported (some 0)

/-- The text of data on one line as messages show it. This style has a numeral
for every number. -/
def shown (j : Json) : Text :=
  match j.write .lenient none with
  | .ok t => t
  | .error t => t

end EplLang.Json
