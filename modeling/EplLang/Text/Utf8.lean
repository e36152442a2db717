import EplLang.Text.Basic

/-!
# Characters of a byte string

A text is read as UTF-8 from left to right. Where a well-formed sequence
starts it is one character; any other byte stands alone and is a stray byte.
The reading never fails: a text is valid when it has no stray byte, and a stray
byte counts as the replacement character U+FFFD where a character is asked for.

Well-formed means the shortest encoding of a scalar value: no overlong forms,
no surrogates, nothing above U+10FFFF.
-/

set_option autoImplicit false

namespace EplLang.Utf8

/-- What a text is read as, one piece at a time. -/
inductive Piece where
  | char (c : Char)
  | stray (b : UInt8)
  deriving DecidableEq, Repr

/-- The character that stands for a byte outside every well-formed sequence. -/
def replacement : Char := Char.ofNat 0xFFFD

/-- The character of a piece. -/
def Piece.toChar : Piece → Char
  | .char c => c
  | .stray _ => replacement

/-- Whether a byte continues a sequence. -/
def isContinuation (b : UInt8) : Bool := 0x80 ≤ b && b ≤ 0xBF

/-- The payload of a continuation byte. -/
def tail (b : UInt8) : Nat := b.toNat - 0x80

/-- The character that starts with the byte `a`, when a well-formed sequence
starts there, and the number of bytes of `rest` it takes. -/
def leadChar (a : UInt8) (rest : Text) : Option (Char × Nat) :=
  if a < 0x80 then some (Char.ofNat a.toNat, 0)
  else if 0xC2 ≤ a && a ≤ 0xDF then
    match rest with
    | b :: _ =>
      if isContinuation b then some (Char.ofNat ((a.toNat - 0xC0) * 64 + tail b), 1) else none
    | _ => none
  else if 0xE0 ≤ a && a ≤ 0xEF then
    match rest with
    | b :: c :: _ =>
      let least : UInt8 := if a = 0xE0 then 0xA0 else 0x80
      let greatest : UInt8 := if a = 0xED then 0x9F else 0xBF
      if least ≤ b && b ≤ greatest && isContinuation c then
        some (Char.ofNat (((a.toNat - 0xE0) * 64 + tail b) * 64 + tail c), 2)
      else none
    | _ => none
  else if 0xF0 ≤ a && a ≤ 0xF4 then
    match rest with
    | b :: c :: d :: _ =>
      let least : UInt8 := if a = 0xF0 then 0x90 else 0x80
      let greatest : UInt8 := if a = 0xF4 then 0x8F else 0xBF
      if least ≤ b && b ≤ greatest && isContinuation c && isContinuation d then
        some (Char.ofNat ((((a.toNat - 0xF0) * 64 + tail b) * 64 + tail c) * 64 + tail d), 3)
      else none
    | _ => none
  else none

/-- The pieces of a text, the first `skip` bytes already belonging to an
earlier character. -/
def piecesAfter : Nat → Text → List Piece
  | _, [] => []
  | skip + 1, _ :: t => piecesAfter skip t
  | 0, a :: t =>
    match leadChar a t with
    | some (c, more) => .char c :: piecesAfter more t
    | none => .stray a :: piecesAfter 0 t

/-- The pieces of a text. -/
def pieces (t : Text) : List Piece := piecesAfter 0 t

/-- The characters of a text, stray bytes replaced. -/
def chars (t : Text) : List Char := (pieces t).map Piece.toChar

/-- The number of characters of a text, a stray byte counting as one. -/
def count (t : Text) : Nat := (pieces t).length

/-- Whether a text has no stray byte. -/
def isValid (t : Text) : Bool :=
  (pieces t).all fun
    | .char _ => true
    | .stray _ => false

/-- The encoding of one character. -/
def encodeChar (c : Char) : Text := String.utf8EncodeChar c

/-- The encoding of a list of characters. -/
def encode (cs : List Char) : Text := cs.flatMap encodeChar

/-- The bytes a piece was read from. -/
def Piece.bytes : Piece → Text
  | .char c => encodeChar c
  | .stray b => [b]

end EplLang.Utf8
