import EplLang.Text.Utf8

/-!
# White space and words

White space here is the Unicode property of the same name: tab, line feed,
vertical tab, form feed, carriage return, space, next line, no-break space, and
the spaces and separators above Latin 1. A word is a longest run of bytes that
holds none of it; stray bytes belong to words.

`wrap` breaks a text into lines of a given width in bytes: words are taken one
after another onto the current line as long as they fit.
-/

set_option autoImplicit false

namespace EplLang.Text

/-- Whether a character is white space. -/
def isSpace (c : Char) : Bool :=
  let n := c.toNat
  (0x09 ≤ n && n ≤ 0x0D) || n == 0x20 || n == 0x85 || n == 0xA0 || n == 0x1680 ||
    (0x2000 ≤ n && n ≤ 0x200A) || n == 0x2028 || n == 0x2029 || n == 0x202F || n == 0x205F ||
    n == 0x3000

/-- Whether a piece is white space; a stray byte is not. -/
def isBlankPiece : Utf8.Piece → Bool
  | .char c => isSpace c
  | .stray _ => false

/-- A text without the white space at its two ends. -/
def trim (t : Text) : Text :=
  let inner := ((Utf8.pieces t).dropWhile isBlankPiece).reverse.dropWhile isBlankPiece
  inner.reverse.flatMap Utf8.Piece.bytes

/-- The words in a list of pieces, `word` being the bytes of a word already
begun, last byte first. -/
def wordsFrom (word : Text) : List Utf8.Piece → List Text
  | [] => if word.isEmpty then [] else [word.reverse]
  | piece :: rest =>
    if isBlankPiece piece then
      if word.isEmpty then wordsFrom [] rest else word.reverse :: wordsFrom [] rest
    else wordsFrom (piece.bytes.reverse ++ word) rest

/-- The words of a text in order. -/
def words (t : Text) : List Text := wordsFrom [] (Utf8.pieces t)

/-- Lines of at most `width` bytes out of words, `line` being the line begun. -/
def fill (width : Nat) (line : Text) : List Text → List Text
  | [] => [line]
  | word :: rest =>
    if width < line.length + 1 + word.length then line :: fill width word rest
    else fill width (line ++ byte ' ' :: word) rest

/-- The least width a text is broken to. -/
def leastWidth : Nat := 20

/-- The text broken into lines of at most `width` bytes, but never narrower
than `leastWidth`; a longer word has a line of its own. -/
def wrap (t : Text) (width : Int) : List Text :=
  match words t with
  | [] => []
  | word :: rest => fill (max width.toNat leastWidth) word rest

end EplLang.Text
