import EplLang.Json.Writer
import EplLang.Number.Reading

/-!
# Tokens of a query

A query is a filter in the notation of jq. Its tokens are words, references such
as `$x`, fields such as `.x`, numerals, formats such as `@json`, marks, and the
parts of strings. A string may have holes, `\(` query `)`, whose tokens stand
between its pieces.

Reading tokens never fails: a text that is no token becomes a token that is
refused wherever it stands, so that the first fault of a query from the left is
the one that is reported.
-/

set_option autoImplicit false

namespace EplLang.Query

open Text (byte isDigit opensName insideName)
open Reading (hexValue?)

/-- A token of a query. -/
inductive Token where
  | word (t : Text)
  | reference (t : Text)
  | field (t : Text)
  | numeral (t : Text)
  | format (t : Text)
  | mark (t : Text)
  /-- The opening quote of a string, with what a message shows for it. -/
  | quote (shown : Text)
  | piece (t : Text)
  /-- The start of a hole in a string. -/
  | hole
  | unquote
  /-- What can stand nowhere, with the complaint about it. -/
  | invalid (complaint : Text)
  deriving DecidableEq

/-- The complaint about a token that cannot stand where it is. -/
def Token.complaint : Token → Text
  | .word t | .reference t | .numeral t | .format t | .mark t | .quote t | .piece t => named t
  | .field t => named (byte '.' :: t)
  | .hole => named "\\("
  | .unquote => named "\""
  | .invalid complaint => complaint
where
  /-- The complaint that shows a text. -/
  named (t : Text) : Text := "unexpected token " ++ (Json.string t).shown

/-- The complaint about a query that ends too early. -/
def endComplaint : Text := "unexpected EOF"

/-- A text that is no token. -/
def Token.refused (t : Text) : Token := .invalid ("invalid token " ++ (Json.string t).shown)

/-! ## Words and numerals -/

/-- Whether a byte is white space between tokens. -/
def isBlank (b : UInt8) : Bool :=
  b == byte ' ' || b == byte '\t' || b == byte '\n' || b == byte '\r'

/-- The name a text starts with, possibly in parts joined by `::`, and the rest. -/
def name : Nat → Text → Text × Text
  | 0, t => ([], t)
  | fuel + 1, t =>
    let first := t.takeWhile insideName
    match t.dropWhile insideName with
    | a :: b :: c :: rest =>
      if a = byte ':' ∧ b = byte ':' ∧ opensName c then
        let (more, rest) := name fuel (c :: rest)
        (first ++ "::" ++ more, rest)
      else (first, a :: b :: c :: rest)
    | rest => (first, rest)

/-- A numeral cut where it can go on no more: if a name goes on there, the text
up to and with its first byte is no token. -/
def endNumeral (t rest : Text) : Token × Text :=
  match rest with
  | b :: more => if opensName b then (.refused (t ++ [b]), more) else (.numeral t, rest)
  | [] => (.numeral t, [])

/-- A numeral from its exponent mark on. -/
def exponent (before : Text) (mark : UInt8) (t : Text) : Token × Text :=
  let (sign, digits) : Text × Text :=
    match t with
    | s :: rest => if s = byte '+' ∨ s = byte '-' then ([s], rest) else ([], t)
    | [] => ([], [])
  let start := before ++ mark :: sign
  match digits with
  | [] => (.refused start, [])
  | d :: rest =>
    if isDigit d then endNumeral (start ++ digits.takeWhile isDigit) (digits.dropWhile isDigit)
    else (.refused (start ++ [d]), rest)

/-- The numeral a text starts with, or what is wrong with it. -/
def numeral (t : Text) : Token × Text :=
  let lead := t.takeWhile isDigit
  let afterPoint (before : Text) (rest : Text) : Token × Text :=
    let start := before ++ rest.takeWhile isDigit
    match rest.dropWhile isDigit with
    | b :: more =>
      if b = byte '.' then (.refused (start ++ [b]), more)
      else if b = byte 'e' ∨ b = byte 'E' then exponent start b more
      else endNumeral start (b :: more)
    | [] => (.numeral start, [])
  match t.dropWhile isDigit with
  | b :: more =>
    if b = byte '.' then afterPoint (lead ++ [b]) more
    else if b = byte 'e' ∨ b = byte 'E' then exponent lead b more
    else endNumeral lead (b :: more)
  | [] => (.numeral lead, [])

/-! ## Strings -/

/-- What ends a piece of a string. -/
inductive PieceEnd where
  | quote
  | hole
  | invalid (complaint : Text)

/-- The value of four hexadecimal digits. -/
def unit? : Text → Option Nat
  | [a, b, c, d] => do
    return (((← hexValue? a) * 16 + (← hexValue? b)) * 16 + (← hexValue? c)) * 16 + (← hexValue? d)
  | _ => none

/-- The bytes of a character given by its code; a code without a character gives
the replacement character. -/
def coded (n : Nat) : Text :=
  if n < 0xD800 ∨ (0xDFFF < n ∧ n ≤ 0x10FFFF) then Utf8.encodeChar (Char.ofNat n)
  else Utf8.encodeChar Utf8.replacement

/-- The character of an escape with a letter. -/
def escaped? (b : UInt8) : Option UInt8 :=
  if b = byte '"' ∨ b = byte '/' ∨ b = byte '\\' then some b
  else if b = byte 'b' then some 0x08
  else if b = byte 'f' then some 0x0C
  else if b = byte 'n' then some 0x0A
  else if b = byte 'r' then some 0x0D
  else if b = byte 't' then some 0x09
  else none

/-- The complaint about an escape that means nothing. -/
def escapeComplaint (t : Text) : Text :=
  "invalid escape sequence " ++ (Json.string t).shown ++ " in string literal"

/-- The complaint about a string without an end. -/
def unterminated : Text := "unterminated string literal"

/-- The content of a string up to its next hole or its end, what ends it, and the
rest. -/
def content : Nat → Text → Text × PieceEnd × Text
  | 0, _ => ([], .invalid unterminated, [])
  | _, [] => ([], .invalid unterminated, [])
  | fuel + 1, b :: t =>
    let more (first : Text) (t : Text) : Text × PieceEnd × Text :=
      let (text, ending, rest) := content fuel t
      (first ++ text, ending, rest)
    if b = byte '"' then ([], .quote, t)
    else if b ≠ byte '\\' then more [b] t
    else
      match t with
      | [] => ([], .invalid unterminated, [])
      | e :: t =>
        if e = byte '(' then ([], .hole, t)
        else if e = byte 'u' then
          match unit? (t.take 4) with
          | none =>
            let digits := (t.take 4).takeWhile fun d => (hexValue? d).isSome
            ([], .invalid (escapeComplaint (b :: e :: t.take (digits.length + 1))), [])
          | some high =>
            let rest := t.drop 4
            match unit? ((rest.drop 2).take 4) with
            | some low =>
              if 0xD800 ≤ high ∧ high ≤ 0xDBFF ∧ 0xDC00 ≤ low ∧ low ≤ 0xDFFF ∧
                  rest.take 2 = "\\u" then
                more (coded (0x10000 + (high - 0xD800) * 0x400 + (low - 0xDC00))) (rest.drop 6)
              else more (coded high) rest
            | none => more (coded high) rest
        else
          match escaped? e with
          | some c => more [c] t
          | none => ([], .invalid (escapeComplaint [b, e]), t)

/-! ## All tokens -/

/-- The marks of more than one byte, longer ones first. -/
def longMarks : List Text :=
  ["?//", "//=", "..", "|=", "+=", "-=", "*=", "/=", "%=", "==", "!=", ">=", "<=", "//"]

/-- The tokens of a piece of a string with what ends it. -/
def pieceTokens (text : Text) (ending : PieceEnd) : List Token :=
  (if text.isEmpty then [] else [.piece text]) ++
    match ending with
    | .quote => [.unquote]
    | .hole => [.hole]
    | .invalid complaint => [.invalid complaint]

/-- The tokens of a query. `depths` has, for each hole that is open, the number
of brackets open inside it. -/
def tokensFrom : Nat → List Nat → Text → List Token
  | 0, _, _ => []
  | _, _, [] => []
  | fuel + 1, depths, b :: t =>
    let all := b :: t
    let inString (depths : List Nat) (t : Text) : List Token :=
      let (text, ending, rest) := content (t.length + 1) t
      let depths :=
        match ending with
        | .hole => 0 :: depths
        | _ => depths
      pieceTokens text ending ++ tokensFrom fuel depths rest
    if isBlank b then tokensFrom fuel depths t
    else if b = byte '#' then tokensFrom fuel depths (t.dropWhile (· != byte '\n'))
    else if opensName b then
      let (word, rest) := name all.length all
      .word word :: tokensFrom fuel depths rest
    else if isDigit b ∨ (b = byte '.' ∧ t.head?.any isDigit) then
      let (token, rest) := numeral all
      token :: tokensFrom fuel depths rest
    else if b = byte '.' ∧ t.head?.any opensName then
      .field (t.takeWhile insideName) :: tokensFrom fuel depths (t.dropWhile insideName)
    else if b = byte '$' ∧ t.head?.any opensName then
      let (word, rest) := name t.length t
      .reference (b :: word) :: tokensFrom fuel depths rest
    else if b = byte '@' ∧ t.head?.any insideName then
      .format (b :: t.takeWhile insideName) :: tokensFrom fuel depths (t.dropWhile insideName)
    else if b = byte '"' then
      let (_, ending, rest) := content (t.length + 1) t
      let shown :=
        match ending with
        | .quote => all.take (all.length - rest.length)
        | _ => [b]
      match ending with
      | .invalid complaint => .invalid complaint :: tokensFrom fuel depths rest
      | _ => .quote shown :: inString depths t
    else
      match longMarks.find? (·.isPrefixOf all) with
      | some mark => .mark mark :: tokensFrom fuel depths (all.drop mark.length)
      | none =>
        if b = byte '(' then
          let depths :=
            match depths with
            | d :: ds => (d + 1) :: ds
            | [] => []
          .mark [b] :: tokensFrom fuel depths t
        else if b = byte ')' then
          match depths with
          | 0 :: ds => .mark [b] :: inString ds t
          | (d + 1) :: ds => .mark [b] :: tokensFrom fuel (d :: ds) t
          | [] => .mark [b] :: tokensFrom fuel [] t
        else if b < 0x80 then .mark [b] :: tokensFrom fuel depths t
        else
          let size :=
            match Utf8.leadChar b t with
            | some (_, more) => more
            | none => 0
          .refused (b :: t.take size) :: tokensFrom fuel depths (t.drop size)

/-- The tokens of a query. -/
def tokens (t : Text) : List Token := tokensFrom (t.length + 1) [] t

end EplLang.Query
