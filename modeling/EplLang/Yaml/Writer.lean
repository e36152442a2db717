import EplLang.Text.Quoted
import EplLang.Yaml.Plain

/-!
# YAML texts

A document is written in block style: a mapping has one line per entry, a
sequence one line with a dash per item, and what is inside another is indented
by two spaces. Only a collection without parts is written with brackets.

A string is written in the first of these styles that its content allows:
without quotes, between single quotes, between double quotes. A string that
would denote something else without quotes is put between double quotes. A
string with a line feed is written literally, line by line, or between double
quotes when that would lose something.

Strings must be valid UTF-8.
-/

set_option autoImplicit false

namespace EplLang

open Text (byte)

/-- A document. A token is a scalar that is written as it is. -/
inductive Yaml where
  | token (t : Text)
  | string (t : Text)
  | sequence (items : List Yaml)
  | mapping (entries : List (Text × Yaml))

namespace Yaml

/-! ## The content of a string -/

/-- The line breaks: line feed, carriage return, next line, and the two Unicode
separators. -/
def isBreak (c : Char) : Bool :=
  c.toNat == 0x0A || c.toNat == 0x0D || c.toNat == 0x85 || c.toNat == 0x2028 || c.toNat == 0x2029

/-- Whether a character can be written outside double quotes. Beyond ASCII these
are the characters of the basic plane but for the byte order mark. -/
def isDirect (c : Char) : Bool :=
  let n := c.toNat
  n == 0x0A || (0x20 ≤ n && n ≤ 0x7E) || (0xA0 ≤ n && n ≤ 0xFFFD && n != 0xFEFF)

/-- Whether a character is a space or a tab. -/
def isBlank (c : Char) : Bool := c == ' ' || c == '\t'

/-- The characters that mean something else at the start of a scalar. -/
def openers : List Char :=
  ['#', ',', '[', ']', '\x7b', '\x7d', '&', '*', '!', '|', '>', '\'', '"', '%', '@', '\x60']

/-- Whether a list of characters has two neighbours with a property. -/
def hasNeighbours (p : Char → Char → Bool) : List Char → Bool
  | a :: b :: rest => p a b || hasNeighbours p (b :: rest)
  | _ => false

/-- Whether the start of a scalar reads as something else. -/
def opensBadly (cs : List Char) : Bool :=
  ['-', '-', '-'].isPrefixOf cs || ['.', '.', '.'].isPrefixOf cs ||
    match cs with
    | [] => false
    | c :: rest =>
      c ∈ openers ||
        ((c == '?' || c == ':' || c == '-') &&
          match rest with
          | [] => true
          | next :: _ => isBlank next)

/-- Whether a scalar holds, after its start, what ends a scalar: a colon before
a blank or at the end, or a hash after white space. -/
def holdsMark (cs : List Char) : Bool :=
  (1 < cs.length && cs.getLast? == some ':') ||
    hasNeighbours (fun a b => a == ':' && isBlank b) cs ||
    hasNeighbours (fun a b => (isBlank a || isBreak a) && b == '#') cs

/-- What the content of a string forbids. -/
structure Content where
  /-- It goes over several lines. -/
  multiline : Bool
  /-- It cannot stand without quotes. -/
  needsQuotes : Bool
  /-- It cannot stand between single quotes. -/
  needsEscapes : Bool
  /-- It cannot be written literally. -/
  needsOneLine : Bool

/-- What a string forbids. -/
def content (cs : List Char) : Content :=
  let atEnds (p : Char → Bool) := cs.head?.any p || cs.getLast?.any p
  let multiline := cs.any isBreak
  let special := cs.any fun c => c != '\t' && !isDirect c
  let spaceBreak := hasNeighbours (fun a b => a == ' ' && isBreak b) cs
  let breakSpace := hasNeighbours (fun a b => isBreak a && b == ' ') cs
  let needsEscapes := breakSpace || spaceBreak || special || cs.contains '\t'
  { multiline
    needsEscapes
    needsQuotes :=
      multiline || needsEscapes || atEnds (fun c => c == ' ' || isBreak c) || opensBadly cs ||
        holdsMark cs
    needsOneLine := cs.getLast? == some ' ' || spaceBreak || special }

/-! ## The styles -/

/-- The letter of an escape, for the characters that have one. -/
def escapeLetter? (c : Char) : Option Char :=
  match c.toNat with
  | 0x00 => some '0'
  | 0x07 => some 'a'
  | 0x08 => some 'b'
  | 0x09 => some 't'
  | 0x0A => some 'n'
  | 0x0B => some 'v'
  | 0x0C => some 'f'
  | 0x0D => some 'r'
  | 0x1B => some 'e'
  | 0x22 => some '"'
  | 0x5C => some '\\'
  | 0x85 => some 'N'
  | 0x2028 => some 'L'
  | 0x2029 => some 'P'
  | _ => none

/-- A character between double quotes. -/
def escapeChar (c : Char) : Text :=
  match escapeLetter? c with
  | some letter => "\\" ++ Utf8.encodeChar letter
  | none =>
    if isDirect c then Utf8.encodeChar c
    else if c.toNat ≤ 0xFF then "\\x" ++ Text.upperAscii (Text.hex 2 c.toNat)
    else if c.toNat ≤ 0xFFFF then "\\u" ++ Text.upperAscii (Text.hex 4 c.toNat)
    else "\\U" ++ Text.upperAscii (Text.hex 8 c.toNat)

/-- A string between double quotes. -/
def doubleQuoted (cs : List Char) : Text := Text.between "\"" (cs.flatMap escapeChar)

/-- Characters written line by line: after a break the line is indented, unless
the next character is a break too. -/
def lines (indent : Nat) (char : Char → Text) : Bool → List Char → Text
  | _, [] => []
  | atStart, c :: rest =>
    if isBreak c then char c ++ lines indent char true rest
    else (if atStart then Text.spaces indent else []) ++ char c ++ lines indent char false rest

/-- A string between single quotes, in which a quote is doubled. -/
def singleQuoted (indent : Nat) (cs : List Char) : Text :=
  let char (c : Char) : Text := if c = '\'' then "''" else Utf8.encodeChar c
  Text.between "'" (lines indent char false cs)

/-- How the end of a literal string is told: nothing for one line feed, a minus
for none, a plus for several. -/
def endMark (cs : List Char) : Text :=
  match cs.reverse with
  | [] => "-"
  | [c] => if isBreak c then "+" else "-"
  | last :: before :: _ => if !isBreak last then "-" else if isBreak before then "+" else []

/-- A string written literally. An opening space or break needs the indentation
told, and an opening break ends the line of the bar. -/
def literal (indent : Nat) (cs : List Char) : Text :=
  let opensBlank := cs.head?.any fun c => c == ' ' || isBreak c
  let opensBreak := cs.head?.any isBreak
  let indentMark : Text := if opensBlank then "2" else []
  let lineEnd : Text := if opensBreak then [] else "\n"
  "|" ++ indentMark ++ endMark cs ++ lineEnd ++ lines indent Utf8.encodeChar true cs

/-- Whether a string would denote something else without quotes. -/
def isAmbiguous (t : Text) : Bool :=
  match plain t with
  | .string => false
  | _ => true

/-- A string in the style that its content calls for. What goes over several
lines is indented; as a key before a colon a string is on one line. -/
def scalar (indent : Nat) (t : Text) (asKey : Bool) : Text :=
  let cs := Utf8.chars t
  let shape := content cs
  if asKey && shape.multiline then doubleQuoted cs
  else if cs.contains '\n' then
    if shape.needsOneLine || asKey then doubleQuoted cs else literal indent cs
  else if isAmbiguous t then doubleQuoted cs
  else if !shape.needsQuotes then t
  else if !shape.needsEscapes then singleQuoted indent cs
  else doubleQuoted cs

/-! ## Collections -/

/-- The length in bytes up to which a key stands before its colon. -/
def longestKey : Nat := 128

/-- Whether a key stands on one line before its colon. -/
def isSimpleKey (t : Text) : Bool :=
  !(Utf8.chars t).any isBreak && t.length ≤ longestKey

/-- The next line at an indentation, after a text that may have ended its line. -/
def nextLine (indent : Nat) (t : Text) : Text :=
  (if t.getLast? = some (byte '\n') then t else t ++ "\n") ++ Text.spaces indent

/-- Parts on lines of their own at an indentation. -/
def stacked (indent : Nat) : List Text → Text
  | [] => []
  | [part] => part
  | part :: next :: rest => nextLine indent part ++ stacked indent (next :: rest)

mutual

/-- What is written after a mark at an indentation: a dash, or the colon of a
key. A collection starts on a line of its own if `below` says so. -/
def after (indent : Nat) (below : Bool) : Yaml → Text
  | .token t => " " ++ t
  | .string t => " " ++ scalar (indent + 2) t false
  | .sequence [] => " []"
  | .mapping [] => " \x7b\x7d"
  | .sequence (item :: rest) =>
    (if below then nextLine (indent + 2) [] else " ") ++
      stacked (indent + 2) (items (indent + 2) (item :: rest))
  | .mapping (entry :: rest) =>
    (if below then nextLine (indent + 2) [] else " ") ++
      stacked (indent + 2) (entries (indent + 2) (entry :: rest))

/-- The items of a sequence, each after its dash. -/
def items (indent : Nat) : List Yaml → List Text
  | [] => []
  | item :: rest => ("-" ++ after indent false item) :: items indent rest

/-- The entries of a mapping. A key that is not simple has a question mark before
it and its colon on the next line. -/
def entries (indent : Nat) : List (Text × Yaml) → List Text
  | [] => []
  | (key, value) :: rest =>
    (if isSimpleKey key then
      scalar (indent + 2) key true ++ ":" ++ after indent true value
    else
      nextLine indent ("? " ++ scalar (indent + 2) key false) ++ ":" ++ after indent false value) ::
      entries indent rest

end

mutual

/-- Whether every string of a document is valid UTF-8. -/
def isValid : Yaml → Bool
  | .token _ => true
  | .string t => Utf8.isValid t
  | .sequence items => areValid items
  | .mapping entries => haveValid entries

/-- Whether every string of the items is valid. -/
def areValid : List Yaml → Bool
  | [] => true
  | item :: rest => isValid item && areValid rest

/-- Whether every string of the entries is valid. -/
def haveValid : List (Text × Yaml) → Bool
  | [] => true
  | (key, value) :: rest => Utf8.isValid key && isValid value && haveValid rest

end

/-- The text of a mapping as a whole document, if its strings are valid. -/
def document? (all : List (Text × Yaml)) : Option Text :=
  if !haveValid all then none
  else
    match all with
    | [] => some "\x7b\x7d\n"
    | all => some (nextLine 0 (stacked 0 (entries 0 all)))

end Yaml

end EplLang
