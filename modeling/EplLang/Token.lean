import EplLang.Number.Layout

/-!
# Tokens

A token is a piece of source with its class, the line it starts on and its
text. Numbers and truth values carry their value in the class; names, keywords
and strings have their content as text; marks have no text of their own.

An interpolated string is one token. Its text is the string with the segments
left out; each segment is a part, with the place in the text where it goes and
the tokens inside its braces.

Besides the classes that occur in source there are two for the logical
operators, which a parsed program uses to name them, one for the end of the
input, and one that stands for everything else.
-/

set_option autoImplicit false

namespace EplLang

/-- The class of a token. -/
inductive Kind where
  | newline
  | plus
  | minus
  | times
  | divide
  | null
  | number (x : Float)
  | string
  | boolean (b : Bool)
  | openParen
  | closeParen
  | power
  | keyword
  | identifier
  | openBrace
  | closeBrace
  | interpolated
  | equal
  | less
  | lessEqual
  | greater
  | greaterEqual
  | notEqual
  | and
  | or
  | not
  | assign
  | openBracket
  | closeBracket
  | comma
  | dot
  | length
  | endOfInput
  | unknown
  deriving DecidableEq

/-- The name of a class in messages and token listings. -/
def Kind.name : Kind → Text
  | .newline => "NEWLINE"
  | .plus => "PLUS"
  | .minus => "MINUS"
  | .times => "MULTIPLY"
  | .divide => "DIVIDE"
  | .null => "NULL"
  | .number _ => "NUMBER"
  | .string => "STRING"
  | .boolean _ => "BOOL"
  | .openParen => "LPAREN"
  | .closeParen => "RPAREN"
  | .power => "POWER"
  | .keyword => "KEYWORD"
  | .identifier => "IDENTIFIER"
  | .openBrace => "LBRACKET"
  | .closeBrace => "RBRACKET"
  | .interpolated => "FSTRING"
  | .equal => "EEQ"
  | .less => "LT"
  | .lessEqual => "LTE"
  | .greater => "GT"
  | .greaterEqual => "GTE"
  | .notEqual => "NQ"
  | .and => "AND"
  | .or => "OR"
  | .not => "NEG"
  | .assign => "EQ"
  | .openBracket => "LSBRACKET"
  | .closeBracket => "RSBRACKET"
  | .comma => "COMMA"
  | .dot => "DOT"
  | .length => "LENGTHOP"
  | .endOfInput => "EOF"
  | .unknown => "UNKNOWN"

/-- A piece of source. -/
structure Token where
  kind : Kind
  line : Int
  text : Text := []
  /-- The segments of an interpolated string: where each goes in the text, and
  the tokens it holds. -/
  parts : List (Nat × List Token) := []

instance : Inhabited Token := ⟨{ kind := .unknown, line := 0 }⟩

namespace Token

/-- The token as messages spell it: the value of a number, truth value or null,
the text of anything else. -/
def spelling (t : Token) : Text :=
  match t.kind with
  | .number x => numberText x
  | .boolean b => if b then "true" else "false"
  | .null => "null"
  | _ => t.text

/-- The words with a meaning of their own in statements and conditions. -/
def keywords : List Text :=
  ["and", "or", "return", "if", "else", "while", "for", "in", "break", "import"]

/-- The token of a word: a value, a keyword, or the name it is. -/
def ofWord (line : Int) (word : Text) : Token :=
  if word = "null" then { kind := .null, line }
  else if word = "true" then { kind := .boolean true, line }
  else if word = "false" then { kind := .boolean false, line }
  else if keywords.contains word then { kind := .keyword, line, text := word }
  else { kind := .identifier, line, text := word }

end Token

end EplLang
