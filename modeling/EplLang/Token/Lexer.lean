import EplLang.Fault
import EplLang.Number.Reading
import EplLang.Text.Utf8

/-!
# From source to tokens

Source is read from left to right. Each reader below takes the text that starts
where its token starts and gives the token with the text after it.

* Blanks, tabs, backspaces and carriage returns separate and mean nothing.
* A newline is a token; it ends its line. Newlines inside a block comment are
  tokens too. A comment that is not closed ends with the source.
* A number is a run of digits with at most one point among them; a point at the
  end is not part of its value.
* A string ends at the next double quote and may not contain a bare newline. A
  backslash makes the next byte part of the string, `n` standing for a newline.
  A segment in braces is a piece of source of its own; it holds no brace, so no
  string inside a segment has segments.

The current line grows only with newline tokens. An escaped newline byte in a
string and the newlines of a segment do not move the lines that follow.
-/

set_option autoImplicit false

namespace EplLang

namespace Lexer

open Text (byte isDigit opensName insideName)

/-- A run of source turned into tokens: the tokens, the line that is current
after it, and the text that follows. -/
structure Step where
  tokens : List Token
  line : Int
  rest : Text

/-- A step with one more token in front. -/
def Step.push (t : Token) (step : Step) : Step := { step with tokens := t :: step.tokens }

/-- The fault of a character that cannot stand where it is. -/
def unexpected (line : Int) (shown : Text) : Stop := .fault ⟨line, .unexpectedCharacter shown⟩

/-- Whether a byte separates tokens without being one. -/
def isBlank (b : UInt8) : Bool :=
  b == byte ' ' || b == byte '\t' || b == 0x08 || b == byte '\r'

/-- The class of a mark that is one byte and starts no longer token. -/
def mark? (b : UInt8) : Option Kind :=
  if b = byte '.' then some .dot
  else if b = byte ',' then some .comma
  else if b = byte '#' then some .length
  else if b = byte '[' then some .openBracket
  else if b = byte ']' then some .closeBracket
  else if b = byte '+' then some .plus
  else if b = byte '-' then some .minus
  else if b = byte '*' then some .times
  else if b = byte '^' then some .power
  else if b = byte '(' then some .openParen
  else if b = byte ')' then some .closeParen
  else if b = byte '{' then some .openBrace
  else if b = byte '}' then some .closeBrace
  else none

/-- The classes of a mark alone and of the mark followed by an equals sign. -/
def pair? (b : UInt8) : Option (Kind × Kind) :=
  if b = byte '=' then some (.assign, .equal)
  else if b = byte '!' then some (.not, .notEqual)
  else if b = byte '>' then some (.greater, .greaterEqual)
  else if b = byte '<' then some (.less, .lessEqual)
  else none

/-- The rest of a line: everything before the next newline. -/
def skipLine (t : Text) : Text := t.dropWhile (· != byte '\n')

/-- A block comment after its opening: the newlines in it, and the text after
its end. -/
def blockComment (line : Int) : Text → Step
  | [] => ⟨[], line, []⟩
  | b :: t =>
    if b = byte '*' ∧ t.head? = some (byte '/') then ⟨[], line, t.tail⟩
    else if b = byte '\n' then (blockComment (line + 1) t).push { kind := .newline, line }
    else blockComment line t

/-- The digits and points a number consists of, at most one point; `none` when
a second one follows. -/
def numeral (seenPoint : Bool) : Text → Option (Text × Text)
  | [] => some ([], [])
  | b :: t =>
    if b = byte '.' then
      if seenPoint then none
      else (numeral true t).map fun (word, rest) => (b :: word, rest)
    else if isDigit b then (numeral seenPoint t).map fun (word, rest) => (b :: word, rest)
    else some ([], b :: t)

/-- A numeral without a point at its end. -/
def dropPoint (word : Text) : Text :=
  if word.getLast? = some (byte '.') then word.dropLast else word

/-- A number. -/
def number (line : Int) (t : Text) : Except Stop Step :=
  match numeral false t with
  | none => .error (unexpected line ".")
  | some (word, rest) =>
    match readNumber? (dropPoint word) with
    | none => .error (unexpected line (dropPoint word))
    | some x => .ok ⟨[{ kind := .number x, line }], line, rest⟩

/-- A name, keyword or word for a value. -/
def word (line : Int) (t : Text) : Step :=
  ⟨[Token.ofWord line (t.takeWhile insideName)], line, t.dropWhile insideName⟩

/-- The inside of a string: its text, its segments with their places in that
text, and what follows the closing quote. -/
structure StringBody where
  text : Text
  parts : List (Nat × List Token)
  rest : Text

/-- A string body with one more byte in front of its text. -/
def StringBody.push (b : UInt8) (body : StringBody) : StringBody :=
  { body with
    text := b :: body.text
    parts := body.parts.map fun (offset, tokens) => (offset + 1, tokens) }

/-- A string body with a segment in front of its text. -/
def StringBody.pushPart (tokens : List Token) (body : StringBody) : StringBody :=
  { body with parts := (0, tokens) :: body.parts }

/-- Reads a string after its opening quote. `segment` reads the source of a
segment; `inside` is what has been read of a segment that is still open, last
byte first. -/
def string (segment : Int → Text → Except Stop (List Token)) (line : Int) :
    Option Text → Text → Except Stop StringBody
  | none, [] => .error (unexpected line "EOF")
  | some _, [] => .error (unexpected line "\x7b")
  | some inside, b :: t =>
    if b = byte '{' then .error (unexpected line "\x7b")
    else if b = byte '}' then
      match segment line inside.reverse with
      | .error stop => .error stop
      | .ok tokens => (string segment line none t).map (StringBody.pushPart tokens)
    else string segment line (some (b :: inside)) t
  | none, b :: t =>
    if b = byte '"' then .ok ⟨[], [], t⟩
    else if b = byte '\n' then .error (unexpected line "\\n")
    else if b = byte '\\' then
      match t with
      | [] => .error (unexpected line "\\")
      | c :: u =>
        (string segment line none u).map
          (StringBody.push (if c = byte 'n' then byte '\n' else c))
    else if b = byte '{' then string segment line (some []) t
    else (string segment line none t).map (StringBody.push b)

/-- The token of a string. -/
def StringBody.token (line : Int) (body : StringBody) : Token :=
  { kind := if body.parts.isEmpty then .string else .interpolated
    line
    text := body.text
    parts := body.parts }

/-- Reads what starts with the byte `b`, with `t` after it. -/
def step (segment : Int → Text → Except Stop (List Token)) (line : Int) (b : UInt8) (t : Text) :
    Except Stop Step :=
  if isBlank b then .ok ⟨[], line, t⟩
  else if b = byte '\n' then .ok ⟨[{ kind := .newline, line }], line + 1, t⟩
  else if b = byte '/' then
    if t.head? = some (byte '/') then .ok ⟨[], line, skipLine t⟩
    else if t.head? = some (byte '*') then .ok (blockComment line t.tail)
    else .ok ⟨[{ kind := .divide, line }], line, t⟩
  else if b = byte '"' then
    (string segment line none t).map fun body => ⟨[body.token line], line, body.rest⟩
  else if isDigit b then number line (b :: t)
  else if opensName b then .ok (word line (b :: t))
  else
    match mark? b with
    | some kind => .ok ⟨[{ kind, line }], line, t⟩
    | none =>
      match pair? b with
      | some (single, double) =>
        if t.head? = some (byte '=') then .ok ⟨[{ kind := double, line }], line, t.tail⟩
        else .ok ⟨[{ kind := single, line }], line, t⟩
      | none => .error (unexpected line (Utf8.encodeChar (Char.ofNat b.toNat)))

/-! ## Every step moves forward

Reading ends because each step leaves less text than it was given. -/

theorem length_blockComment (line : Int) (t : Text) :
    (blockComment line t).rest.length ≤ t.length := by
  fun_induction blockComment line t <;> simp_all [Step.push] <;> omega

theorem length_numeral (seenPoint : Bool) (t word rest : Text)
    (h : numeral seenPoint t = some (word, rest)) : word.length + rest.length = t.length := by
  fun_induction numeral seenPoint t generalizing word rest <;> simp_all <;> grind

theorem map_eq_ok {ε α β : Type} {f : α → β} {x : Except ε α} {b : β} (h : x.map f = .ok b) :
    ∃ a, x = .ok a ∧ f a = b := by
  cases x with
  | error e => simp [Except.map] at h
  | ok a => exact ⟨a, rfl, by simpa [Except.map] using h⟩

theorem length_string (segment : Int → Text → Except Stop (List Token)) (line : Int)
    (inside : Option Text) (t : Text) (body : StringBody)
    (h : string segment line inside t = .ok body) : body.rest.length ≤ t.length := by
  fun_induction string segment line inside t generalizing body <;>
    first
    | (obtain ⟨inner, eq, rfl⟩ := map_eq_ok h
       simp_all [StringBody.push, StringBody.pushPart]
       grind)
    | (simp_all <;> grind)

theorem length_number (line : Int) (b : UInt8) (t : Text) (digit : isDigit b = true) (s : Step)
    (h : number line (b :: t) = .ok s) : s.rest.length ≤ t.length := by
  have shape : b ≠ byte '.' := by rintro rfl; simp [isDigit, byte] at digit
  unfold number at h
  split at h
  · simp at h
  · rename_i word rest eq
    have long := length_numeral _ _ _ _ eq
    simp only [numeral, if_neg shape, digit, if_true, Option.map_eq_some_iff] at eq
    obtain ⟨⟨word', rest'⟩, _, pair⟩ := eq
    simp only [Prod.mk.injEq] at pair
    obtain ⟨rfl, rfl⟩ := pair
    split at h
    · simp at h
    · simp only [Except.ok.injEq] at h
      subst h
      simp at long ⊢
      omega

theorem length_dropWhile (p : UInt8 → Bool) (t : Text) : (t.dropWhile p).length ≤ t.length :=
  (List.dropWhile_sublist p).length_le

theorem length_step (segment : Int → Text → Except Stop (List Token)) (line : Int) (b : UInt8)
    (t : Text) (s : Step) (h : step segment line b t = .ok s) : s.rest.length ≤ t.length := by
  unfold step at h
  split at h
  · simp_all; grind
  split at h
  · simp_all; grind
  split at h
  · split at h
    · simp only [Except.ok.injEq] at h
      subst h
      exact length_dropWhile _ _
    · split at h
      · simp only [Except.ok.injEq] at h
        subst h
        exact Nat.le_trans (length_blockComment _ _) (by simp)
      · simp_all; grind
  split at h
  · obtain ⟨body, eq, rfl⟩ := map_eq_ok h
    exact length_string _ _ _ _ _ eq
  split at h
  · exact length_number line b t (by assumption) s h
  split at h
  · rename_i opens
    simp only [Except.ok.injEq] at h
    subst h
    have inside : insideName b = true := by simp [insideName, opens]
    simpa [word, inside] using length_dropWhile insideName t
  split at h
  · simp_all; grind
  split at h
  · split at h
    · simp only [Except.ok.injEq] at h
      subst h
      simp
    · simp_all; grind
  · simp at h

/-! ## The whole source -/

/-- The tokens of a text whose first line is `line`. -/
def tokensFrom (segment : Int → Text → Except Stop (List Token)) (line : Int) :
    Text → Except Stop (List Token)
  | [] => .ok []
  | b :: t =>
    match _h : step segment line b t with
    | .error stop => .error stop
    | .ok s => (tokensFrom segment s.line s.rest).map (s.tokens ++ ·)
termination_by t => t.length
decreasing_by exact Nat.lt_succ_of_le (length_step _ _ _ _ _ _h)

/-- The tokens of a segment. A segment holds no brace, so its strings have no
segments and nothing is asked of the reader of those. -/
def segmentTokens (line : Int) (t : Text) : Except Stop (List Token) :=
  tokensFrom (fun _ _ => .ok []) line t

end Lexer

/-- The tokens of a source text. -/
def lex (source : Text) : Except Stop (List Token) :=
  Lexer.tokensFrom Lexer.segmentTokens 1 source

end EplLang
