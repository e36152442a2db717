import EplLang.Yaml.Plain
import EplLang.Text.Utf8

/-!
# Reading YAML documents

The reader takes the first document of a text: mappings and sequences in block
style or between brackets, scalars without quotes, between quotes, or as blocks.
It keeps what is needed to understand settings: the line of every part, the text
of scalars, and whether they stood between quotes. The items of a sequence are
read and dropped.

A text that is no document is refused with a problem and the line it is reported
at. A problem inside something that was opened is reported at the line where that
was opened, unless it is the first line; on the first line no line is named. What
goes wrong with the characters of a text is reported counting lines from one, and
what goes wrong with its parts counting from zero.
-/

set_option autoImplicit false

namespace EplLang.Yaml

open Text (byte)

/-- A part of a document as it was written, with its line counted from one. -/
inductive Written where
  | scalar (line : Nat) (text : Text) (quoted : Bool)
  | sequence (line : Nat)
  | mapping (line : Nat) (entries : List (Written × Written))

/-- The line of a part. -/
def Written.line : Written → Nat
  | .scalar line .. | .sequence line | .mapping line _ => line

/-- Why a text is no document. -/
structure Refusal where
  line : Option Nat
  problem : Text

namespace Refusal

/-- The message of a refusal. -/
def message (r : Refusal) : Text :=
  let place : Text :=
    match r.line with
    | some n => "line " ++ Text.ofNat n ++ ": "
    | none => []
  "yaml: " ++ place ++ r.problem

/-- The line a problem counts for: where its surroundings were opened, unless
that is the first line. -/
def reported (opened here : Nat) : Option Nat :=
  let line := if opened = 0 then here else opened
  if line = 0 then none else some line

/-- A problem with characters, in something opened at a line. -/
def ofCharacters (opened here : Nat) (problem : String) : Refusal :=
  ⟨(reported opened here).map (· + 1), problem⟩

/-- A problem with parts, in something opened at a line. -/
def ofParts (opened here : Nat) (problem : String) : Refusal := ⟨reported opened here, problem⟩

end Refusal

/-- A place in a text: what follows, and the line and column counted from zero. -/
structure Cursor where
  rest : Text
  line : Nat := 0
  column : Nat := 0

namespace Cursor

/-- The place after one byte more. -/
def next (c : Cursor) : Cursor :=
  match c.rest with
  | [] => c
  | b :: rest =>
    if b = byte '\n' then ⟨rest, c.line + 1, 0⟩ else ⟨rest, c.line, c.column + 1⟩

/-- The place after some bytes more. -/
def skip (c : Cursor) : Nat → Cursor
  | 0 => c
  | n + 1 => c.next.skip n

/-- The next byte. -/
def head? (c : Cursor) : Option UInt8 := c.rest.head?

/-- Whether a given character is next. -/
def startsWith (c : Cursor) (char : Char) : Bool := c.head? == some (byte char)

/-- Whether a text is blank where it starts: it ends there, or goes on with a
space, a tab or a break. -/
def isBlankHead : Text → Bool
  | [] => true
  | b :: _ => b == byte ' ' || b == byte '\t' || b == byte '\n'

/-- Whether a character and then a blank are next. -/
def startsWithMark (c : Cursor) (char : Char) : Bool :=
  c.startsWith char && isBlankHead (c.rest.drop 1)

/-- Whether a line of three given characters is next. -/
def atRule (c : Cursor) (rule : Text) : Bool :=
  c.column == 0 && rule.isPrefixOf c.rest && isBlankHead (c.rest.drop 3)

/-- Whether the document ends here. -/
def atEnd (c : Cursor) : Bool := c.rest.isEmpty || c.atRule "---" || c.atRule "..."

/-- Passes over blanks, breaks and comments. A tab counts as a blank only if
`tabs` allows it or something stands before it on its line. -/
def toToken (tabs : Bool) : Nat → Bool → Cursor → Cursor
  | 0, _, c => c
  | fuel + 1, lineStart, c =>
    match c.rest with
    | [] => c
    | b :: _ =>
      if b = byte ' ' then toToken tabs fuel lineStart c.next
      else if b = byte '\t' ∧ (tabs || !lineStart) then toToken tabs fuel lineStart c.next
      else if b = byte '\n' then toToken tabs fuel true c.next
      else if b = byte '#' then
        toToken tabs fuel lineStart (c.skip (c.rest.takeWhile (· != byte '\n')).length)
      else c

/-- The next token of a block. -/
def token (c : Cursor) : Cursor := c.toToken false (c.rest.length + 1) (c.column == 0)

/-- The next token between brackets. -/
def flowToken (c : Cursor) : Cursor := c.toToken true (c.rest.length + 1) false

/-- Passes over the blanks of a line. -/
def overBlanks (c : Cursor) : Cursor :=
  c.skip (c.rest.takeWhile fun b => b == byte ' ' || b == byte '\t').length

end Cursor

/-! ## Scalars -/

/-- Breaks between two pieces of a scalar that goes over lines: one is a space,
of more than one all but the first stay. -/
def folded (breaks : Nat) : Text :=
  if breaks = 1 then " " else List.replicate (breaks - 1) (byte '\n')

/-- What separates two pieces of a scalar: its blanks, or its folded breaks. -/
def gap (blanks : Text) (breaks : Nat) : Text := if breaks = 0 then blanks else folded breaks

/-- Whether a byte has a meaning of its own between brackets. -/
def isFlowMark (b : UInt8) : Bool :=
  b == byte ',' || b == byte '[' || b == byte ']' || b == byte '\x7b' || b == byte '\x7d'

/-- Whether a scalar without quotes ends before these bytes. -/
def endsPlain (flow : Bool) : Text → Bool
  | [] => true
  | b :: rest =>
    Cursor.isBlankHead (b :: rest) ||
      (b == byte ':' && (Cursor.isBlankHead rest || (flow && rest.head?.any isFlowMark))) ||
      (flow && isFlowMark b)

/-- The bytes up to where a piece of a scalar without quotes ends. -/
def plainPiece (flow : Bool) : Text → Text
  | [] => []
  | b :: rest => if endsPlain flow (b :: rest) then [] else b :: plainPiece flow rest

/-- Blanks and breaks: the blanks on the first line, the number of breaks, and
what follows. A tab in the indentation of a later line is refused. -/
def blanksAndBreaks (opened indent : Nat) : Nat → Text → Nat → Cursor →
    Except Refusal (Text × Nat × Cursor)
  | 0, blanks, breaks, c => .ok (blanks.reverse, breaks, c)
  | fuel + 1, blanks, breaks, c =>
    match c.rest with
    | [] => .ok (blanks.reverse, breaks, c)
    | b :: _ =>
      if b = byte '\n' then blanksAndBreaks opened indent fuel blanks (breaks + 1) c.next
      else if b = byte ' ' ∨ b = byte '\t' then
        if 0 < breaks ∧ c.column < indent ∧ b = byte '\t' then
          .error (.ofCharacters opened c.line "found a tab character that violates indentation")
        else
          blanksAndBreaks opened indent fuel (if breaks = 0 then b :: blanks else blanks) breaks c.next
      else .ok (blanks.reverse, breaks, c)

/-- A scalar without quotes, and what follows it. In a block it goes on over
lines that are indented at least as far as given. -/
def plainScalar (flow : Bool) (opened indent : Nat) :
    Nat → Text → Cursor → Except Refusal (Text × Cursor)
  | 0, sofar, c => .ok (sofar, c)
  | fuel + 1, sofar, c => do
    let piece := plainPiece flow c.rest
    let after := c.skip piece.length
    let sofar := sofar ++ piece
    let (blanks, breaks, next) ← blanksAndBreaks opened indent (after.rest.length + 1) [] 0 after
    let stops :=
      piece.isEmpty || endsPlain flow next.rest || next.startsWith '#' || (0 < breaks && next.atEnd) ||
        (!flow && 0 < breaks && next.column < indent)
    if stops then return (sofar, if breaks = 0 then next else after)
    else plainScalar flow opened indent fuel (sofar ++ gap blanks breaks) next

/-- A scalar between single quotes from inside of it, and what follows it. -/
def singleQuotedScalar (opened : Nat) : Nat → Text → Cursor → Except Refusal (Text × Cursor)
  | 0, _, c => .error (.ofCharacters opened c.line "found unexpected end of stream")
  | fuel + 1, sofar, c => do
    match c.rest with
    | [] => throw (.ofCharacters opened c.line "found unexpected end of stream")
    | b :: more =>
      if b = byte '\'' then
        if more.head? = some (byte '\'') then
          singleQuotedScalar opened fuel (sofar ++ [b]) (c.skip 2)
        else return (sofar, c.next)
      else if Cursor.isBlankHead c.rest then
        let (blanks, breaks, next) ← blanksAndBreaks opened 0 (c.rest.length + 1) [] 0 c
        singleQuotedScalar opened fuel (sofar ++ gap blanks breaks) next
      else singleQuotedScalar opened fuel (sofar ++ [b]) c.next

/-- The character of an escape with a letter alone. -/
def escapedChar? (b : UInt8) : Option Nat :=
  ([('0', 0x00), ('a', 0x07), ('b', 0x08), ('t', 0x09), ('\t', 0x09), ('n', 0x0A), ('v', 0x0B),
    ('f', 0x0C), ('r', 0x0D), ('e', 0x1B), (' ', 0x20), ('"', 0x22), ('/', 0x2F), ('\\', 0x5C),
    ('N', 0x85), ('_', 0xA0), ('L', 0x2028), ('P', 0x2029)].find?
      fun (letter, _) => byte letter == b).map Prod.snd

/-- The number of digits after the letter of an escape by code. -/
def codeDigits? (b : UInt8) : Option Nat :=
  if b = byte 'x' then some 2
  else if b = byte 'u' then some 4
  else if b = byte 'U' then some 8
  else none

/-- A scalar between double quotes from inside of it, and what follows it. -/
def doubleQuotedScalar (opened : Nat) : Nat → Text → Cursor → Except Refusal (Text × Cursor)
  | 0, _, c => .error (.ofCharacters opened c.line "found unexpected end of stream")
  | fuel + 1, sofar, c => do
    match c.rest with
    | [] => throw (.ofCharacters opened c.line "found unexpected end of stream")
    | b :: more =>
      if b = byte '"' then return (sofar, c.next)
      else if Cursor.isBlankHead c.rest then
        let (blanks, breaks, next) ← blanksAndBreaks opened 0 (c.rest.length + 1) [] 0 c
        doubleQuotedScalar opened fuel (sofar ++ gap blanks breaks) next
      else if b ≠ byte '\\' then doubleQuotedScalar opened fuel (sofar ++ [b]) c.next
      else
        match more with
        | [] => throw (.ofCharacters opened c.line "found unexpected end of stream")
        | e :: digits =>
          if e = byte '\n' then
            let (_, _, next) ← blanksAndBreaks opened 0 (c.rest.length + 1) [] 0 (c.skip 2)
            doubleQuotedScalar opened fuel sofar next
          else
            match escapedChar? e, codeDigits? e with
            | some n, _ => doubleQuotedScalar opened fuel (sofar ++ Utf8.encodeChar (Char.ofNat n)) (c.skip 2)
            | none, some width =>
              let code := digits.take width
              if code.length = width ∧ code.all fun d => (Reading.hexValue? d).isSome then
                let n := code.foldl (fun n d => n * 16 + Plain.digitValue d) 0
                if (0xD800 ≤ n ∧ n ≤ 0xDFFF) ∨ 0x10FFFF < n then
                  throw (.ofCharacters opened c.line "found invalid Unicode character escape code")
                else
                  doubleQuotedScalar opened fuel (sofar ++ Utf8.encodeChar (Char.ofNat n))
                    (c.skip (2 + width))
              else throw (.ofCharacters opened c.line "did not find expected hexdecimal number")
            | none, none => throw (.ofCharacters opened c.line "found unknown escape character")

/-- A scalar between quotes, and what follows it. -/
def quotedScalar (c : Cursor) : Except Refusal (Text × Cursor) :=
  if c.startsWith '"' then doubleQuotedScalar c.line (c.rest.length + 1) [] c.next
  else singleQuotedScalar c.line (c.rest.length + 1) [] c.next

/-! ## Block scalars -/

/-- How the end of a block scalar is kept. -/
inductive EndBreaks where
  | one
  | none
  | all

/-- The lines of a block scalar that are indented deeper than a column or blank:
each with its indentation taken off, given the indentation of the first. -/
def blockLines (indent : Nat) : Nat → Option Nat → Cursor → List Text × Cursor
  | 0, _, c => ([], c)
  | fuel + 1, width, c =>
    let line := c.rest.takeWhile (· != byte '\n')
    let spaces := (line.takeWhile (· == byte ' ')).length
    let after := (c.skip line.length).next
    if c.rest.isEmpty then ([], c)
    else if line.length = spaces then
      let (more, rest) := blockLines indent fuel width after
      (line.drop (width.getD spaces) :: more, rest)
    else
      let width := width.getD spaces
      if spaces < width ∨ spaces < indent ∨ c.atEnd then ([], c)
      else
        let (more, rest) := blockLines indent fuel (some width) after
        (line.drop width :: more, rest)

/-- Lines put together: kept apart, or folded where both neighbours start with
something else than a blank. -/
def joinLines (fold : Bool) : List Text → Text
  | [] => []
  | [line] => line ++ "\n"
  | line :: next :: rest =>
    let breaks : Text :=
      if fold && !(Cursor.isBlankHead line) && !(Cursor.isBlankHead next) then " " else "\n"
    line ++ breaks ++ joinLines fold (next :: rest)

/-- A text with its last breaks kept in a given way. -/
def trimEnd (keep : EndBreaks) (t : Text) : Text :=
  let bare := (t.reverse.dropWhile (· == byte '\n')).reverse
  match keep with
  | .all => t
  | .none => bare
  | .one => if bare.isEmpty then [] else bare ++ "\n"

/-- A block scalar from its mark on, and what follows it. -/
def blockScalar (indent : Nat) (c : Cursor) : Except Refusal (Text × Cursor) := do
  let header := (c.rest.takeWhile (· != byte '\n')).drop 1
  let marks := header.takeWhile fun b => b == byte '+' || b == byte '-' || Text.isDigit b
  let rest := c.skip (1 + marks.length)
  let rest := rest.overBlanks
  if !(rest.rest.isEmpty || rest.startsWith '\n' || rest.startsWith '#') then
    throw (.ofCharacters c.line rest.line "did not find expected comment or line break")
  let keep : EndBreaks :=
    if marks.contains (byte '+') then .all else if marks.contains (byte '-') then .none else .one
  let width := (marks.find? Text.isDigit).map fun d => (d - byte '0').toNat + (indent - 1)
  let body := (rest.skip (rest.rest.takeWhile (· != byte '\n')).length).next
  let (lines, after) := blockLines indent (body.rest.length + 1) width body
  return (trimEnd keep (joinLines (c.startsWith '>') lines), after)

/-! ## Parts -/

/-- A scalar that was left out. -/
def absent (c : Cursor) : Written := .scalar (c.line + 1) [] false

/-- The problem of a character that starts nothing. -/
def startsNothing (c : Cursor) : Refusal :=
  .ofCharacters c.line c.line "found character that cannot start any token"

/-- Whether nothing can start with the next character. -/
def isStray (c : Cursor) : Bool :=
  c.startsWith '@' || c.startsWith '\x60' || c.startsWith '%' || c.startsWith '\t'

mutual

/-- A part between brackets, and what follows it. -/
def flowPart : Nat → Cursor → Except Refusal (Written × Cursor)
  | 0, c => .error (startsNothing c)
  | fuel + 1, c => do
    if c.startsWith '[' then
      let after ← flowItems fuel c.line (byte ']') c.next
      return (.sequence (c.line + 1), after.2)
    else if c.startsWith '\x7b' then
      let (entries, after) ← flowItems fuel c.line (byte '\x7d') c.next
      return (.mapping (c.line + 1) entries, after)
    else if c.startsWith '"' || c.startsWith '\'' then
      let (t, after) ← quotedScalar c
      return (.scalar (c.line + 1) t true, after)
    else if isStray c then throw (startsNothing c)
    else
      let (t, after) ← plainScalar true c.line 0 (c.rest.length + 1) [] c
      return (.scalar (c.line + 1) t false, after)

/-- The items or entries up to a closing bracket, and what follows it. What has
no colon is an entry without a value. -/
def flowItems : Nat → Nat → UInt8 → Cursor → Except Refusal (List (Written × Written) × Cursor)
  | 0, _, _, c => .error (startsNothing c)
  | fuel + 1, opened, closing, c => do
    let c := c.flowToken
    let expected :=
      if closing = byte ']' then "did not find expected ',' or ']'"
      else "did not find expected ',' or '\x7d'"
    if c.head? = some closing then return ([], c.next)
    else if c.rest.isEmpty then throw (.ofParts opened c.line expected)
    else
      let (key, after) ←
        if c.startsWithMark ':' then pure (absent c, c) else flowPart fuel c
      let after := after.flowToken
      let (value, after) ←
        if after.startsWith ':' then
          let start := after.next.flowToken
          if start.head? = some closing || start.startsWith ',' then pure (absent start, start)
          else if start.rest.isEmpty then throw (.ofParts opened start.line expected)
          else flowPart fuel start
        else pure (absent after, after)
      let after := after.flowToken
      if after.startsWith ',' then
        let (more, rest) ← flowItems fuel opened closing after.next
        return ((key, value) :: more, rest)
      else if after.head? = some closing then return ([(key, value)], after.next)
      else throw (.ofParts opened after.line expected)

end

mutual

/-- A part of a block, and what follows it. `indent` is the least column of its
lines; after a key on the same line nothing can be a key. -/
def blockPart : Nat → Nat → Bool → Cursor → Except Refusal (Written × Cursor)
  | 0, _, _, c => .error (startsNothing c)
  | fuel + 1, indent, afterKey, c => do
    if isStray c then throw (startsNothing c)
    else if c.startsWithMark '-' then
      if afterKey then
        throw (.ofCharacters c.line c.line
          "block sequence entries are not allowed in this context")
      let after ← blockItems fuel c.line c.column c
      return (.sequence (c.line + 1), after)
    else if c.startsWith '|' || c.startsWith '>' then
      let (t, after) ← blockScalar indent c
      return (.scalar (c.line + 1) t true, after)
    else
      let (part, after) ←
        if c.startsWith '[' || c.startsWith '\x7b' then flowPart fuel c
        else if c.startsWith '"' || c.startsWith '\'' then do
          let (t, after) ← quotedScalar c
          pure (Written.scalar (c.line + 1) t true, after)
        else do
          let (t, after) ← plainScalar false c.line indent (c.rest.length + 1) [] c
          pure (Written.scalar (c.line + 1) t false, after)
      let colon := after.overBlanks
      if !colon.startsWithMark ':' then return (part, after)
      else if afterKey || colon.line != c.line then
        throw (.ofCharacters colon.line colon.line
          "mapping values are not allowed in this context")
      else
        let (entries, after) ← blockEntries fuel c.line c.column part colon.next
        return (.mapping (c.line + 1) entries, after)

/-- The entries of a block mapping after its first key and colon, and what
follows them. -/
def blockEntries : Nat → Nat → Nat → Written → Cursor →
    Except Refusal (List (Written × Written) × Cursor)
  | 0, _, _, _, c => .error (startsNothing c)
  | fuel + 1, opened, column, key, c => do
    let inline := c.overBlanks
    let start := inline.token
    let (value, after) ←
      if start.atEnd then pure (absent c, start)
      else if start.line = inline.line then blockPart fuel (column + 1) true start
      else if column < start.column then blockPart fuel (column + 1) false start
      else if column = start.column ∧ start.startsWithMark '-' then do
        let after ← blockItems fuel start.line column start
        pure (.sequence (start.line + 1), after)
      else pure (absent c, start)
    let next := after.token
    if next.atEnd || next.column < column then return ([(key, value)], next)
    else if isStray next then throw (startsNothing next)
    else if column < next.column then
      throw (.ofParts opened next.line "did not find expected key")
    else
      let (key', colon) ←
        if next.startsWith '"' || next.startsWith '\'' then do
          let (t, after) ← quotedScalar next
          pure (Written.scalar (next.line + 1) t true, after)
        else do
          let (t, after) ← plainScalar false next.line (column + 1) (next.rest.length + 1) [] next
          pure (Written.scalar (next.line + 1) t false, after)
      let colon := colon.overBlanks
      if !colon.startsWithMark ':' || colon.line != next.line then
        if next.startsWithMark '-' then
          throw (.ofParts opened next.line "did not find expected key")
        throw (.ofCharacters next.line next.line "could not find expected ':'")
      let (more, rest) ← blockEntries fuel opened column key' colon.next
      return ((key, value) :: more, rest)

/-- Passes over the items of a block sequence. -/
def blockItems : Nat → Nat → Nat → Cursor → Except Refusal Cursor
  | 0, _, _, c => .error (startsNothing c)
  | fuel + 1, opened, column, c => do
    let start := c.next.token
    let after ←
      if start.atEnd || start.column ≤ column then pure start
      else do
        let (_, after) ← blockPart fuel (column + 1) false start
        pure after
    let next := after.token
    if next.atEnd || next.column < column then return next
    else if next.column = column ∧ next.startsWithMark '-' then blockItems fuel opened column next
    else if next.column = column then return next
    else throw (.ofParts opened next.line "did not find expected '-' indicator")

end

/-! ## Documents -/

/-- Carriage returns, alone or before a line feed, as line feeds. -/
def withLineFeeds (afterReturn : Bool) : Text → Text
  | [] => []
  | b :: rest =>
    if b = byte '\r' then byte '\n' :: withLineFeeds true rest
    else if b = byte '\n' ∧ afterReturn then withLineFeeds false rest
    else b :: withLineFeeds false rest

/-- Whether a character may stand in a document. -/
def isAllowed (c : Char) : Bool :=
  let n := c.toNat
  n == 0x09 || n == 0x0A || n == 0x0D || (0x20 ≤ n && n ≤ 0x7E) || n == 0x85 ||
    (0xA0 ≤ n && n ≤ 0xFFFD) || 0x10000 ≤ n

/-- The first document of a text, if there is one. -/
def read (t : Text) : Except Refusal (Option Written) := do
  if !(Utf8.chars t).all isAllowed then
    throw ⟨none, "control characters are not allowed"⟩
  let text := withLineFeeds false t
  let fuel := text.length + 1
  let start := (Cursor.mk text 0 0).token
  if start.rest.isEmpty then return none
  let ruled := start.atRule "---"
  let first := if ruled then (start.skip 3).token else start
  if first.atEnd then return some (absent first)
  let (part, _) ← blockPart (4 * fuel) 0 (ruled && first.line == start.line) first
  return some part

end EplLang.Yaml
