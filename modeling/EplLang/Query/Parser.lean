import EplLang.Number.Reading
import EplLang.Query.Filter
import EplLang.Query.Token

/-!
# Reading queries

From loosest to tightest the operators are: the pipe, the comma, the alternative
`//`, the updates, `or`, `and`, the comparisons, addition and subtraction,
multiplication and division with remainder. The pipe and the alternative group to
the right, updates and comparisons do not group, the others group to the left.

A query that cannot be read is refused with a complaint about the first token
that does not fit.
-/

set_option autoImplicit false

namespace EplLang.Query

open Text (byte)

/-- A reader of part of a query: what was read and the tokens after it, or a
complaint. -/
abbrev Reader (α : Type) := StateT (List Token) (Except Text) α

namespace Reader

/-- Refuses the next token. -/
def refuse {α : Type} : Reader α := do
  match ← get with
  | [] => throw endComplaint
  | t :: _ => throw t.complaint

/-- The next token, if there is one. -/
def peek : Reader (Option Token) := do return (← get).head?

/-- Passes over the next token. -/
def skip : Reader Unit := modify List.tail

/-- Passes over a given token, if it is the next one, and says whether it was. -/
def accept (t : Token) : Reader Bool := do
  if (← peek) = some t then
    skip
    return true
  else return false

/-- Passes over a given token, which must be the next one. -/
def expect (t : Token) : Reader Unit := do
  if !(← accept t) then refuse

/-- Passes over a mark that must be next. -/
def mark (t : Text) : Reader Unit := expect (.mark t)

/-- The name of a reference that must be next. -/
def reference : Reader Text := do
  match ← peek with
  | some (.reference t) =>
    skip
    return t
  | _ => refuse

end Reader

open Reader

/-- The words that are no names of filters. -/
def keywords : List Text :=
  ["or", "and", "module", "import", "include", "def", "as", "label", "break", "null", "true",
   "false", "if", "then", "elif", "else", "end", "try", "catch", "reduce", "foreach"]

/-- How operators of one level group. -/
inductive Grouping where
  | left
  | right
  | neither
  deriving DecidableEq

/-- An operator between two filters: its level, its grouping, and what it makes
of them. -/
structure Between where
  level : Nat
  grouping : Grouping
  make : Filter → Filter → Filter

/-- The operator a token stands for between two filters. -/
def between? : Token → Option Between
  | .mark t => marks.find? (fun (m, _) => (m : String).text == t) |>.map Prod.snd
  | .word t =>
    if t = "or" then some ⟨4, .left, .disjunction⟩
    else if t = "and" then some ⟨5, .left, .conjunction⟩
    else none
  | _ => none
where
  /-- The marks that are operators. -/
  marks : List (String × Between) :=
    [("|", ⟨0, .right, .pipe⟩), (",", ⟨1, .left, .comma⟩), ("//", ⟨2, .right, .alternative⟩),
     ("=", ⟨3, .neither, .update .assign⟩), ("|=", ⟨3, .neither, .update .modify⟩),
     ("+=", ⟨3, .neither, .update (.compute .add)⟩),
     ("-=", ⟨3, .neither, .update (.compute .subtract)⟩),
     ("*=", ⟨3, .neither, .update (.compute .multiply)⟩),
     ("/=", ⟨3, .neither, .update (.compute .divide)⟩),
     ("%=", ⟨3, .neither, .update (.compute .modulo)⟩),
     ("//=", ⟨3, .neither, .update .default⟩),
     ("==", ⟨6, .neither, .operator .equal⟩), ("!=", ⟨6, .neither, .operator .unequal⟩),
     ("<", ⟨6, .neither, .operator .less⟩), ("<=", ⟨6, .neither, .operator .atMost⟩),
     (">", ⟨6, .neither, .operator .greater⟩), (">=", ⟨6, .neither, .operator .atLeast⟩),
     ("+", ⟨7, .left, .operator .add⟩), ("-", ⟨7, .left, .operator .subtract⟩),
     ("*", ⟨8, .left, .operator .multiply⟩), ("/", ⟨8, .left, .operator .divide⟩),
     ("%", ⟨8, .left, .operator .modulo⟩)]

/-- The data of a numeral: a whole number if it is written as one. -/
def numeralData (t : Text) : Json :=
  if t.all Text.isDigit then .whole (Text.digitsValue t)
  else
    match readNumber? t with
    | some x => .number x
    | none => .number (Binary64.infinity false)

/-- A string literal as a filter. -/
def textFilter (t : Text) : Filter := .literal (.string t)

mutual

/-- Reads a filter whose operators are all of at least a level. -/
def query : Nat → Nat → Reader Filter
  | 0, _ => refuse
  | fuel + 1, level => do
    let first ← operand fuel
    operators fuel level first

/-- Reads the operators of at least a level that follow a filter, with what they
are applied to. -/
def operators : Nat → Nat → Filter → Reader Filter
  | 0, _, _ => refuse
  | fuel + 1, level, left => do
    match (← peek).bind between? with
    | none => return left
    | some op =>
      if op.level < level then return left
      else
        skip
        let right ← query fuel (if op.grouping = .right then op.level else op.level + 1)
        if op.grouping = .neither && ((← peek).bind between?).any (·.level == op.level) then refuse
        operators fuel level (op.make left right)

/-- Reads what an operator can be applied to: a term, or a filter that opens
with a definition or a name and takes in all that follows. -/
def operand : Nat → Reader Filter
  | 0 => refuse
  | fuel + 1 => do
    match ← peek with
    | some (.word t) =>
      if t = "def" then
        let (name, params, meaning) ← definition fuel
        return .define name params meaning (← query fuel 0)
      else if t = "label" then
        skip
        let name ← reference
        mark "|"
        return .label name (← query fuel 0)
      else named fuel
    | _ => named fuel

/-- Reads a term, and what it is named for, if it is. -/
def named : Nat → Reader Filter
  | 0 => refuse
  | fuel + 1 => do
    let source ← term fuel
    if ← accept (.word "as") then
      let p ← pattern fuel
      mark "|"
      return .naming source p (← query fuel 0)
    else return source

/-- Reads a definition. -/
def definition : Nat → Reader (Text × List Text × Filter)
  | 0 => refuse
  | fuel + 1 => do
    expect (.word "def")
    let name ←
      match ← peek with
      | some (.word t) => do
        skip
        pure t
      | _ => refuse
    let params ← if ← accept (.mark "(") then parameters fuel else pure []
    mark ":"
    let meaning ← query fuel 0
    mark ";"
    return (name, params, meaning)

/-- Reads the parameters of a definition up to the closing bracket. -/
def parameters : Nat → Reader (List Text)
  | 0 => refuse
  | fuel + 1 => do
    let param ←
      match ← peek with
      | some (.word t) | some (.reference t) => do
        skip
        pure t
      | _ => refuse
    if ← accept (.mark ";") then return param :: (← parameters fuel)
    else
      mark ")"
      return [param]

/-- Reads a pattern. -/
def pattern : Nat → Reader Pattern
  | 0 => refuse
  | fuel + 1 => do
    match ← peek with
    | some (.reference t) =>
      skip
      return .name t
    | some (.mark t) =>
      if t = "[" then
        skip
        return .list (← patternItems fuel)
      else if t = "\x7b" then
        skip
        return .record (← patternFields fuel)
      else refuse
    | _ => refuse

/-- Reads the parts of a list pattern up to the closing bracket. -/
def patternItems : Nat → Reader (List Pattern)
  | 0 => refuse
  | fuel + 1 => do
    let p ← pattern fuel
    if ← accept (.mark ",") then return p :: (← patternItems fuel)
    else
      mark "]"
      return [p]

/-- Reads the parts of a record pattern up to the closing bracket. -/
def patternFields : Nat → Reader (List (Text × Pattern))
  | 0 => refuse
  | fuel + 1 => do
    let parts ←
      match ← peek with
      | some (.reference t) => do
        skip
        let whole := (t.drop 1, Pattern.name t)
        if ← accept (.mark ":") then pure [whole, (t.drop 1, ← pattern fuel)] else pure [whole]
      | some (.word t) => do
        skip
        mark ":"
        pure [(t, ← pattern fuel)]
      | some (.quote _) => do
        skip
        match ← text fuel [] with
        | .literal (.string t) =>
          mark ":"
          pure [(t, ← pattern fuel)]
        | _ => refuse
      | _ => refuse
    if ← accept (.mark ",") then return parts ++ (← patternFields fuel)
    else
      mark "\x7d"
      return parts

/-- Reads a term with what is applied to it. -/
def term : Nat → Reader Filter
  | 0 => refuse
  | fuel + 1 => do
    let first ← primary fuel
    suffixes fuel first

/-- Reads what is applied to a term: fields, indices, question marks. -/
def suffixes : Nat → Filter → Reader Filter
  | 0, _ => refuse
  | fuel + 1, of => do
    match ← peek with
    | some (.field t) =>
      skip
      suffixes fuel (.index of (textFilter t))
    | some (.mark t) =>
      if t = "?" then
        skip
        suffixes fuel (.attempt of none)
      else if t = "[" then
        skip
        suffixes fuel (← bracket fuel of)
      else if t = "." then
        skip
        match ← peek with
        | some (.quote _) =>
          skip
          suffixes fuel (.index of (← text fuel []))
        | some (.mark u) =>
          if u = "[" then
            skip
            suffixes fuel (← bracket fuel of)
          else refuse
        | _ => refuse
      else return of
    | _ => return of

/-- Reads an index, a slice or an iteration after its opening bracket. -/
def bracket : Nat → Filter → Reader Filter
  | 0, _ => refuse
  | fuel + 1, of => do
    if ← accept (.mark "]") then return .iterate of
    else if ← accept (.mark ":") then
      let last ← query fuel 0
      mark "]"
      return .slice of none last
    else
      let first ← query fuel 0
      if ← accept (.mark ":") then
        if ← accept (.mark "]") then return .slice of first none
        else
          let last ← query fuel 0
          mark "]"
          return .slice of first last
      else
        mark "]"
        return .index of first

/-- Reads the rest of a string after its opening quote, given what came before. -/
def text : Nat → List Filter → Reader Filter
  | 0, _ => refuse
  | fuel + 1, before => do
    match ← peek with
    | some .unquote =>
      skip
      match before with
      | [] => return textFilter []
      | [.literal j] => return .literal j
      | parts => return .joined parts.reverse
    | some (.piece t) =>
      skip
      text fuel (textFilter t :: before)
    | some .hole =>
      skip
      let inner ← query fuel 0
      mark ")"
      text fuel (.format "@text" inner :: before)
    | _ => refuse

/-- Reads a term without what is applied to it. -/
def primary : Nat → Reader Filter
  | 0 => refuse
  | fuel + 1 => do
    match ← peek with
    | none => refuse
    | some (.field t) =>
      skip
      return .index .identity (textFilter t)
    | some (.reference t) =>
      skip
      return .reference t
    | some (.numeral t) =>
      skip
      return .literal (numeralData t)
    | some (.quote _) =>
      skip
      text fuel []
    | some (.format t) =>
      skip
      match ← peek with
      | some (.quote _) =>
        skip
        match ← text fuel [] with
        | .joined parts =>
          return .joined (parts.map fun
            | .format _ inner => .format t inner
            | part => part)
        | other => return other
      | _ => return .format t .identity
    | some (.word t) => keyword fuel t
    | some (.mark t) =>
      if t = "." then
        skip
        match ← peek with
        | some (.quote _) =>
          skip
          return .index .identity (← text fuel [])
        | some (.mark u) =>
          if u = "[" then
            skip
            bracket fuel .identity
          else return .identity
        | _ => return .identity
      else if t = ".." then
        skip
        return .call "recurse" []
      else if t = "(" then
        skip
        let inner ← query fuel 0
        mark ")"
        return inner
      else if t = "-" then
        skip
        return .negate (← term fuel)
      else if t = "+" then
        skip
        return .keep (← term fuel)
      else if t = "[" then
        skip
        if ← accept (.mark "]") then return .list none
        else
          let inner ← query fuel 0
          mark "]"
          return .list inner
      else if t = "\x7b" then
        skip
        return .record (← recordFields fuel)
      else refuse
    | some _ => refuse

/-- Reads a term that opens with a word. -/
def keyword : Nat → Text → Reader Filter
  | 0, _ => refuse
  | fuel + 1, t => do
    if t = "null" then
      skip
      return .literal .null
    else if t = "true" then
      skip
      return .literal (.boolean true)
    else if t = "false" then
      skip
      return .literal (.boolean false)
    else if t = "break" then
      skip
      return .leave (← reference)
    else if t = "if" then
      skip
      conditional fuel
    else if t = "try" then
      skip
      let body ← term fuel
      if ← accept (.word "catch") then return .attempt body (some (← term fuel))
      else return .attempt body none
    else if t = "reduce" then
      skip
      let source ← term fuel
      expect (.word "as")
      let p ← pattern fuel
      mark "("
      let start ← query fuel 0
      mark ";"
      let step ← query fuel 0
      mark ")"
      return .fold source p start step
    else if t = "foreach" then
      skip
      let source ← term fuel
      expect (.word "as")
      let p ← pattern fuel
      mark "("
      let start ← query fuel 0
      mark ";"
      let step ← query fuel 0
      if ← accept (.mark ";") then
        let out ← query fuel 0
        mark ")"
        return .scan source p start step out
      else
        mark ")"
        return .scan source p start step none
    else if keywords.contains t then refuse
    else
      skip
      if ← accept (.mark "(") then return .call t (← arguments fuel) else return .call t []

/-- Reads a condition with its branches up to the closing word. -/
def conditional : Nat → Reader Filter
  | 0 => refuse
  | fuel + 1 => do
    let condition ← query fuel 0
    expect (.word "then")
    let yes ← query fuel 0
    if ← accept (.word "elif") then return .branch condition yes (some (← conditional fuel))
    else if ← accept (.word "else") then
      let no ← query fuel 0
      expect (.word "end")
      return .branch condition yes no
    else
      expect (.word "end")
      return .branch condition yes none

/-- Reads the arguments of a call up to the closing bracket. -/
def arguments : Nat → Reader (List Filter)
  | 0 => refuse
  | fuel + 1 => do
    let first ← query fuel 0
    if ← accept (.mark ";") then return first :: (← arguments fuel)
    else
      mark ")"
      return [first]

/-- Reads the fields of a record up to the closing bracket. -/
def recordFields : Nat → Reader (List (Filter × Filter))
  | 0 => refuse
  | fuel + 1 => do
    if ← accept (.mark "\x7d") then return []
    else
      let field ← recordField fuel
      if ← accept (.mark ",") then return field :: (← recordFields fuel)
      else
        mark "\x7d"
        return [field]

/-- Reads one field of a record. A name alone stands for the field of that name,
or for the data of that reference. -/
def recordField : Nat → Reader (Filter × Filter)
  | 0 => refuse
  | fuel + 1 => do
    match ← peek with
    | some (.reference t) =>
      skip
      return (textFilter (t.drop 1), .reference t)
    | some (.word t) =>
      skip
      if ← accept (.mark ":") then return (textFilter t, ← fieldValue fuel)
      else return (textFilter t, .index .identity (textFilter t))
    | some (.numeral t) =>
      skip
      mark ":"
      return (.literal (numeralData t), ← fieldValue fuel)
    | some (.quote _) =>
      skip
      let key ← text fuel []
      if ← accept (.mark ":") then return (key, ← fieldValue fuel)
      else return (key, .index .identity key)
    | some (.mark t) =>
      if t = "(" then
        skip
        let key ← query fuel 0
        mark ")"
        mark ":"
        return (key, ← fieldValue fuel)
      else refuse
    | _ => refuse

/-- Reads the value of a field: terms joined by pipes. -/
def fieldValue : Nat → Reader Filter
  | 0 => refuse
  | fuel + 1 => do
    let first ← term fuel
    if ← accept (.mark "|") then return .pipe first (← fieldValue fuel) else return first

end

/-- How much fuel the tokens of a query can use up: no reader calls more than a
few others before it passes over a token. -/
def fuelFor (ts : List Token) : Nat := 16 * (ts.length + 1)

/-- Reads definitions, as many as there are. -/
def definitions : Nat → Reader (List (Text × List Text × Filter))
  | 0 => return []
  | fuel + 1 => do
    match ← peek with
    | some (.word t) =>
      if t = "def" then
        let first ← definition fuel
        return first :: (← definitions fuel)
      else return []
    | _ => return []

/-- Reads a whole query. After definitions, or with nothing at all, the identity
may be left out. -/
def whole (fuel : Nat) : Reader Filter := do
  let defined ← definitions fuel
  let body ← if (← get).isEmpty then pure .identity else query fuel 0
  if !(← get).isEmpty then refuse
  return defined.foldr (fun (name, params, meaning) body => .define name params meaning body) body

/-- The filter of a query text, or the complaint about it. -/
def parse (t : Text) : Except Text Filter :=
  let ts := tokens t
  (whole (fuelFor ts)).run' ts

end EplLang.Query
