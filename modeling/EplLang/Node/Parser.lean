import EplLang.Fault
import EplLang.Node
import EplLang.Token.Lexer

/-!
# From tokens to programs

The grammar, loosest binding first:

* `and`, `or`: one level, to the left;
* `==`, `!=`, `<`, `<=`, `>`, `>=`: at most one between two operands;
* `+`, `-`, then `*`, `/`, then `^`: each level to the left;
* calls, `[...]` and `.name` after an operand;
* literals, names, `-`, `!` and `#` before an operand, groups, functions,
  arrays and objects.

An operator followed by an equals sign belongs to a compound assignment and
ends the expression before it. Newlines mean nothing here except after
`return`, whose value must start on its line.

A rule is a function of a cursor: the tokens that are left, the line of the end
of the input, and the number of the next function literal. Rules that nest
(expressions, operands and blocks inside others) are taken from a `Grammar`;
each is only used after a token has been taken, so as many levels as there are
tokens are enough. A rule that repeats something runs at most one round more
than there are tokens left.
-/

set_option autoImplicit false

namespace EplLang

/-- Where a parser stands. -/
structure Cursor where
  tokens : List Token
  endLine : Int
  site : Nat

/-- A rule of the grammar. -/
abbrev Parse (α : Type) := StateT Cursor (Except Stop) α

namespace Parser

/-! ## The cursor -/

/-- The line of the end of the input: the line after the last newline, or a
later one that a token stands on. -/
def endLine (tokens : List Token) : Int :=
  tokens.foldl (fun line t => if t.kind = .newline then t.line + 1 else max line t.line) 1

/-- The cursor at the start of a list of tokens. -/
def start (site : Nat) (tokens : List Token) : Cursor :=
  { tokens := tokens.filter (·.kind ≠ .newline), endLine := endLine tokens, site }

/-- The token `n` places ahead; past the last one stands the end of the input. -/
def Cursor.peek (c : Cursor) (n : Nat) : Token :=
  (c.tokens[n]?).getD { kind := .endOfInput, line := c.endLine }

/-- The token `n` places ahead. -/
def peek (n : Nat) : Parse Token := do return Cursor.peek (← get) n

/-- Whether the next token is of a class. -/
def sees (kind : Kind) : Parse Bool := do return (← peek 0).kind == kind

/-- Whether a token is a given keyword. -/
def isKeyword (t : Token) (word : Text) : Bool := t.kind == .keyword && t.text == word

/-- Whether the next token is a given keyword. -/
def seesKeyword (word : Text) : Parse Bool := do return isKeyword (← peek 0) word

/-- Takes the next token. -/
def advance : Parse Token := do
  let t ← peek 0
  modify fun c => { c with tokens := c.tokens.tail }
  return t

/-- Refuses a token. -/
def refuse {α : Type} (t : Token) (complaint : Complaint) : Parse α :=
  throw (t.illegal complaint)

/-- Takes the next token, which must be of a class. -/
def expect (kind : Kind) : Parse Token := do
  let t ← peek 0
  if t.kind = kind then advance else refuse t (.expected kind)

/-- The number of the next function literal. -/
def freshSite : Parse Nat := do
  let c ← get
  set { c with site := c.site + 1 }
  return c.site

/-! ## Repetition -/

/-- The outcome of one round: what the next round starts from, or the result. -/
inductive Round (α β : Type) where
  | again (state : α)
  | done (result : β)

/-- Rounds until one is the last, at most `bound` of them. -/
def rounds {α β : Type} (round : α → Parse (Round α β)) : Nat → α → Parse β
  | 0, _ => throw .outOfFuel
  | bound + 1, state => do
    match ← round state with
    | .again next => rounds round bound next
    | .done result => return result

/-- Rounds until one is the last. A round that is not the last takes a token. -/
def repeated {α β : Type} (state : α) (round : α → Parse (Round α β)) : Parse β := do
  rounds round ((← get).tokens.length + 1) state

/-! ## Rules that nest -/

/-- The rules that occur inside others. -/
structure Grammar where
  expression : Parse Node
  operand : Parse Node
  block : Parse Block

/-- A block between braces. -/
def braced (g : Grammar) : Parse Block := do
  let _ ← expect .openBrace
  let body ← g.block
  let _ ← expect .closeBrace
  return body

/-! ## Expressions -/

/-- One more segment of an index path. -/
def pathRound (g : Grammar) (segments : List Node) : Parse (Round (List Node) (List Node)) := do
  if ← sees .dot then
    let _ ← advance
    let id ← expect .identifier
    return .again (segments ++ [.text id.text])
  else if ← sees .openBracket then
    let _ ← advance
    let segment ← g.expression
    let _ ← expect .closeBracket
    return .again (segments ++ [segment])
  else return .done segments

/-- Consecutive `.name` and `[expression]` segments. -/
def path (g : Grammar) : Parse (List Node) := repeated [] (pathRound g)

/-- One more argument of a call. -/
def argumentRound (g : Grammar) (args : List Node) : Parse (Round (List Node) (List Node)) := do
  if ← sees .closeParen then
    let _ ← advance
    return .done args
  else
    let arg ← g.expression
    if ← sees .closeParen then
      let _ ← advance
      return .done (args ++ [arg])
    else
      let _ ← expect .comma
      return .again (args ++ [arg])

/-- The arguments of a call, from its opening parenthesis to the closing one. A
comma may follow the last. -/
def arguments (g : Grammar) : Parse (List Node) := do
  let _ ← advance
  repeated [] (argumentRound g)

/-- One more call or index path after an operand. -/
def suffixRound (g : Grammar) (left : Node) : Parse (Round Node Node) := do
  let t ← peek 0
  if t.kind = .openParen then
    let args ← arguments g
    return .again (.call left args)
  else if t.kind = .openBracket ∨ t.kind = .dot then
    let segments ← path g
    return .again (.index left segments)
  else return .done left

/-- Calls and index paths after an operand. -/
def suffixes (g : Grammar) (left : Node) : Parse Node := repeated left (suffixRound g)

/-- One more name in a list of parameters. -/
def paramRound (names : List Text) : Parse (Round (List Text) (List Text)) := do
  if ← sees .comma then
    let _ ← advance
    let id ← expect .identifier
    return .again (names ++ [id.text])
  else return .done names

/-- The names after the first one in a list of parameters. -/
def moreParams : Parse (List Text) := repeated [] paramRound

/-- A function after its parameters: the arrow and the body. A body that is an
expression gives its value. -/
def functionBody (g : Grammar) (params : List Text) : Parse Node := do
  let _ ← expect .assign
  let _ ← expect .greater
  if ← sees .openBrace then
    let body ← braced g
    return .function (← freshSite) params body
  else
    let line := (← peek 0).line
    let value ← g.expression
    return .function (← freshSite) params [⟨line, .give value⟩]

/-- The name that an expression is, if it is one. -/
def name? : Node → Option Text
  | .name n => some n
  | _ => none

/-- What opens with a parenthesis: a group, `()` for null, or a function. It is
a function when a comma follows a first name, or when an arrow follows the
closing parenthesis. -/
def parenthesis (g : Grammar) : Parse Node := do
  let _ ← advance
  let inner ← if ← sees .closeParen then pure none else some <$> g.expression
  match inner.bind name?, ← sees .comma with
  | some first, true =>
    let more ← moreParams
    let _ ← expect .closeParen
    functionBody g (first :: more)
  | single, _ =>
    let closing ← expect .closeParen
    if (← peek 0).kind = .assign ∧ (← peek 1).kind = .greater then
      match inner, single with
      | none, _ => functionBody g []
      | some _, some first => functionBody g [first]
      | some _, none => refuse closing .parameterName
    else return inner.getD .null

/-- One more entry of an object. -/
def objectRound (g : Grammar) (items : Container Node) :
    Parse (Round (Container Node) (Container Node)) := do
  if ← sees .closeBracket then
    let _ ← advance
    return .done items
  else
    let id ← expect .identifier
    let _ ← expect .assign
    let value ← g.expression
    return .again (items.set (.string id.text) value)

/-- The entries of an object up to its closing bracket. -/
def objectItems (g : Grammar) : Parse (Container Node) :=
  repeated .empty (objectRound g)

/-- One more element of an array. -/
def arrayRound (g : Grammar) (items : Container Node) :
    Parse (Round (Container Node) (Container Node)) := do
  if ← sees .closeBracket then return .done items
  else
    let value ← g.expression
    let items := items.set (.number (Binary64.ofInt items.size)) value
    if ← sees .comma then
      let _ ← advance
      return .again items
    else return .done items

/-- The elements of an array up to its closing bracket. A comma may follow the
last. -/
def arrayItems (g : Grammar) : Parse (Container Node) := do
  let items ← repeated .empty (arrayRound g)
  let _ ← expect .closeBracket
  return items

/-- What opens with a bracket: an object if a name and an equals sign come
first, else an array. -/
def containerLiteral (g : Grammar) : Parse Node := do
  let _ ← advance
  if (← peek 0).kind = .identifier ∧ (← peek 1).kind = .assign then
    return .container .object (← objectItems g).items
  else return .container .array (← arrayItems g).items

/-- The expression of a segment, which must use up the segment's tokens. -/
def segment (g : Grammar) (tokens : List Token) : Parse Node := do
  let outer ← get
  set (start outer.site tokens)
  let value ← g.expression
  let t ← peek 0
  if t.kind ≠ .endOfInput then refuse t .interpolation
  let inner ← get
  set { outer with site := inner.site }
  return value

/-- The bytes of a text from one place up to another, if the places come in
order and lie in the text. -/
def slice (text : Text) (first last : Nat) : Parse Text :=
  if first ≤ last ∧ last ≤ text.length then return (text.take last).drop first
  else throw .misplaced

/-- What comes before a segment at a place of a text: what there is already, or
the text up to the place. -/
def lead (text : Text) (place : Nat) : Option Node → Parse Node
  | some before => return before
  | none => return .text (← slice text 0 place)

/-- The segments of an interpolated string joined onto what comes before them,
if anything does: each value, then the text up to the next one. -/
def interpolation (g : Grammar) (text : Text) :
    Option Node → List (Nat × List Token) → Parse Node
  | before, [] => return before.getD (.text text)
  | before, (place, tokens) :: rest => do
    let value ← segment g tokens
    let first ← lead text place before
    let after ← slice text place ((rest.head?.map Prod.fst).getD text.length)
    let joined := Node.arithmetic first .plus value
    interpolation g text (some (.arithmetic joined .plus (.text after))) rest

/-- An interpolated string: its texts and values joined from left to right. -/
def interpolated (g : Grammar) : Parse Node := do
  let t ← advance
  interpolation g t.text none t.parts

/-- A literal, name, group, function, array, object, or an operand with a sign
before it. -/
def atom (g : Grammar) : Parse Node := do
  let t ← peek 0
  match t.kind with
  | .interpolated => interpolated g
  | .number x =>
    let _ ← advance
    return .literal (.number x)
  | .string =>
    let _ ← advance
    return .text t.text
  | .boolean b =>
    let _ ← advance
    return .literal (.boolean b)
  | .null =>
    let _ ← advance
    return .null
  | .length =>
    let _ ← advance
    return .length (← g.operand)
  | .minus | .not =>
    let _ ← advance
    return .unary t.kind (← g.operand)
  | .openParen => parenthesis g
  | .identifier =>
    let _ ← advance
    return .name t.text
  | .openBracket => containerLiteral g
  | .endOfInput => refuse t .literalAtEnd
  | _ => refuse t .literal

/-- An atom with its calls and index paths. -/
def operand (g : Grammar) : Parse Node := do suffixes g (← atom g)

/-- Whether the next token is one of some operators and starts no compound
assignment. -/
def seesOperator (ops : List Kind) : Parse Bool := do
  return (← peek 0).kind ∈ ops && (← peek 1).kind != .assign

/-- One more operator of a level, with the operand after it. -/
def chainRound (ops : List Kind) (next : Parse Node) (left : Node) : Parse (Round Node Node) := do
  if ← seesOperator ops then
    let op ← advance
    let right ← next
    return .again (.arithmetic left op.kind right)
  else return .done left

/-- Operands joined to the left by operators of one level. -/
def leftChain (ops : List Kind) (next : Parse Node) : Parse Node := do
  let first ← next
  repeated first (chainRound ops next)

/-- Operands joined by `^`. -/
def factor (g : Grammar) : Parse Node := leftChain [.power] (operand g)

/-- Factors joined by `*` and `/`. -/
def term (g : Grammar) : Parse Node := leftChain [.times, .divide] (factor g)

/-- Terms joined by `+` and `-`. -/
def additive (g : Grammar) : Parse Node := leftChain [.plus, .minus] (term g)

/-- The operators that compare. -/
def relational : List Kind := [.equal, .notEqual, .less, .lessEqual, .greater, .greaterEqual]

/-- One sum, or two of them compared. -/
def comparison (g : Grammar) : Parse Node := do
  let left ← additive g
  if (← peek 0).kind ∈ relational then
    let op ← advance
    let right ← additive g
    return .condition left op.kind right
  else return left

/-- The logical operator that a token is. -/
def logical? (t : Token) : Option Kind :=
  if isKeyword t "and" then some .and else if isKeyword t "or" then some .or else none

/-- One more `and` or `or`, with the comparison after it. -/
def logicalRound (g : Grammar) (left : Node) : Parse (Round Node Node) := do
  match logical? (← peek 0) with
  | some op =>
    let _ ← advance
    let right ← comparison g
    return .again (.condition left op right)
  | none => return .done left

/-- Comparisons joined to the left by `and` and `or`. -/
def expression (g : Grammar) : Parse Node := do
  let first ← comparison g
  repeated first (logicalRound g)

/-! ## Statements -/

/-- The operators that may stand before an equals sign. -/
def compoundOps : List Kind := [.plus, .minus, .times, .divide, .power]

/-- Takes the operator of a compound assignment, if there is one. -/
def compound : Parse (Option Kind) := do
  if (← peek 0).kind ∈ compoundOps && (← peek 1).kind == .assign then
    return some (← advance).kind
  else return none

/-- The value assigned to a target: the expression, or the target combined with
it by the operator of a compound assignment. -/
def assigned (target : Node) (op : Option Kind) (value : Node) : Node :=
  match op with
  | some op => .arithmetic target op value
  | none => value

/-- The operator, the equals sign and the value of an assignment to a target. -/
def assignment (g : Grammar) (target : Node) : Parse Node := do
  let op ← compound
  let _ ← expect .assign
  let value ← expression g
  return assigned target op value

/-- `name = value` and its compound forms. -/
def binding (g : Grammar) : Parse Node := do
  let id ← advance
  let value ← assignment g (.name id.text)
  return .bind id.text value

/-- A statement that starts with a name and an index: an assignment into a
container, or a call. -/
def indexed (g : Grammar) : Parse Node := do
  let id ← advance
  let segments ← path g
  match ← suffixes g (.index (.name id.text) segments) with
  | .call callee args => return .call callee args
  | .index base segments =>
    let value ← assignment g (.index base segments)
    return .assign base segments value
  | _ => refuse id .assignmentTarget

/-- The condition and the body of a branch. -/
def guarded (g : Grammar) : Parse (Node × Block) := do
  let condition ← expression g
  let body ← braced g
  return (condition, body)

/-- One more `else if`, or the last `else`. -/
def elseRound (g : Grammar) (elifs : List (Node × Block)) :
    Parse (Round (List (Node × Block)) (List (Node × Block) × Option Block)) := do
  if ← seesKeyword "else" then
    let _ ← advance
    if ← seesKeyword "if" then
      let _ ← advance
      let elif ← guarded g
      return .again (elifs ++ [elif])
    else
      let body ← braced g
      return .done (elifs, some body)
  else return .done (elifs, none)

/-- The branches after the first one: `else if` any number of times, then
possibly `else`. -/
def elseBranches (g : Grammar) : Parse (List (Node × Block) × Option Block) :=
  repeated [] (elseRound g)

/-- A loop after `for`: over a collection, or from one number to another. -/
def forLoop (g : Grammar) : Parse Node := do
  let id ← expect .identifier
  let t ← peek 0
  if !isKeyword t "in" then refuse t .expectedIn
  let _ ← advance
  let first ← expression g
  if ← sees .comma then
    let _ ← advance
    let last ← expression g
    return .range id.text first last (← braced g)
  else return .each id.text first (← braced g)

/-- A statement that starts with a keyword. -/
def keywordStatement (g : Grammar) : Parse Node := do
  let word ← advance
  if word.text = "return" then
    let t ← peek 0
    if t.kind = .closeBrace ∨ t.kind = .endOfInput ∨ t.line ≠ word.line then return .give .null
    else return .give (← expression g)
  else if word.text = "if" then
    let (condition, body) ← guarded g
    let (elifs, otherwise) ← elseBranches g
    return .branch condition body elifs otherwise
  else if word.text = "while" then
    let (condition, body) ← guarded g
    return .loop condition body
  else if word.text = "for" then forLoop g
  else if word.text = "break" then return .leave
  else if word.text = "import" then return .load (← expression g)
  else refuse word .keyword

/-- Whether a name and the tokens after it start a binding. -/
def startsBinding (next afterNext : Kind) : Bool :=
  next == .assign || (next ∈ compoundOps && afterNext == .assign)

/-- One statement. -/
def statement (g : Grammar) : Parse Node := do
  let t ← peek 0
  let next := (← peek 1).kind
  if t.kind = .identifier ∧ startsBinding next (← peek 2).kind then binding g
  else if t.kind = .identifier ∧ (next = .openBracket ∨ next = .dot) then indexed g
  else if t.kind = .keyword then keywordStatement g
  else
    match ← expression g with
    | .call callee args => return .call callee args
    | _ => refuse t .functionCall

/-- The line before the first line of a block: no statement stands on it. -/
def noLine : Int := -1

/-- One more statement of a block, after the statements so far and the line of the
last of them. -/
def blockRound (g : Grammar) : Block × Int → Parse (Round (Block × Int) Block)
  | (statements, last) => do
    let t ← peek 0
    if t.kind = .closeBrace ∨ t.kind = .endOfInput then return .done statements
    else
      let node ← statement g
      let marker : Block := if t.line = last then [] else [⟨t.line, .newLine⟩]
      return .again (statements ++ marker ++ [⟨t.line, node⟩], t.line)

/-- Statements up to a closing brace or the end of the input. A marker comes
before the first statement of each line. -/
def block (g : Grammar) : Parse Block := repeated ([], noLine) (blockRound g)

/-! ## The whole program -/

/-- The rules with nesting down to a given depth. -/
def grammar : Nat → Grammar
  | 0 => ⟨throw .outOfFuel, throw .outOfFuel, throw .outOfFuel⟩
  | depth + 1 =>
    let inner := grammar depth
    ⟨expression inner, operand inner, block inner⟩

mutual

/-- The number of tokens a token consists of, its segments included. -/
def weight : Token → Nat
  | ⟨_, _, _, parts⟩ => 1 + partsWeight parts

/-- The number of tokens in the segments of a string. -/
def partsWeight : List (Nat × List Token) → Nat
  | [] => 0
  | (_, tokens) :: rest => tokensWeight tokens + partsWeight rest

/-- The number of tokens in a list, segments included. -/
def tokensWeight : List Token → Nat
  | [] => 0
  | t :: rest => weight t + tokensWeight rest

end

/-- A program up to the end of its tokens. -/
def program (g : Grammar) : Parse Block := do
  let body ← g.block
  let t ← peek 0
  if t.kind ≠ .endOfInput then refuse t .closingBracket
  return body

/-- The program of a list of tokens, its function literals numbered from `site`
on, and the number after the last of them. -/
def parseFrom (site : Nat) (tokens : List Token) : Except Stop (Block × Nat) := do
  let (body, c) ← program (grammar (tokensWeight tokens + 1)) (start site tokens)
  return (body, c.site)

end Parser

/-- The program of a list of tokens. -/
def parse (tokens : List Token) : Except Stop Block := do
  return (← Parser.parseFrom 0 tokens).1

/-- The program of a source text, its function literals numbered from `site` on,
and the number after the last of them. -/
def parseSource (site : Nat) (source : Text) : Except Stop (Block × Nat) := do
  Parser.parseFrom site (← lex source)

end EplLang
