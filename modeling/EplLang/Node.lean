import EplLang.Container
import EplLang.Token

/-!
# Programs

A program is a list of statements. A statement is a node together with the
line it starts on; every other node has no line. Expressions and statements are
one type: a program given as a tree may hold any node anywhere, and it is the
evaluator that says which of them make no sense where they stand.

A function literal carries the number of its place in the program. Two function
values are the same function exactly when they come from the same place, so the
number is what equality of functions compares.
-/

set_option autoImplicit false

namespace EplLang

/-- The operations that are built into the language. -/
inductive Native where
  | log
  | sleep
  | time
  | input
  | random
  | toNumber
  | toText
  deriving DecidableEq, Repr

mutual

/-- A node of a program. -/
inductive Node where
  /-- A marker: the line of its statement is the current line from here on. -/
  | newLine
  | literal (s : Scalar)
  | container (shape : Shape) (items : Items Node)
  | arithmetic (left : Node) (op : Kind) (right : Node)
  | unary (op : Kind) (operand : Node)
  | condition (left : Node) (op : Kind) (right : Node)
  | length (operand : Node)
  | name (n : Text)
  | index (base : Node) (path : List Node)
  | bind (n : Text) (value : Node)
  /-- Assignment to the entry at the end of a path. -/
  | assign (base : Node) (path : List Node) (value : Node)
  | give (value : Node)
  | leave
  | load (path : Node)
  | branch (condition : Node) (body : List Stmt) (elifs : List (Node × List Stmt))
      (otherwise : Option (List Stmt))
  | loop (condition : Node) (body : List Stmt)
  | range (n : Text) (first last : Node) (body : List Stmt)
  | each (n : Text) (collection : Node) (body : List Stmt)
  | function (site : Nat) (params : List Text) (body : List Stmt)
  | call (callee : Node) (args : List Node)
  | native (operation : Native)
  | unknown

/-- A statement: a node and the line it starts on. -/
structure Stmt where
  line : Int
  node : Node

end

instance : Inhabited Node := ⟨.unknown⟩

/-- Statements to be run one after another. -/
abbrev Block := List Stmt

namespace Node

/-- The kind of a node. -/
def form : Node → Form
  | .newLine => .newLine
  | .literal s => s.form
  | .container shape _ => shape.form
  | .arithmetic .. => .arithmetic
  | .unary .. => .unary
  | .condition .. => .condition
  | .length _ => .length
  | .name _ => .name
  | .index .. => .index
  | .bind .. => .bind
  | .assign .. => .assign
  | .give _ => .give
  | .leave => .leave
  | .load _ => .load
  | .branch .. => .branch
  | .loop .. => .loop
  | .range .. => .range
  | .each .. => .each
  | .function .. => .function
  | .call .. => .call
  | .native _ => .native
  | .unknown => .unknown

/-- A string literal. -/
def text (t : Text) : Node := .literal (.string t)

/-- The literal null. -/
def null : Node := .literal .null

end Node

end EplLang
