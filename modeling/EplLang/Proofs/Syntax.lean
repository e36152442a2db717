import EplLang.Eval

/-!
# The parts of a node

What a node is made of, one level down: the expressions that are evaluated when
it is carried out, and the blocks that are run. A property of whole programs is
a property of single nodes that is asked of all parts.

A node is carried out either for its value or for its effect, and few nodes make
sense both ways. `IsExpression` and `IsStatement` say which nodes do: those for
which the evaluator has a rule that it can follow, whatever the parts turn out to
be.
-/

set_option autoImplicit false

namespace EplLang

/-- The values in the entries of a container that is written out. -/
def Items.values {α : Type} (items : Items α) : List α := items.entries.filterMap Prod.snd

theorem Items.mem_values {α : Type} {items : Items α} {v : α} :
    v ∈ items.values ↔ ∃ k, (k, some v) ∈ items.entries := by
  simp [values]

namespace Node

/-- The expressions that are evaluated to carry out a node. -/
def exprs : Node → List Node
  | .container _ items => items.values
  | .arithmetic left _ right | .condition left _ right => [left, right]
  | .unary _ operand | .length operand => [operand]
  | .index base path => base :: path
  | .bind _ value | .give value => [value]
  | .assign base path value => base :: value :: path
  | .load path => [path]
  | .branch test _ elifs _ => test :: elifs.map Prod.fst
  | .loop test _ => [test]
  | .range _ first last _ => [first, last]
  | .each _ collection _ => [collection]
  | .call callee args => callee :: args
  | _ => []

/-- The blocks of a statement, run in the bindings of the statement. The body of
a function is none of them: it is run by a call. -/
def blocks : Node → List Block
  | .branch _ body elifs otherwise => body :: (elifs.map Prod.snd ++ otherwise.toList)
  | .loop _ body | .range _ _ _ body | .each _ _ body => [body]
  | _ => []

/-- The names that a node itself gives a value when it is carried out: the name of a
binding or of a loop, and the parameters of a function. -/
def binds : Node → List Text
  | .bind n _ | .range n _ _ _ | .each n _ _ => [n]
  | .function _ params _ => params
  | _ => []

/-- The operators of arithmetic. -/
def arithmeticOps : List Kind := [.plus, .minus, .times, .divide, .power]

/-- The operators of conditions: those that compare and those that join. -/
def conditionOps : List Kind :=
  [.equal, .notEqual, .less, .lessEqual, .greater, .greaterEqual, .and, .or]

/-- Nodes that have a value: an operator is one of its table, a path leads
somewhere, and no entry of a literal is without its expression. -/
def IsExpression : Node → Prop
  | .literal _ | .name _ | .native _ | .call .. | .length _ | .function .. => True
  | .container _ items => ∀ entry ∈ items.entries, entry.2.isSome
  | .index _ path => path ≠ []
  | .arithmetic _ op _ => op ∈ arithmeticOps
  | .unary op _ => op = .minus ∨ op = .not
  | .condition _ op _ => op ∈ conditionOps
  | _ => False

/-- Nodes that have an effect. -/
def IsStatement : Node → Prop
  | .newLine | .bind .. | .give _ | .leave | .native _ | .load _ | .call .. | .branch ..
  | .loop .. | .range .. | .each .. => True
  | .assign _ path _ => path ≠ []
  | _ => False

/-- A node occurs in another: it is that node or occurs in a part of it, the
bodies of functions included. -/
inductive Occurs (part : Node) : Node → Prop where
  | self : Occurs part part
  | expr {inner whole : Node} : inner ∈ whole.exprs → Occurs part inner → Occurs part whole
  | block {body : Block} {stmt : Stmt} {whole : Node} :
      body ∈ whole.blocks → stmt ∈ body → Occurs part stmt.node → Occurs part whole
  | function {site : Nat} {params : List Text} {body : Block} {stmt : Stmt} :
      stmt ∈ body → Occurs part stmt.node → Occurs part (.function site params body)

end Node

end EplLang
