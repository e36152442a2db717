import EplLang.Eval.Natives

/-!
# Evaluating expressions

Each form of expression has its own definition here. The evaluation of the
expressions and statements inside it is a parameter, `Calls`; the definitions
are tied together in `EplLang.Eval`. Both sides of an operator are always
evaluated, from left to right.

Reading a name gives the value itself, so an array or an object named in an
expression is the one that is bound. Reading through an index gives a copy, and
a call gives a copy of what its function returned.
-/

set_option autoImplicit false

namespace EplLang

/-- How the parts of a program are carried out. -/
structure Calls where
  /-- The value of an expression. -/
  eval : Node → Run Value
  /-- The effect of a statement. -/
  exec : Stmt → Run Unit

namespace Eval

/-- The statements of a block in order, as long as no signal is pending. -/
def block (c : Calls) : Block → Run Unit
  | [] => pure ()
  | s :: rest => do
    if (← get).pending then pure ()
    else
      c.exec s
      block c rest

/-- The values of expressions from left to right. -/
def all (c : Calls) : List Node → Run (List Value)
  | [] => return []
  | n :: rest => do
    let v ← c.eval n
    return v :: (← all c rest)

/-! ## Containers -/

/-- The entries of a container literal evaluated in order, put after those
already there. -/
def items (c : Calls) (done : Container Value) :
    List (Scalar × Option Node) → Run (Container Value)
  | [] => return done
  | (_, none) :: _ => throw .malformed
  | (k, some n) :: rest => do
    let v ← c.eval n
    items c (done.set k v) rest

/-- A key. -/
def key (c : Calls) (n : Node) : Run Scalar := do
  match ← c.eval n with
  | .scalar s => return s
  | v => Run.fail (.notKey v.form)

/-- The value at the end of a path from a value, and the container it is in. -/
def walk (c : Calls) (v : Value) (parent : Option Value) :
    List Node → Run (Value × Option Value)
  | [] => return (v, parent)
  | n :: rest => do
    match v with
    | .container shape ref =>
      let k ← key c n
      match ((← get).store.get ref).get? k with
      | some next => walk c next (some v) rest
      | none => Run.fail (.missingKey k shape.form)
    | _ => Run.fail (.notIndexable v.form)

/-- The object that a function found in it is called on. -/
def receiverOf (v : Value) (parent : Option Value) : Option Value :=
  match v, parent with
  | .function .., some (.container .object ref) => some (.container .object ref)
  | _, _ => none

/-- The value at an index path, and the object it would be called on. A string
has its characters at single places and nothing at longer paths. -/
def index (c : Calls) (base : Node) (path : List Node) : Run (Value × Option Value) := do
  match ← c.eval base, path with
  | .scalar (.string _), [] => throw .malformed
  | .scalar (.string t), [n] =>
    match ← c.eval n with
    | .scalar (.number x) => return (← Run.ofExcept (Operator.characterAt t x), none)
    | v => Run.fail (.wrongType v.form .number)
  | .scalar (.string _), _ => return (.null, none)
  | v, path =>
    let (found, parent) ← walk c v none path
    return (← Run.copy found, receiverOf found parent)

/-! ## Calls -/

/-- Binds parameters to copies of arguments; `seen` are the parameters bound
before, and none may occur twice. -/
def bindParams (seen : List Text) : List (Text × Value) → Run Unit
  | [] => pure ()
  | (n, v) :: rest => do
    if seen.contains n then Run.fail (.nameTaken n)
    else
      Run.bindName n (← Run.copy v)
      bindParams (n :: seen) rest

/-- The value that a call gives: the one returned since the call started with
`depth` values pending, or null. -/
def takeReturn (depth : Nat) : Run Value := do
  let m ← get
  match m.returns with
  | [] => return .null
  | v :: rest =>
    if depth < m.returns.length then
      set { m with returns := rest }
      return v
    else return .null

/-- Runs the body of a function with its parameters bound, in the caller's
bindings. Names bound inside are dropped at the end. -/
def invoke (c : Calls) (params : List Text) (body : Block) (args : List Value)
    (receiver : Option Value) : Run Value := do
  let outer ← Run.names
  let depth := (← get).returns.length
  bindParams [] (params.zip args)
  Run.withReceiver receiver (block c body)
  let v ← Run.copy (← takeReturn depth)
  Run.close outer
  return v

/-- What a callee is: a function, and the object it is called on. -/
def resolve (c : Calls) : Node → Run (Value × Option Value)
  | .index base path => index c base path
  | n => do return (← c.eval n, none)

/-- A call. The number of arguments is checked before any is evaluated. -/
def call (c : Calls) (callee : Node) (args : List Node) : Run Value := do
  let (f, receiver) ← resolve c callee
  match f with
  | .function _ params body =>
    if params.length = args.length then
      invoke c params body (← all c args) receiver
    else Run.fail (.argumentCount args.length params.length)
  | v => Run.fail (.wrongType v.form .function)

/-! ## All forms -/

/-- The value of an expression, given how its parts are carried out. -/
def expression (s : Surroundings) (c : Calls) : Node → Run Value
  | .literal x => return .scalar x
  | .function site params body => return .function site params body
  | .container shape ⟨entries⟩ => do Run.fresh shape (← items c .empty entries)
  | .name n => Run.lookup n
  | .index base path => do return (← index c base path).1
  | .call callee args => call c callee args
  | .native operation => operation.run s
  | .arithmetic left op right => do
    let a ← c.eval left
    let b ← c.eval right
    Run.ofExcept (Operator.arithmetic (← get).store a op b)
  | .unary op operand => do Run.ofExcept (Operator.unary op (← c.eval operand))
  | .condition left op right => do
    let a ← c.eval left
    let b ← c.eval right
    Run.ofExcept (Operator.condition a op b)
  | .length operand => do
    let v ← c.eval operand
    return Operator.length (← get).store v
  | n => Run.fail (.notExpression n.form)

end Eval

end EplLang
