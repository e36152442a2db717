import EplLang.Eval

/-!
# Structured control flow

A second way to carry out statements, in which breaks and returns are no signals.
Every statement says how it ended: the next one follows, the loop around it is
left, or the call around it is given a value. A block stops at the first statement
after which the next one does not follow. A loop goes on if a round ended in the
usual way, ends if the round left it, and is cut short by a value for the call. A
call takes the value, or null if there is none.

So it is plain here which loop a break belongs to and which call a return belongs
to, and no record of signals is ever written. Expressions and simple statements
are those of the evaluator. `EplLang.Proofs.Signal` proves that the evaluator does
the same with its record.
-/

set_option autoImplicit false

namespace EplLang

/-- How a statement ended. -/
inductive Flow where
  /-- The next statement follows. -/
  | next
  /-- The loop around the statement is left. -/
  | left
  /-- The call around the statement is given a value. -/
  | gave (v : Value)

namespace Flow

/-- What a call makes of the way in which its body ended. -/
def result : Flow → Value
  | .gave v => v
  | .next | .left => .null

/-- The signal that stands for a way to end. -/
def signal : Flow → Machine → Machine
  | .next, m => m
  | .left, m => { m with breaks := m.breaks + 1 }
  | .gave v, m => { m with returns := v :: m.returns }

/-- A computation that puts the signal for its way to end on record. -/
def signalled (x : Run Flow) : Run Unit := do
  let flow ← x
  modify flow.signal

/-- What follows in the usual way, unless the way to end is another. -/
def followedBy : Flow → Run Flow → Run Flow
  | .next, rest => rest
  | .left, _ => return .left
  | .gave v, _ => return .gave v

/-- The statements of a block in order. None is executed if a signal was on record
before the block. -/
def block (exec : Stmt → Run Flow) : Block → Run Flow
  | [] => return .next
  | st :: rest => do
    if (← get).pending then return .next
    else
      let flow ← exec st
      flow.followedBy (block exec rest)

/-- A region: names bound inside are dropped at its end. -/
def region (inside : Run Flow) : Run Flow := do
  let outer ← Run.names
  let flow ← inside
  Run.close outer
  return flow

/-! ## Branches -/

/-- The first of some branches whose condition holds, or else the last resort. -/
def elifs (c : Calls) (inner : Block → Run Flow) (otherwise : Option Block) :
    List (Node × Block) → Run Flow
  | [] =>
    match otherwise with
    | some body => inner body
    | none => return .next
  | (condition, body) :: rest => do
    if ← Eval.test c condition then inner body else elifs c inner otherwise rest

/-- A branch. -/
def branch (c : Calls) (inner : Block → Run Flow) (condition : Node) (body : Block)
    (more : List (Node × Block)) (otherwise : Option Block) : Run Flow := do
  let holds ← Eval.test c condition
  region (if holds then inner body else elifs c inner otherwise more)

/-! ## Loops -/

/-- A round of a loop, and the others unless it ends the loop. A break in the
round is for this loop and for no other. -/
def round (body others : Run Flow) : Run Flow := do
  match ← body with
  | .next => others
  | .left => return .next
  | .gave v => return .gave v

/-- Rounds as long as a condition holds, at most `bound` of them. -/
def whileRounds (c : Calls) (condition : Node) (body : Run Flow) : Nat → Run Flow
  | 0 => throw .outOfFuel
  | bound + 1 => do
    if ← Eval.test c condition then round body (whileRounds c condition body bound)
    else return .next

/-- Rounds for `count` integers from `i` on. -/
def rangeRounds (n : Text) (body : Run Flow) : Nat → Int → Run Flow
  | 0, _ => return .next
  | count + 1, i => do
    Run.bindName n (.number (Binary64.ofInt i))
    round body (rangeRounds n body count (i + 1))

/-- A loop from one number to another, both included. -/
def range (c : Calls) (n : Text) (first last : Node) (body : Run Flow) : Run Flow := do
  let a ← c.eval first
  let b ← c.eval last
  match a, b with
  | .scalar (.number x), .scalar (.number y) =>
    if x >= y then return .next
    else
      match Binary64.toInt64? x, Binary64.toInt64? y with
      | some low, some high => region (rangeRounds n body (high - low + 1).toNat low)
      | _, _ => Run.fail (.rangeBounds x y)
  | .scalar (.number _), _ => Run.fail (.wrongType b.form .number)
  | _, _ => Run.fail (.wrongType a.form .number)

/-- Rounds for the entries of a container at the given keys. -/
def eachRounds (n : Text) (ref : Nat) (body : Run Flow) : List Scalar → Run Flow
  | [] => return .next
  | k :: rest => do
    let current := ((← get).store.get ref).get? k
    let v ← Run.copy (current.getD .null)
    Run.bindName n (← Run.fresh .object (Eval.entryObject k v))
    round body (eachRounds n ref body rest)

/-- A loop over the entries a container has when the loop starts. -/
def each (c : Calls) (n : Text) (collection : Node) (body : Run Flow) : Run Flow := do
  match ← c.eval collection with
  | .container _ ref =>
    let keys := ((← get).store.get ref).keys
    region (eachRounds n ref body keys)
  | v => Run.fail (.wrongType v.form .array)

/-! ## Calls and statements -/

/-- Runs the body of a function with its parameters bound. -/
def invoke (exec : Stmt → Run Flow) (params : List Text) (body : Block) (args : List Value)
    (receiver : Option Value) : Run Value := do
  let outer ← Run.names
  Eval.bindParams [] (params.zip args)
  let flow ← Run.withReceiver receiver (block exec body)
  let v ← Run.copy flow.result
  Run.close outer
  return v

/-- A call. -/
def call (c : Calls) (exec : Stmt → Run Flow) (callee : Node) (args : List Node) :
    Run Value := do
  let (f, receiver) ← Eval.resolve c callee
  match f with
  | .function _ params body =>
    if params.length = args.length then
      invoke exec params body (← Eval.all c args) receiver
    else Run.fail (.argumentCount args.length params.length)
  | v => Run.fail (.wrongType v.form .function)

/-- A statement, with a given amount of fuel. -/
def exec : Nat → Surroundings → Stmt → Run Flow
  | 0, _, _ => throw .outOfFuel
  | fuel + 1, s, st =>
    let c := calls fuel s
    let inner := block (exec fuel s)
    match st.node with
    | .give value => do return .gave (← c.eval value)
    | .leave => return .left
    | .call callee args => do
      let _ ← call c (exec fuel s) callee args
      return .next
    | .branch condition body more otherwise => branch c inner condition body more otherwise
    | .loop condition body => region (whileRounds c condition (inner body) fuel)
    | .range n first last body => range c n first last (inner body)
    | .each n collection body => each c n collection (inner body)
    | _ => do
      (calls (fuel + 1) s).exec st
      return .next

/-- A program. -/
def run (fuel : Nat) (s : Surroundings) (body : Block) : Run Flow := block (exec fuel s) body

end Flow

end EplLang
