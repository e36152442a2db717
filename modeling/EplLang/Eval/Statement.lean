import EplLang.Eval.Expression
import EplLang.Node.Parser

/-!
# Executing statements

Branches, loops and calls are regions: names bound inside them are dropped when
they end. A region that stops does not end, and leaves what was bound inside.

A loop takes a break that its own body left pending; a pending return it leaves
for the call. Loops over a range and over a collection know in advance how many
rounds they make at most; a conditional loop is given a bound.
-/

set_option autoImplicit false

namespace EplLang.Eval

/-! ## Assignment -/

/-- Assigns to the entry at the end of a path. The container and the key are
found before the value is evaluated. -/
def assign (c : Calls) (base : Node) (path : List Node) (value : Node) : Run Unit := do
  let v ← c.eval base
  match path.getLast? with
  | none => throw .malformed
  | some last =>
    match ← walk c v none path.dropLast with
    | (.container shape ref, _) =>
      let k ← key c last
      if shape = .array ∧ k.form ≠ .number then Run.fail (.wrongType k.form .number)
      else
        let v ← Run.copy (← c.eval value)
        modify fun m => { m with store := m.store.put ref ((m.store.get ref).set k v) }
    | (v, _) => Run.fail (.notAssignable v.form)

/-! ## Branches -/

/-- Whether an expression counts as true. -/
def test (c : Calls) (condition : Node) : Run Bool := do
  let v ← c.eval condition
  return Operator.truthy (← get).store v

/-- The first of some branches whose condition holds, or else the last
resort. -/
def elifs (c : Calls) (otherwise : Option Block) : List (Node × Block) → Run Unit
  | [] =>
    match otherwise with
    | some body => block c body
    | none => pure ()
  | (condition, body) :: rest => do
    if ← test c condition then block c body else elifs c otherwise rest

/-- A branch. -/
def branch (c : Calls) (condition : Node) (body : Block) (more : List (Node × Block))
    (otherwise : Option Block) : Run Unit := do
  let holds ← test c condition
  let outer ← Run.names
  if holds then block c body else elifs c otherwise more
  Run.close outer

/-! ## Loops -/

/-- The signals pending when a loop starts. -/
structure Depth where
  breaks : Nat
  returns : Nat

/-- The signals pending now. -/
def depth : Run Depth := do
  let m ← get
  return ⟨m.breaks, m.returns.length⟩

/-- Whether a round asked its loop to end. A break is taken, a return stays. -/
def roundEnds (d : Depth) : Run Bool := do
  let m ← get
  if d.breaks < m.breaks then
    set { m with breaks := m.breaks - 1 }
    return true
  else return decide (d.returns < m.returns.length)

/-- A loop as a region: it starts with the names bound now and drops the others
when it ends. -/
def loopRegion (rounds : Depth → Run Unit) : Run Unit := do
  let outer ← Run.names
  rounds (← depth)
  Run.close outer

/-- Rounds as long as a condition holds, at most `bound` of them. -/
def whileRounds (c : Calls) (condition : Node) (body : Block) (d : Depth) : Nat → Run Unit
  | 0 => throw .outOfFuel
  | bound + 1 => do
    if ← test c condition then
      block c body
      if ← roundEnds d then pure () else whileRounds c condition body d bound
    else pure ()

/-- Rounds for `count` integers from `i` on. -/
def rangeRounds (c : Calls) (n : Text) (body : Block) (d : Depth) : Nat → Int → Run Unit
  | 0, _ => pure ()
  | count + 1, i => do
    Run.bindName n (.number (Binary64.ofInt i))
    block c body
    if ← roundEnds d then pure () else rangeRounds c n body d count (i + 1)

/-- A loop from one number to another, both included. -/
def range (c : Calls) (n : Text) (first last : Node) (body : Block) : Run Unit := do
  let a ← c.eval first
  let b ← c.eval last
  match a, b with
  | .scalar (.number x), .scalar (.number y) =>
    if x >= y then pure ()
    else
      match Binary64.toInt64? x, Binary64.toInt64? y with
      | some low, some high =>
        loopRegion fun d => rangeRounds c n body d (high - low + 1).toNat low
      | _, _ => Run.fail (.rangeBounds x y)
  | .scalar (.number _), _ => Run.fail (.wrongType b.form .number)
  | _, _ => Run.fail (.wrongType a.form .number)

/-- The object that describes an entry to the body of a loop. -/
def entryObject (k : Scalar) (v : Value) : Container Value :=
  .ofList [(.string "key", .scalar k), (.string "value", v)]

/-- Rounds for the entries of a container at the given keys. -/
def eachRounds (c : Calls) (n : Text) (ref : Nat) (body : Block) (d : Depth) :
    List Scalar → Run Unit
  | [] => pure ()
  | k :: rest => do
    let current := ((← get).store.get ref).get? k
    let v ← Run.copy (current.getD .null)
    Run.bindName n (← Run.fresh .object (entryObject k v))
    block c body
    if ← roundEnds d then pure () else eachRounds c n ref body d rest

/-- A loop over the entries a container has when the loop starts. -/
def each (c : Calls) (n : Text) (collection : Node) (body : Block) : Run Unit := do
  match ← c.eval collection with
  | .container _ ref =>
    let keys := ((← get).store.get ref).keys
    loopRegion fun d => eachRounds c n ref body d keys
  | v => Run.fail (.wrongType v.form .array)

/-! ## Imports -/

/-- Binds copies of the values of names that are not bound yet. -/
def merge : List (Text × Value) → Run Unit
  | [] => pure ()
  | (n, v) :: rest => do
    if ((← get).bindings.find? n).isNone then Run.bindName n (← Run.copy v)
    merge rest

/-- The frame of a program that has not started, its built-in functions
numbered from `site` on. -/
def newFrame (site : Nat) : Frame := { bindings := Native.bindings site, builtinSite := site }

/-- Runs a program in a frame of its own and gives that frame's bindings. The
frame before it comes back whether the program succeeds or not; the world goes
on. -/
def inNewFrame (body : Run Unit) : Run Bindings := fun m =>
  let world := { m.toWorld with site := m.site + Native.all.length }
  match body { toFrame := newFrame m.site, toWorld := world } with
  | .ok _ n => .ok n.bindings { toFrame := m.toFrame, toWorld := n.toWorld }
  | .error stop n => .error stop { toFrame := m.toFrame, toWorld := n.toWorld }

/-- The program of a source text, its function literals numbered anew. -/
def load (source : Text) : Run Block := do
  let m ← get
  match parseSource m.site source with
  | .error stop => throw stop
  | .ok (body, site) =>
    set { m with site }
    return body

/-- Why a file cannot be imported, if it cannot. -/
def refusal? (s : Surroundings) (path : Text) : Option Cause :=
  if s.trail.contains path then some (.importCycle (s.trail ++ [path]))
  else if s.maxDepth ≤ s.chain.length then some (.importDepth s.maxDepth path)
  else none

/-- Imports a file: runs it as a program of its own and takes over the names
that are not bound here. `inside` carries out the parts of the imported
program. -/
def importFile (s : Surroundings) (c : Calls) (inside : Surroundings → Calls) (path : Node) :
    Run Unit := do
  match ← c.eval path with
  | .scalar (.string t) =>
    let file := Path.clean t
    match refusal? s file with
    | some cause => Run.fail cause
    | none =>
      match s.files file with
      | none => Run.fail (.importMissing file)
      | some source =>
        let body ← load source
        let bound ← inNewFrame (block (inside (s.entering file)) body)
        merge bound.pairs
  | v => Run.fail (.wrongType v.form .string)

/-! ## All forms -/

/-- The effect of a statement, given how its parts are carried out and a bound
on the rounds of a conditional loop. -/
def statement (s : Surroundings) (c : Calls) (inside : Surroundings → Calls) (bound : Nat)
    (stmt : Stmt) : Run Unit :=
  match stmt.node with
  | .newLine => modify fun m => { m with line := stmt.line }
  | .bind n value => do Run.bindName n (← Run.copy (← c.eval value))
  | .assign base path value => assign c base path value
  | .give value => do
    let v ← c.eval value
    modify fun m => { m with returns := v :: m.returns }
  | .leave => modify fun m => { m with breaks := m.breaks + 1 }
  | .native operation => do let _ ← operation.run s
  | .load path => importFile s c inside path
  | .call callee args => do let _ ← call c callee args
  | .branch condition body more otherwise => branch c condition body more otherwise
  | .loop condition body => loopRegion fun d => whileRounds c condition body d bound
  | .range n first last body => range c n first last body
  | .each n collection body => each c n collection body
  | n => Run.fail (.notStatement n.form)

end EplLang.Eval
