import EplLang.Eval.Statement

/-!
# Running programs

The evaluator ties the definitions for the single forms together. `calls fuel`
carries out everything nested at most `fuel` deep, and conditional loops of at
most `fuel` rounds; with no fuel left every computation stops. More fuel never
changes an answer that was reached.

`Machine.start` is the state before a program; `Block.run` runs one in it. A
session evaluates several programs one after another in the same state.
-/

set_option autoImplicit false

namespace EplLang

/-- How the parts of a program are carried out with a given amount of fuel. -/
def calls : Nat → Surroundings → Calls
  | 0, _ => ⟨fun _ => throw .outOfFuel, fun _ => throw .outOfFuel⟩
  | fuel + 1, s =>
    { eval := fun n => Eval.expression s (calls fuel s) n
      exec := fun stmt => Eval.statement s (calls fuel s) (calls fuel) fuel stmt }

/-- Fuel that no program of ordinary length uses up. -/
def ample : Nat := 1000000000000000000

/-- The state before a program: built-in functions bound and nothing printed. -/
def Machine.start (input : Text) : Machine :=
  { toFrame := Eval.newFrame 0
    toWorld := { input, site := Native.all.length } }

/-- Runs a program in the current state. -/
def Block.run (fuel : Nat) (s : Surroundings) (body : Block) : Run Unit :=
  Eval.block (calls fuel s) body

/-- Parses a source text and runs it in the current state. A text that is no
program changes nothing. -/
def runSource (fuel : Nat) (s : Surroundings) (source : Text) : Run Unit := do
  let body ← Eval.load source
  Block.run fuel s body

end EplLang
