import EplLang.Eval.Operators
import EplLang.Eval.Random
import EplLang.Number.Reading
import EplLang.Text.Words

/-!
# Built-in functions

A built-in function is a function value like any other. Its body is a native
operation, which reads the parameters by their names from the bindings: `!` for
the first and `!!` for the second. No source text can bind these names.

Every program has built-in functions of its own, numbered when its frame is
made, so the functions of an imported program are not those of the importer.
-/

set_option autoImplicit false

namespace EplLang

namespace Native

/-- The operations in the order in which their functions are bound. -/
def all : List Native := [.log, .sleep, .time, .input, .random, .toNumber, .toText]

/-- The name a native operation's function is bound to. -/
def name : Native → Text
  | .log => "log"
  | .sleep => "sleep"
  | .time => "time"
  | .input => "input"
  | .random => "random"
  | .toNumber => "tonumber"
  | .toText => "tostring"

/-- The name of the first parameter. -/
def first : Text := "!"

/-- The name of the second parameter. -/
def second : Text := "!!"

/-- The parameters of a native operation's function. -/
def params : Native → List Text
  | .time => []
  | .random => [first, second]
  | _ => [first]

/-- The body of a native operation's function. Those that only act are a
statement, the others give their value. -/
def body : Native → Block
  | .log => [⟨0, .native .log⟩]
  | .sleep => [⟨0, .native .sleep⟩]
  | operation => [⟨0, .give (.native operation)⟩]

/-- The functions of the native operations, numbered from `site` on, bound to
their names. -/
def bindings (site : Nat) : Bindings :=
  .ofList (all.zipIdx.map fun (operation, i) =>
    (operation.name, .function (site + i) operation.params operation.body))

/-- Whether a name is bound to the built-in function it was bound to at the
start, the functions being numbered from `site` on. -/
def isUntouched (site : Nat) (n : Text) (v : Value) : Bool :=
  match (bindings site).find? n with
  | some function => v.identical function
  | none => false

/-- A parameter that must be a number. -/
def numberParam (n : Text) : Run Float := do
  match ← Run.lookup n with
  | .scalar (.number x) => return x
  | v => Run.fail (.wrongType v.form .number)

/-- The number a value stands for. -/
def numberOf : Value → Except Cause Value
  | .scalar (.number x) => .ok (.number x)
  | .scalar (.boolean b) => .ok (.number (if b then 1 else 0))
  | .scalar (.string t) =>
    match readNumber? (Text.trim t) with
    | some x => .ok (.number x)
    | none => .error (.notNumeric t)
  | v => .error (.wrongType v.form .string)

/-- Nanoseconds in a second. -/
def second64 : Int := 1000000000

/-- The length of a pause in nanoseconds, cut to an integer. -/
def pause (seconds : Float) : Int :=
  (Binary64.toInt64? (seconds * Binary64.ofInt second64)).getD Word.least

/-- The clock as a number of seconds. The count of nanoseconds is a signed
64-bit integer. -/
def clock (now : Int × Int) : Float :=
  Binary64.ofInt (Int.bmod (now.1 * second64 + now.2) Word.size) / Binary64.ofInt second64

/-- The first line of a text with its newline, and the rest. -/
def splitLine (t : Text) : Text × Text :=
  let line := t.takeWhile (· != Text.byte '\n')
  match t.drop line.length with
  | [] => (line, [])
  | newline :: rest => (line ++ [newline], rest)

/-- A line without the newlines and carriage returns at its end. -/
def trimLine (t : Text) : Text :=
  (t.reverse.dropWhile fun b => b == Text.byte '\n' || b == Text.byte '\r').reverse

/-- Draws a member of a range. -/
def draw (s : Surroundings) (low high : Int64) : Run Value := do
  let bound ← Run.ofExcept (Random.bound low high)
  let m ← get
  set { m with drawn := m.drawn + 1 }
  let drawn := Int64.ofNat (s.draws m.drawn % bound.toInt.toNat)
  return .number (Binary64.ofInt (Random.member low drawn).toInt)

/-- Carries out a native operation. -/
def run (s : Surroundings) : Native → Run Value
  | .log => do
    let v ← Run.view (← Run.lookup first)
    Run.print (v.bare ++ "\n")
    return .null
  | .sleep => do
    let seconds ← numberParam first
    if seconds > 0 then modify fun m => { m with slept := pause seconds :: m.slept }
    return .null
  | .time => return .number (clock s.now)
  | .input => do
    let prompt ← Run.view (← Run.lookup first)
    Run.print prompt.bare
    let m ← get
    let (line, rest) := splitLine m.input
    set { m with input := rest }
    return .text (trimLine line)
  | .random => do
    let a ← numberParam first
    let b ← numberParam second
    match Binary64.toInt64? a, Binary64.toInt64? b with
    | some low, some high => draw s (Int64.ofInt low) (Int64.ofInt high)
    | _, _ => Run.fail (.randomBounds a b)
  | .toNumber => do Run.ofExcept (numberOf (← Run.lookup first))
  | .toText => do
    let v ← Run.view (← Run.lookup first)
    return .text v.bare

end Native

end EplLang
