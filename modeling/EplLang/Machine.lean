import EplLang.Bindings
import EplLang.Fault
import EplLang.Path

/-!
# The state of a run

A running program has a frame of its own: its bindings, the current line, the
receiver seen as `self`, and the signals that are pending. A pending return or
break makes every block stop until the call or the loop it is meant for takes
it.

What a program shares with the programs it imports is the world: the store, what
has been printed, the input that is left, the pauses made, and the supplies of
function numbers and random draws. What never changes during a run is given by
its surroundings.

A computation may stop, and then leaves the state it had reached.
-/

set_option autoImplicit false

namespace EplLang

/-- What a run is given and cannot change. -/
structure Surroundings where
  /-- The contents of a file, if there is one with this clean path. -/
  files : Text → Option Text := fun _ => none
  /-- The clock: seconds since 1970 and nanoseconds. -/
  now : Int × Int := (0, 0)
  /-- How many imports may be nested. -/
  maxDepth : Nat := 64
  /-- The clean path of the program, if it came from a file. -/
  source : Option Text := none
  /-- The files being imported, outermost first. -/
  chain : List Text := []
  /-- The numbers that the random generator draws, one after another. -/
  draws : Nat → Nat := fun _ => 0

namespace Surroundings

/-- The files under evaluation, outermost first. -/
def trail (s : Surroundings) : List Text := s.source.toList ++ s.chain

/-- The surroundings of an imported file. -/
def entering (s : Surroundings) (path : Text) : Surroundings :=
  { s with chain := s.chain ++ [path] }

end Surroundings

/-- What belongs to one program. -/
structure Frame where
  bindings : Bindings := .empty
  line : Int := 1
  receiver : Option Value := none
  /-- Values on their way to the calls that return them, latest first. -/
  returns : List Value := []
  /-- The number of breaks no loop has taken yet. -/
  breaks : Nat := 0
  /-- The number of the first built-in function. -/
  builtinSite : Nat := 0

/-- What a program shares with the programs it imports. -/
structure World where
  store : Store := {}
  /-- What has been printed, latest first. -/
  printed : List Text := []
  input : Text := []
  /-- The pauses made, in nanoseconds, latest first. -/
  slept : List Int := []
  /-- The number of the next function literal. -/
  site : Nat := 0
  /-- How many random numbers have been drawn. -/
  drawn : Nat := 0

/-- The state of a run. -/
structure Machine extends Frame, World

/-- A computation that may change the state and may stop. -/
abbrev Run (α : Type) := EStateM Stop Machine α

namespace Machine

/-- Whether a block has to stop because of a signal. -/
def pending (m : Machine) : Bool := !m.returns.isEmpty || m.breaks != 0

/-- Everything printed so far. -/
def output (m : Machine) : Text := m.printed.reverse.flatten

end Machine

namespace Run

/-- Stops with a cause at the current line. -/
def fail {α : Type} (cause : Cause) : Run α := do throw (.fault ⟨(← get).line, cause⟩)

/-- The result of a computation that may have a cause to fail. -/
def ofExcept {α : Type} : Except Cause α → Run α
  | .ok a => pure a
  | .error cause => fail cause

/-- Binds a name. -/
def bindName (n : Text) (v : Value) : Run Unit :=
  modify fun m => { m with bindings := m.bindings.set n v }

/-- The value of a name; `self` is the receiver. -/
def lookup (n : Text) : Run Value := do
  let m ← get
  let found := if n = "self" then m.receiver else m.bindings.find? n
  match found with
  | some v => return v
  | none => fail (.nameUnbound n)

/-- A copy of a value in containers of its own. -/
def copy (v : Value) : Run Value := do
  let m ← get
  let (v, store) := m.store.copy v
  set { m with store }
  return v

/-- A new container. -/
def fresh (shape : Shape) (c : Container Value) : Run Value := do
  let m ← get
  let (v, store) := m.store.push shape c
  set { m with store }
  return v

/-- What a value amounts to now. -/
def view (v : Value) : Run Data := do return (← get).store.view v

/-- Prints a text. -/
def print (t : Text) : Run Unit := modify fun m => { m with printed := t :: m.printed }

/-- Closes a region that started with the given names bound. -/
def close (outer : List Text) : Run Unit :=
  modify fun m => { m with bindings := m.bindings.close outer }

/-- The names bound now. -/
def names : Run (List Text) := do return (← get).bindings.names

/-- Runs something with a receiver, if one is given, and puts the old one back
whether it succeeds or not. -/
def withReceiver {α : Type} (receiver : Option Value) (body : Run α) : Run α := fun m =>
  match body { m with receiver := receiver.or m.receiver } with
  | .ok a n => .ok a { n with receiver := m.receiver }
  | .error stop n => .error stop { n with receiver := m.receiver }

end Run

end EplLang
