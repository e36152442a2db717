import EplLang.Data

/-!
# The store

Arrays and objects have an identity: two names may be bound to equal arrays
that are not the same one, and an assignment into an array changes that array
and no other. So a container value is a reference into a store, which keeps the
contents of every container made so far.

`view` reads a value out of the store as data. `copy` makes a value with the same
contents that shares no container with anything: it sets the entries of new
containers one by one. Wherever the language keeps a value it keeps a copy, so no
container is ever inside itself, and the number of containers bounds how deep a
value can go.
-/

set_option autoImplicit false

namespace EplLang

/-- A value at run time. -/
inductive Value where
  | scalar (s : Scalar)
  | function (site : Nat) (params : List Text) (body : Block)
  | container (shape : Shape) (ref : Nat)

instance : Inhabited Value := ⟨.scalar .null⟩

namespace Value

/-- The kind of a value. -/
def form : Value → Form
  | .scalar s => s.form
  | .function .. => .function
  | .container shape _ => shape.form

/-- The value null. -/
def null : Value := .scalar .null

/-- A number as a value. -/
def number (x : Float) : Value := .scalar (.number x)

/-- A text as a value. -/
def text (t : Text) : Value := .scalar (.string t)

/-- A truth value as a value. -/
def truth (b : Bool) : Value := .scalar (.boolean b)

/-- Whether two values are the same container or come from the same function
literal. -/
def identical : Value → Value → Bool
  | .container _ r, .container _ s => r == s
  | .function m _ _, .function n _ _ => m == n
  | _, _ => false

end Value

/-- The contents of every container made so far. -/
structure Store where
  cells : Array (Container Value) := #[]

namespace Store

/-- The contents of a container. -/
def get (s : Store) (ref : Nat) : Container Value := (s.cells[ref]?).getD .empty

/-- Changes the contents of a container. -/
def put (s : Store) (ref : Nat) (c : Container Value) : Store :=
  ⟨s.cells.setIfInBounds ref c⟩

/-- A new container. -/
def push (s : Store) (shape : Shape) (c : Container Value) : Value × Store :=
  (.container shape s.cells.size, ⟨s.cells.push c⟩)

/-- A value written out to a given depth. -/
def viewTo (s : Store) : Nat → Value → Data
  | _, .scalar x => .scalar x
  | _, .function site params body => .function site params body
  | 0, .container shape _ => .container shape {}
  | depth + 1, .container shape ref =>
    .container shape ⟨(s.get ref).entries.map fun (k, v) => (k, v.map (s.viewTo depth))⟩

/-- A value with its contents written out. -/
def view (s : Store) (v : Value) : Data := s.viewTo s.cells.size v

/-- A value with the same contents in containers of its own, which are added to a
store. The contents are read from `s`, down to a given depth. The entries of a
container are set one after another in the order of its keys; what is not found
under its key becomes null. -/
def settleTo (s : Store) : Nat → Option Value → Store → Value × Store
  | _, none, t => (.null, t)
  | _, some (.scalar x), t => (.scalar x, t)
  | _, some (.function site params body), t => (.function site params body, t)
  | 0, some (.container shape _), t => t.push shape .empty
  | depth + 1, some (.container shape ref), t =>
    let (copied, t) := (s.get ref).keys.foldl (fun (done, t) k =>
      let (v, t) := s.settleTo depth ((s.get ref).get? k) t
      (done.set k v, t)) ((.empty : Container Value), t)
    t.push shape copied

/-- A value with the same contents in containers of its own. -/
def copy (s : Store) (v : Value) : Value × Store := s.settleTo s.cells.size (some v) s

end Store

end EplLang
