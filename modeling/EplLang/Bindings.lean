import EplLang.Store

/-!
# Bindings

The names bound in a program, with their values, in the order in which they
were first bound. Binding a name again keeps its place.

There is one set of bindings per program and no frames. A region (a branch, a
loop, a call) remembers the names bound when it starts; closing it drops the
names that were not there. The names of the built-in functions are never
dropped.
-/

set_option autoImplicit false

namespace EplLang

/-- Names with their values in the order of first binding. -/
abbrev Bindings := OrderedMap Text Value

namespace Bindings

/-- The names in order. -/
abbrev names (b : Bindings) : List Text := b.keys

/-- The value of a name. -/
abbrev find? (b : Bindings) (n : Text) : Option Value := b.get? n

/-- The bindings with a name bound to a value. -/
abbrev set (b : Bindings) (n : Text) (v : Value) : Bindings := OrderedMap.set b n v

/-- The names of the built-in functions in the order in which they are bound. -/
def builtinNames : List Text :=
  ["log", "sleep", "time", "input", "random", "tonumber", "tostring"]

/-- Closes a region that started with the given names bound. -/
def close (outer : List Text) (b : Bindings) : Bindings :=
  b.filter fun n => outer.contains n || builtinNames.contains n

end Bindings

end EplLang
