import EplLang.OrderedMap

/-!
# Containers

A container holds the entries of an array or an object: values under keys, in
the order in which the keys were first set. Setting a key again replaces the
value and keeps the place.

A nan is the same key as nothing. Setting one therefore always makes a new
entry, and no look-up ever finds it: such an entry is a key without a value.
-/

set_option autoImplicit false

namespace EplLang

/-- Values under scalars, in the order in which these were first set. -/
abbrev Container (α : Type) := OrderedMap Scalar α

/-- The entries of a container written out in order. An entry without a value has
a key that cannot be looked up. -/
structure Items (α : Type) where
  entries : List (Scalar × Option α) := []

/-- The entries of a container. -/
def Container.items {α : Type} (c : Container α) : Items α := ⟨c.entries⟩

end EplLang
