/-!
# Machine words

The bounds of the integers of 64 bits. A signed one lies from `-half` up to but not
including `half`; an unsigned one lies below `size`.
-/

set_option autoImplicit false

namespace EplLang.Word

/-- The number of integers of 64 bits. -/
def size : Nat := 0x10000000000000000

/-- Half of them: the first number beyond the signed ones. -/
def half : Nat := 0x8000000000000000

/-- The least signed integer. -/
def least : Int := -0x8000000000000000

/-- The greatest signed integer. -/
def greatest : Int := 0x7FFFFFFFFFFFFFFF

end EplLang.Word
