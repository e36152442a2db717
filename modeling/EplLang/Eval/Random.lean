import EplLang.Fault

/-!
# Random integers

A random integer is drawn from the inclusive range between two signed 64-bit
integers. The generator gives a number below a positive bound that must itself
be a signed 64-bit integer, so a range is admitted when it is not empty and has
fewer than `2 ^ 63` members. The width is computed without a sign, where it
cannot overflow.
-/

set_option autoImplicit false

namespace EplLang.Random

/-- The greatest width of a range for which the bound is still an integer. -/
def widest : UInt64 := 0x7FFFFFFFFFFFFFFF

/-- The bound to draw below for a range, if the range is admitted. -/
def bound (low high : Int64) : Except Cause Int64 :=
  if high < low then .error (.randomEmpty low.toInt high.toInt)
  else
    let width := high.toUInt64 - low.toUInt64
    if widest ≤ width then .error (.randomWide low.toInt high.toInt)
    else .ok (width.toInt64 + 1)

/-- The member of a range that a draw below its bound stands for. -/
def member (low draw : Int64) : Int64 := low + draw

end EplLang.Random
