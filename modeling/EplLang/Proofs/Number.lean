import EplLang.Key
import Mathlib

/-!
# Doubles that are equal to themselves

A key that differs from itself cannot be looked up. Of all scalars only a nan is
such a key, and the numbers that count the elements of an array are none: a double
made from an integer is finite or infinite.
-/

set_option autoImplicit false

namespace EplLang

open Float.Model

/-! ## Unpacked doubles -/

theorem compare_self {u : UnpackedFloat} (number : u ≠ .notANumber) :
    u.compare u = some .eq := by
  cases u with
  | infinity sign => cases sign <;> rfl
  | notANumber => exact absurd rfl number
  | zero sign => rfl
  | finite sign mantissa exponent positive =>
      cases sign <;> simp [UnpackedFloat.compare]

/-- Bits stand for a number unless the exponent is the top one and there is a
fraction. -/
theorem unpack_number {b : BitVec 64}
    (number : @UnpackedFloat.unpackExponent .binary64 b = -1#11 →
      @UnpackedFloat.unpackMantissa .binary64 b = 0#52) :
    UnpackedFloat.unpack .binary64 b ≠ .notANumber := by
  unfold UnpackedFloat.unpack
  dsimp only
  split
  · rename_i top
    rw [if_pos (number top)]
    simp
  · split
    · split <;> simp
    · simp

theorem packComponents_number {sign : UnpackedFloat.Sign} {exponent : BitVec 11}
    {mantissa : BitVec 52} (number : exponent = -1#11 → mantissa = 0#52) :
    UnpackedFloat.unpack .binary64
      (UnpackedFloat.packComponents .binary64 sign exponent mantissa) ≠ .notANumber := by
  refine unpack_number fun top => ?_
  rw [UnpackedFloat.unpackExponent_packComponents] at top
  rw [UnpackedFloat.unpackMantissa_packComponents]
  exact number top

/-- Packing makes no nan. -/
theorem unpack_pack {u : UnpackedFloat} (number : u ≠ .notANumber) :
    UnpackedFloat.unpack .binary64 (UnpackedFloat.pack .binary64 u) ≠ .notANumber := by
  cases u with
  | infinity sign => exact packComponents_number fun _ => rfl
  | notANumber => exact absurd rfl number
  | zero sign => exact packComponents_number fun _ => rfl
  | finite sign mantissa exponent positive =>
      unfold UnpackedFloat.pack
      dsimp only
      split
      · exact packComponents_number fun _ => rfl
      · rename_i below
        split
        · refine packComponents_number fun top => ?_
          have field := congrArg BitVec.toNat top
          simp only [BitVec.toNat_ofNat] at field
          have ones : (-1#11).toNat = 2047 := by decide
          omega
        · exact packComponents_number fun top => by simp at top

/-! ## Doubles -/

namespace Binary64

/-- The exponent field of a word. -/
theorem toNat_unpackExponent (w : UInt64) :
    (@UnpackedFloat.unpackExponent .binary64 w.toBitVec).toNat = w.toNat / 2 ^ 52 % 2 ^ 11 := by
  simp [UnpackedFloat.unpackExponent, Nat.shiftRight_eq_div_pow]

/-- The fraction of a word. -/
theorem toNat_unpackMantissa (w : UInt64) :
    (@UnpackedFloat.unpackMantissa .binary64 w.toBitVec).toNat = w.toNat % 2 ^ 52 := by
  simp [UnpackedFloat.unpackMantissa]

/-- Bits up to those of infinity, with either sign, are those of a number. -/
theorem ofBits_beq_self (negative : Bool) {bits : Nat} (small : bits ≤ infinityBits) :
    (ofBits negative bits == ofBits negative bits) = true := by
  have largest : infinityBits = 2047 * 2 ^ 52 := rfl
  have half : Word.half = 2 ^ 63 := rfl
  refine beq_iff_compare.mpr (compare_self (unpack_pack (unpack_number fun top => ?_)))
  have field := congrArg BitVec.toNat top
  refine BitVec.eq_of_toNat_eq ?_
  have ones : (-1#11).toNat = 2047 := by decide
  have none : (0#52).toNat = 0 := rfl
  rw [toNat_unpackExponent, ones] at field
  rw [toNat_unpackMantissa, none]
  -- the exponent is at most the top one, and reaches it only where the fraction is zero
  cases negative with
  | false =>
      have word : bits.toUInt64.toNat = bits := by
        rw [Nat.toUInt64_eq, UInt64.toNat_ofNat', Nat.mod_eq_of_lt (by omega)]
      rw [if_neg (by simp), word] at field ⊢
      omega
  | true =>
      have word : (Word.half + bits).toUInt64.toNat = Word.half + bits := by
        rw [Nat.toUInt64_eq, UInt64.toNat_ofNat', Nat.mod_eq_of_lt (by omega)]
      rw [if_pos rfl, word] at field ⊢
      omega

theorem ofInt_beq_self (n : Int) : (ofInt n == ofInt n) = true :=
  ofBits_beq_self _ (Nat.min_le_left _ _)

end Binary64

/-! ## Keys -/

namespace Scalar

theorem isLost_string (t : Text) : (string t).isLost = false := by
  simp [isLost, same]

theorem isLost_ofInt (n : Int) : (number (Binary64.ofInt n)).isLost = false := by
  simp [isLost, same, Binary64.ofInt_beq_self]

end Scalar

end EplLang
