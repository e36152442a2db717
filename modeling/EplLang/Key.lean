import EplLang.Scalar

/-!
# Keys

What a map needs to know of its keys is when two of them are the same. That is symmetric and
transitive and need not be more: a nan is a key that differs from itself.
-/

set_option autoImplicit false

namespace EplLang

/-- Keys of a map. The same key may be given twice in different forms, and a key may differ from
itself. -/
class Key (κ : Type) where
  same : κ → κ → Bool
  symm {a b : κ} : same a b = true → same b a = true
  trans {a b c : κ} : same a b = true → same b c = true → same a c = true

namespace Key

variable {κ : Type} [Key κ] {a b c : κ}

/-- What is the same as another key is the same as itself. -/
theorem same_self (found : same a b = true) : same b b = true := trans (symm found) found

/-- The same key is the same as the same others. -/
theorem same_congr (found : same a b = true) : same a c = same b c :=
  Bool.eq_iff_iff.mpr ⟨trans (symm found), trans found⟩

theorem same_congr_right (found : same a b = true) : same c a = same c b :=
  Bool.eq_iff_iff.mpr ⟨fun first => trans first found, fun first => trans first (symm found)⟩

end Key

/-- Names are the same when they are equal. -/
instance : Key Text where
  same s t := s == t
  symm equal := by
    rw [eq_of_beq equal]
    exact beq_self_eq_true _
  trans first second := by
    rw [eq_of_beq first]
    exact second

/-! ## Numbers as keys -/

namespace Binary64

open Float.Model

/-- Unpacked doubles are level when they are one and the same, or both are zeros. -/
theorem eq_or_zeros_of_compare {u w : UnpackedFloat} (level : u.compare w = some .eq) :
    u = w ∨ ∃ s t, u = .zero s ∧ w = .zero t := by
  cases u with
  | notANumber => cases level
  | zero s =>
      cases w with
      | notANumber => cases level
      | zero t => exact .inr ⟨s, t, rfl, rfl⟩
      | infinity t => cases t <;> cases level
      | finite t m e positive => cases t <;> cases level
  | infinity s =>
      cases w with
      | infinity t =>
          cases s <;> cases t
          case negative.negative | positive.positive => exact .inl rfl
          all_goals cases level
      | _ => cases s <;> cases level
  | finite s m e positive =>
      cases w with
      | notANumber => cases s <;> cases level
      | zero t => cases s <;> cases level
      | infinity t => cases s <;> cases t <;> cases level
      | finite t m' e' positive' =>
          have parts (same : (compare e e').then (compare m m') = .eq) : e = e' ∧ m = m' := by
            simpa [Ordering.then_eq_eq] using same
          cases s <;> cases t
          case negative.negative =>
            obtain ⟨rfl, rfl⟩ := parts (Ordering.swap_eq_eq.mp (Option.some.inj level))
            exact .inl rfl
          case positive.positive =>
            obtain ⟨rfl, rfl⟩ := parts (Option.some.inj level)
            exact .inl rfl
          all_goals cases level

theorem beq_iff_compare {x y : Float} :
    (x == y) = true ↔ x.toModel.unpack.compare y.toModel.unpack = some .eq := by
  have unfolded : (x == y) = (x.toModel.unpack.compare y.toModel.unpack == some .eq) := rfl
  rw [unfolded, beq_iff_eq]

theorem beq_symm {x y : Float} (level : (x == y) = true) : (y == x) = true := by
  rw [beq_iff_compare] at level ⊢
  rcases eq_or_zeros_of_compare level with same | ⟨s, t, first, second⟩
  · rwa [same] at level ⊢
  · rw [first, second]
    rfl

theorem beq_trans {x y z : Float} (first : (x == y) = true) (second : (y == z) = true) :
    (x == z) = true := by
  rw [beq_iff_compare] at first second ⊢
  rcases eq_or_zeros_of_compare first with same | ⟨s, t, left, middle⟩
  · rwa [same]
  · rw [middle] at second
    rcases eq_or_zeros_of_compare second with same | ⟨s', t', _, right⟩
    · rw [left, ← same]
      rfl
    · rw [left, right]
      rfl

end Binary64

namespace Scalar

theorem same_symm {k l : Scalar} (found : same k l = true) : same l k = true := by
  cases k <;> cases l
  case number.number => exact Binary64.beq_symm found
  case string.string => exact Key.symm (κ := Text) found
  case boolean.boolean => exact (Bool.beq_comm ..).trans found
  case null.null => rfl
  all_goals cases found

theorem same_trans {k l j : Scalar} (first : same k l = true) (second : same l j = true) :
    same k j = true := by
  cases k <;> cases l
  case number.number =>
    cases j
    case number => exact Binary64.beq_trans first second
    all_goals cases second
  case string.string => rwa [eq_of_beq (α := Text) first]
  case boolean.boolean => rwa [eq_of_beq (α := Bool) first]
  case null.null => exact second
  all_goals cases first

end Scalar

/-- Scalars are the same key when they are of one kind and have one value. -/
instance : Key Scalar where
  same := Scalar.same
  symm := Scalar.same_symm
  trans := Scalar.same_trans

end EplLang
