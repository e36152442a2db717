import EplLang.Number.Shortest
import EplLang.Proofs.Nearest

/-!
# The shortest decimal lies around its double

A decimal is searched on finer and finer grids until a grid has a point in the interval of a
double. The interval is that of the numbers that round to the double (`contains_iff`), and a grid
whose step is shorter than the interval has a point in it (`exists_onGrid`). A double has at most 53
significant bits, so the grid of seventeen digits is always fine enough: the search ends with a
decimal that rounds back to the double (`shortest_roundsTo`).
-/

set_option autoImplicit false

namespace EplLang
namespace Decimal

open Binary64 (powerUp powerDown RoundsTo lowerReach Canonical powers_eq_zpow)

/-- The number of a decimal. -/
def value (d : Decimal) : ℚ := d.digits * 10 ^ d.exponent

/-! ## Intervals -/

/-- A decimal is compared with a fraction over a common denominator. -/
theorem fraction_le_iff (low c : Nat) {den : Nat} (bottom : 0 < den) (k : Int) :
    low * powerDown 10 k ≤ c * powerUp 10 k * den ↔ (low : ℚ) / den ≤ c * 10 ^ k := by
  have below : (0 : ℚ) < powerDown 10 k := by exact_mod_cast Binary64.powerDown_pos (by decide) k
  have positive : (0 : ℚ) < den := by exact_mod_cast bottom
  have power : ((powerUp 10 k : Nat) : ℚ) / (powerDown 10 k : Nat) = 10 ^ k := by
    exact_mod_cast powers_eq_zpow 10 k
  rw [← power, ← mul_div_assoc, div_le_div_iff₀ positive below]
  exact_mod_cast Iff.rfl

theorem le_fraction_iff (high c : Nat) {den : Nat} (bottom : 0 < den) (k : Int) :
    c * powerUp 10 k * den ≤ high * powerDown 10 k ↔ c * 10 ^ k ≤ (high : ℚ) / den := by
  have below : (0 : ℚ) < powerDown 10 k := by exact_mod_cast Binary64.powerDown_pos (by decide) k
  have positive : (0 : ℚ) < den := by exact_mod_cast bottom
  have power : ((powerUp 10 k : Nat) : ℚ) / (powerDown 10 k : Nat) = 10 ^ k := by
    exact_mod_cast powers_eq_zpow 10 k
  rw [← power, ← mul_div_assoc, div_le_div_iff₀ below positive]
  exact_mod_cast Iff.rfl

section Interval

variable {m : Nat} {q : Int}

theorem interval_den_pos (m : Nat) (q : Int) : 0 < (interval m q).den :=
  Binary64.powerDown_pos (by decide) _

theorem scale_eq (q : Int) (n : Nat) :
    ((n * powerUp 2 (q - 2) : Nat) : ℚ) / (powerDown 2 (q - 2) : Nat) = (n : ℚ) / 4 * 2 ^ q := by
  have power := powers_eq_zpow 2 (q - 2)
  rw [Nat.cast_mul, mul_div_assoc, power, zpow_sub₀ (by norm_num)]
  norm_num
  ring

theorem interval_value (m : Nat) (q : Int) :
    ((interval m q).value : ℚ) / (interval m q).den = m * 2 ^ q := by
  refine (scale_eq q (4 * m)).trans ?_
  push_cast
  ring

theorem interval_high (m : Nat) (q : Int) :
    ((interval m q).high : ℚ) / (interval m q).den = (m + 1 / 2) * 2 ^ q := by
  refine (scale_eq q (4 * m + 2)).trans ?_
  push_cast
  ring

theorem interval_low (positive : 0 < m) (q : Int) :
    ((interval m q).low : ℚ) / (interval m q).den = (m - lowerReach m q) * 2 ^ q := by
  refine (scale_eq q (4 * m - _)).trans ?_
  have hidden : Binary64.hiddenBit = 2 ^ 52 := rfl
  have lowest : Binary64.leastExponent = -1074 := rfl
  rw [hidden, lowest]
  unfold lowerReach
  split_ifs
  · rw [Nat.cast_sub (by omega)]
    push_cast
    ring
  · rw [Nat.cast_sub (by omega)]
    push_cast
    ring

/-- The decimals in the interval of a double are those around it. -/
theorem contains_iff (positive : 0 < m) {c : Nat} {k : Int} :
    (interval m q).contains c k = true ↔ RoundsTo ((c : ℚ) * 10 ^ k) m q := by
  have bottom := interval_den_pos m q
  have low_le := fraction_le_iff (interval m q).low c bottom k
  have le_high := le_fraction_iff (interval m q).high c bottom k
  have lt_low := not_congr (le_fraction_iff (interval m q).low c bottom k)
  have high_lt := not_congr (fraction_le_iff (interval m q).high c bottom k)
  rw [not_le, not_le] at lt_low high_lt
  rw [interval_low positive] at low_le lt_low
  rw [interval_high] at le_high high_lt
  have closed : (interval m q).closed = (m % 2 == 0) := rfl
  unfold Interval.contains
  dsimp only
  rw [closed]
  rcases Nat.mod_two_eq_zero_or_one m with even | odd
  · rw [even]
    simp only [BEq.rfl, if_true, Bool.and_eq_true, decide_eq_true_eq, low_le, le_high]
    exact ⟨fun ⟨low, high⟩ => ⟨low, high, fun odd => by omega⟩,
      fun around => ⟨around.low, around.high⟩⟩
  · rw [odd]
    have open_ : ((1 : Nat) == 0) = false := rfl
    simp only [open_, Bool.false_eq_true, if_false, Bool.and_eq_true, decide_eq_true_eq, lt_low,
      high_lt]
    exact ⟨fun ⟨low, high⟩ => ⟨low.le, high.le, fun _ => ⟨low, high⟩⟩,
      fun around => around.odd odd⟩

end Interval

/-! ## Grids -/

/-- What is chosen on a grid is in the interval. -/
theorem contains_of_onGrid {i : Interval} {k : Int} {c : Nat} (chosen : onGrid i k = some c) :
    i.contains c k = true := by
  have even (num den : Nat) : Binary64.roundEven num den = num / den ∨
      Binary64.roundEven num den = num / den + 1 := by
    unfold Binary64.roundEven
    dsimp only
    split_ifs
    · exact .inr rfl
    · exact .inl rfl
  unfold onGrid at chosen
  dsimp only at chosen
  split at chosen
  · rename_i both
    rw [Bool.and_eq_true] at both
    cases chosen
    rcases even (i.value * powerDown 10 k) (i.den * powerUp 10 k) with same | same
    · rw [same]
      exact both.1
    · rw [same]
      exact both.2
  split at chosen
  · cases chosen
    assumption
  split at chosen
  · cases chosen
    assumption
  · cases chosen

section Grid

variable {m : Nat} {q : Int} {k : Int}

/-- A grid that is finer than the interval is wide has a point in it. -/
theorem exists_onGrid (positive : 0 < m) (fine : (10 : ℚ) ^ k < (lowerReach m q + 1 / 2) * 2 ^ q) :
    ∃ c, onGrid (interval m q) k = some c := by
  obtain ⟨floor, near⟩ : ∃ floor, (interval m q).value * powerDown 10 k /
      ((interval m q).den * powerUp 10 k) = floor := ⟨_, rfl⟩
  have ten : (0 : ℚ) < 10 ^ k := by positivity
  have unit : (0 : ℚ) < 2 ^ q := by positivity
  have reach := Binary64.lowerReach_pos m q
  have bottom : 0 < (interval m q).den * powerUp 10 k :=
    Nat.mul_pos (interval_den_pos m q) (Binary64.powerUp_pos (by decide) k)
  have grid : (((interval m q).value * powerDown 10 k : Nat) : ℚ) /
      ((interval m q).den * powerUp 10 k : Nat) = m * 2 ^ q / 10 ^ k := by
    rw [Binary64.on_grid, interval_value]
    norm_num
  have low : (floor : ℚ) * 10 ^ k ≤ m * 2 ^ q := by
    rw [← le_div_iff₀ ten, ← grid, ← near]
    exact Nat.cast_div_le
  have high : m * 2 ^ q < ((floor + 1 : Nat) : ℚ) * 10 ^ k := by
    rw [← div_lt_iff₀ ten, ← grid, ← near, div_lt_iff₀' (by exact_mod_cast bottom)]
    exact_mod_cast Nat.lt_mul_div_succ _ bottom
  have inside : (interval m q).contains floor k = true ∨
      (interval m q).contains (floor + 1) k = true := by
    rw [contains_iff positive, contains_iff positive]
    -- The two points are one step apart, which is less than both ends together.
    by_cases near : (m - lowerReach m q) * 2 ^ q < (floor : ℚ) * 10 ^ k
    · have below : (floor : ℚ) * 10 ^ k < (m + 1 / 2) * 2 ^ q := by nlinarith
      exact .inl ⟨near.le, below.le, fun _ => ⟨near, below⟩⟩
    · rw [not_lt] at near
      have above : (m - lowerReach m q) * 2 ^ q < ((floor + 1 : Nat) : ℚ) * 10 ^ k := by nlinarith
      have below : ((floor + 1 : Nat) : ℚ) * 10 ^ k < (m + 1 / 2) * 2 ^ q := by
        push_cast
        nlinarith
      exact .inr ⟨above.le, below.le, fun _ => ⟨above, below⟩⟩
  unfold onGrid
  dsimp only
  rw [near]
  rcases inside with first | second
  · rw [first, Bool.true_and, if_pos rfl]
    split_ifs <;> exact ⟨_, rfl⟩
  · rw [second, Bool.and_true, if_pos rfl]
    split_ifs <;> exact ⟨_, rfl⟩

end Grid

/-! ## The search -/

theorem contains_of_search {i : Interval} {top : Int} {steps count : Nat}
    (found : ∃ more < steps, ∃ c, onGrid i (top - (count + more : Nat) + 1) = some c) :
    i.contains (search i top steps count).digits (search i top steps count).exponent = true := by
  induction steps generalizing count with
  | zero =>
    obtain ⟨more, less, -⟩ := found
    cases less
  | succ steps ih =>
    rw [search]
    cases here : onGrid i (top - count + 1) with
    | some c => exact contains_of_onGrid here
    | none =>
      obtain ⟨more, less, c, chosen⟩ := found
      cases more with
      | zero =>
        rw [Nat.add_zero, here] at chosen
        cases chosen
      | succ more =>
        refine ih ⟨more, Nat.lt_of_succ_lt_succ less, c, ?_⟩
        rwa [Nat.succ_add_eq_add_succ]

theorem trim_value (steps : Nat) (d : Decimal) : (trim steps d).value = d.value := by
  fun_induction trim steps d with
  | case1 => rfl
  | case2 steps d zero ih =>
    rw [ih]
    have tens : (d.digits : ℚ) = (d.digits / 10 : Nat) * 10 := by
      exact_mod_cast (Nat.div_mul_cancel (Nat.dvd_of_mod_eq_zero zero.1)).symm
    unfold value
    dsimp only
    rw [tens, zpow_add_one₀ (by norm_num)]
    ring
  | case3 => rfl

/-! ## Leading digits -/

theorem shiftUp_spec {num den : Nat} (steps j : Nat) (far : den ≤ num * 10 ^ (j + steps)) :
    den ≤ num * 10 ^ shiftUp num den steps j := by
  fun_induction shiftUp num den steps j with
  | case1 j => exact far
  | case2 steps j enough => exact enough
  | case3 steps j less ih =>
    apply ih
    rwa [Nat.succ_add_eq_add_succ]

theorem pow_digitCount_le {n : Nat} (positive : 0 < n) : 10 ^ (digitCount n - 1) ≤ n := by
  rcases Nat.eq_zero_or_pos (digitCount n - 1) with none | some
  · rw [none]
    exact positive
  · have short := (Nat.length_toDigits_le_iff (n := n) (by decide : 1 < 10) some).not
    rw [not_lt] at short
    apply short.mp
    unfold digitCount at some
    unfold digitCount
    omega

/-- The leading digit is not above the fraction, if it is not too far below one. -/
theorem leadingDigit_le {num den : Nat} (bottom : 0 < den) (far : den ≤ num * 10 ^ (1 + 400)) :
    (10 : ℚ) ^ leadingDigit num den ≤ (num : ℚ) / den := by
  have positive : (0 : ℚ) < den := by exact_mod_cast bottom
  unfold leadingDigit
  split_ifs with whole
  · have some : 0 < num / den := Nat.div_pos whole bottom
    have count : ((digitCount (num / den) : Int) - 1) = (digitCount (num / den) - 1 : Nat) := by
      have : 0 < digitCount (num / den) := Nat.length_toDigits_pos
      omega
    rw [count, zpow_natCast]
    have below : ((num / den : Nat) : ℚ) ≤ num / den := Nat.cast_div_le
    refine le_trans ?_ below
    exact_mod_cast pow_digitCount_le some
  · have enough := shiftUp_spec 400 1 far
    rw [zpow_neg, zpow_natCast, inv_eq_one_div, div_le_div_iff₀ (by positivity) positive, one_mul]
    exact_mod_cast enough

/-! ## The shortest decimal -/

/-- No positive double is further below one than the leading digit is searched for. -/
theorem interval_near {m : Nat} {q : Int} (canonical : Canonical m q) (positive : 0 < m) :
    (interval m q).den ≤ (interval m q).value * 10 ^ (1 + 400) := by
  have least := canonical.least
  have scale : 0 < powerUp 2 (q - 2) := Binary64.powerUp_pos (by decide) _
  have some : 0 < (interval m q).value := Nat.mul_pos (Nat.mul_pos (by decide) positive) scale
  have steps : (-(q - 2)).toNat ≤ 3 * (1 + 400) := by omega
  generalize 1 + 400 = n at *
  calc (interval m q).den
    _ ≤ 2 ^ (3 * n) := Nat.pow_le_pow_right (by decide) steps
    _ = (2 ^ 3) ^ n := Nat.pow_mul ..
    _ ≤ 10 ^ n := Nat.pow_le_pow_left (by decide) n
    _ ≤ _ := Nat.le_mul_of_pos_left _ some

/-- The shortest decimal of a double lies around it: among those of seventeen digits there always is
one that does. -/
theorem shortest_roundsTo {m : Nat} {q : Int} (canonical : Canonical m q) (positive : 0 < m) :
    RoundsTo (shortest m q).value m q := by
  have some : (1 : ℚ) ≤ m := by exact_mod_cast positive
  have small : (m : ℚ) + 1 ≤ 2 ^ 53 := by exact_mod_cast canonical.small
  have unit : (0 : ℚ) < 2 ^ q := by positivity
  have bottom := interval_den_pos m q
  have top := leadingDigit_le bottom (interval_near canonical positive)
  rw [interval_value] at top
  unfold shortest
  dsimp only
  rw [trim_value]
  refine (contains_iff positive).mp (contains_of_search ⟨16, by decide, exists_onGrid positive ?_⟩)
  generalize leadingDigit (interval m q).value (interval m q).den = t at top
  have step : (10 : ℚ) ^ (t - (1 + 16 : Nat) + 1) = 10 ^ t / 10 ^ 16 := by
    rw [← zpow_natCast, ← zpow_sub₀ (by norm_num)]
    congr 1
    omega
  rw [step, div_lt_iff₀ (by norm_num)]
  refine top.trans_lt ?_
  -- The interval is one unit wide, or three quarters of one above a power of two, where the
  -- significand is only half as large.
  rcases Binary64.lowerReach_cases m q with ⟨reach, power, -⟩ | ⟨reach, -⟩
  · rw [reach, power]
    norm_num
    nlinarith
  · rw [reach]
    nlinarith

end Decimal
end EplLang
