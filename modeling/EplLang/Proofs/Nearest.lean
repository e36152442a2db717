import EplLang.Proofs.Exact
import EplLang.Proofs.NumberText

/-!
# The double nearest to a fraction

Around the number of a finite double lie the fractions that are nearer to it than to any other
double, and the two ends in the middle between it and its neighbours, which belong to it if its
significand is even (`RoundsTo`). The neighbour below a power of two is only half as far away as
the one above.

`nearestBits` gives the bits of a double for every fraction around it (`nearestBits_eq`). The
fraction has a leading bit, which gives the exponent; only for a fraction just below a power of
two is it one less than that of the double, and then rounding makes a significand with one bit
more, which carries into the exponent.

In particular a fraction that is the number of a double is rounded to it. So the integers up to
`2 ^ 53` have doubles of their own (`rational?_ofInt`).
-/

set_option autoImplicit false

namespace EplLang

open Float.Model

namespace Binary64

/-! ## Bits of significands and exponents -/

/-- A significand and an exponent as they are read off the bits of a finite double. -/
structure Canonical (m : Nat) (q : Int) : Prop where
  small : m < 2 ^ 53
  least : -1074 ≤ q
  most : q ≤ 971
  leading : q = -1074 ∨ 2 ^ 52 ≤ m

/-- The bits of a significand and an exponent. -/
def bitsOf (m : Nat) (q : Int) : Nat := (q - leastExponent).toNat * hiddenBit + m

theorem bitsOf_lt {m : Nat} {q : Int} (canonical : Canonical m q) : bitsOf m q < infinityBits := by
  obtain ⟨small, least, most, _⟩ := canonical
  have hidden : hiddenBit = 2 ^ 52 := rfl
  have lowest : leastExponent = -1074 := rfl
  have largest : infinityBits = 2047 * 2 ^ 52 := rfl
  unfold bitsOf
  rw [hidden, lowest, largest]
  omega

theorem toNat_toBits_ofBits {bits : Nat} (small : bits ≤ infinityBits) (negative : Bool) :
    (ofBits negative bits).toBits.toNat = if negative then 2 ^ 63 + bits else bits := by
  have same : (ofBits negative bits).toBits = signedWord negative bits := by
    have packed : UnpackedFloat.pack .binary64
        (UnpackedFloat.unpack .binary64 (signedWord negative bits).toBitVec) =
        (signedWord negative bits).toBitVec := by
      rw [UnpackedFloat.pack_unpack, isNaNBits_signedWord small]
      rfl
    exact UInt64.eq_of_toBitVec_eq packed
  rw [same, toNat_signedWord small]

/-- The fields of a word with a sign. -/
theorem fields_of_bits {m : Nat} {q : Int} (canonical : Canonical m q) (negative : Bool) :
    let bits := if negative then 2 ^ 63 + bitsOf m q else bitsOf m q
    decide (Word.half ≤ bits) = negative ∧
    (m < 2 ^ 52 → bits / hiddenBit % fields = 0 ∧ bits % hiddenBit = m) ∧
    (2 ^ 52 ≤ m → ((bits / hiddenBit % fields : Nat) : Int) = q + 1075 ∧
      bits % hiddenBit = m - 2 ^ 52) := by
  have hidden : hiddenBit = 2 ^ 52 := rfl
  have lowest : leastExponent = -1074 := rfl
  have half : Word.half = 2 ^ 63 := rfl
  have count : fields = 2048 := rfl
  obtain ⟨small, least, most, leading⟩ := canonical
  unfold bitsOf
  rw [hidden, lowest, half, count]
  cases negative with
  | false =>
      simp only [Bool.false_eq_true, if_false, decide_eq_false_iff_not, not_le]
      refine ⟨?_, ?_, ?_⟩ <;> omega
  | true =>
      simp only [if_true, decide_eq_true_eq]
      refine ⟨?_, ?_, ?_⟩ <;> omega

theorem decode_ofBits {m : Nat} {q : Int} (canonical : Canonical m q) (negative : Bool) :
    decode (ofBits negative (bitsOf m q)) = .finite negative m q := by
  obtain ⟨sign, subnormal, normal⟩ := fields_of_bits canonical negative
  obtain ⟨small, least, most, leading⟩ := canonical
  have hidden : hiddenBit = 2 ^ 52 := rfl
  have lowest : leastExponent = -1074 := rfl
  have top : topField = 2047 := rfl
  have below := bitsOf_lt ⟨small, least, most, leading⟩
  unfold decode
  rw [toNat_toBits_ofBits below.le]
  dsimp only
  rw [sign]
  rcases Nat.lt_or_ge m (2 ^ 52) with low | high
  · obtain ⟨field, fraction⟩ := subnormal low
    rw [field, fraction, if_neg (by decide), if_pos rfl, lowest]
    rcases leading with rfl | high
    · rfl
    · omega
  · obtain ⟨field, fraction⟩ := normal high
    rw [if_neg (by omega), if_neg (by omega), field, fraction, hidden, Nat.add_sub_cancel' high]
    congr 1
    omega

theorem canonical_of_decode {x : Float} {negative : Bool} {m : Nat} {q : Int}
    (decoded : decode x = .finite negative m q) : Canonical m q := by
  obtain ⟨small, least, most, leading⟩ := decode_range decoded
  exact ⟨small, least, most, leading⟩

theorem toBits_inj {x y : Float} (same : x.toBits = y.toBits) : x = y := by
  obtain ⟨⟨bits, valid⟩⟩ := x
  obtain ⟨⟨bits', valid'⟩⟩ := y
  obtain rfl : bits = bits' := same
  rfl

/-- A finite double is known by its sign, significand and exponent. -/
theorem eq_ofBits {x : Float} {negative : Bool} {m : Nat} {q : Int}
    (decoded : decode x = .finite negative m q) : x = ofBits negative (bitsOf m q) := by
  have canonical := canonical_of_decode decoded
  refine toBits_inj (UInt64.toNat_inj.mp ?_)
  rw [toNat_toBits_ofBits (bitsOf_lt canonical).le]
  obtain ⟨field, fraction, -, -, bits, shape⟩ := bits_of_finite decoded
  have same : bitsOf m q = field * 2 ^ 52 + fraction := by
    have hidden : hiddenBit = 2 ^ 52 := rfl
    have lowest : leastExponent = -1074 := rfl
    unfold bitsOf
    rw [hidden, lowest]
    omega
  rw [bits, same]

/-! ## Powers as fractions -/

theorem powerUp_pos {base : Nat} (positive : 0 < base) (q : Int) : 0 < powerUp base q :=
  Nat.pow_pos positive

theorem powerDown_pos {base : Nat} (positive : 0 < base) (q : Int) : 0 < powerDown base q :=
  Nat.pow_pos positive

/-- A fraction on the grid of a power. -/
theorem on_grid (base num den : Nat) (q : Int) :
    ((num * powerDown base q : Nat) : ℚ) / (den * powerUp base q : Nat) =
      (num : ℚ) / den / (base : ℚ) ^ q := by
  rw [← powers_eq_zpow, div_div_eq_mul_div, div_mul_eq_mul_div, div_div]
  push_cast
  rfl

/-! ## Leading bits -/

theorem leadingBit_spec {num den : Nat} (top : 0 < num) (bottom : 0 < den) :
    (2 : ℚ) ^ leadingBit num den ≤ (num : ℚ) / den ∧
      (num : ℚ) / den < 2 ^ (leadingBit num den + 1) := by
  have positive : (0 : ℚ) < den := by exact_mod_cast bottom
  have two (n : Int) : (0 : ℚ) < 2 ^ n := by positivity
  have below : (num : ℚ) / den < 2 ^ ((num.log2 : Int) - den.log2 + 1) := by
    have upper : (num : ℚ) < 2 ^ ((num.log2 : Int) + 1) := by
      exact_mod_cast (Nat.lt_log2_self : num < 2 ^ (num.log2 + 1))
    have lower : (2 : ℚ) ^ (den.log2 : Int) ≤ den := by
      exact_mod_cast Nat.log2_self_le bottom.ne'
    rw [div_lt_iff₀ positive]
    calc (num : ℚ) < 2 ^ ((num.log2 : Int) + 1) := upper
      _ = 2 ^ ((num.log2 : Int) - den.log2 + 1) * 2 ^ (den.log2 : Int) := by
          rw [← zpow_add₀ two_ne_zero]
          congr 1
          ring
      _ ≤ 2 ^ ((num.log2 : Int) - den.log2 + 1) * den := by gcongr
  have above : (2 : ℚ) ^ ((num.log2 : Int) - den.log2 - 1) < (num : ℚ) / den := by
    have lower : (2 : ℚ) ^ (num.log2 : Int) ≤ num := by
      exact_mod_cast Nat.log2_self_le top.ne'
    have upper : (den : ℚ) < 2 ^ ((den.log2 : Int) + 1) := by
      exact_mod_cast (Nat.lt_log2_self : den < 2 ^ (den.log2 + 1))
    rw [lt_div_iff₀ positive]
    calc (2 : ℚ) ^ ((num.log2 : Int) - den.log2 - 1) * den
        < 2 ^ ((num.log2 : Int) - den.log2 - 1) * 2 ^ ((den.log2 : Int) + 1) := by gcongr
      _ = 2 ^ (num.log2 : Int) := by
          rw [← zpow_add₀ two_ne_zero]
          congr 1
          ring
      _ ≤ num := lower
  unfold leadingBit
  generalize (num.log2 : Int) - den.log2 = guess at above below
  have test : den * powerUp 2 guess ≤ num * powerDown 2 guess ↔ (2 : ℚ) ^ guess ≤ num / den := by
    have denominator : (0 : ℚ) < (den * powerUp 2 guess : Nat) := by
      exact_mod_cast Nat.mul_pos bottom (powerUp_pos (by decide) guess)
    have grid := on_grid 2 num den guess
    rw [← one_le_div₀ (two guess), ← Nat.cast_two (R := ℚ), ← grid, one_le_div₀ denominator,
      Nat.cast_le]
  dsimp only
  split
  next large => exact ⟨test.mp large, below⟩
  next small =>
    rw [test, not_le] at small
    rw [sub_add_cancel]
    exact ⟨above.le, small⟩

/-! ## Rounding -/

/-- The natural number in the middle of a stretch of length one is what is rounded to, an end
of the stretch only if it is even. -/
theorem roundEven_eq {num den n : Nat} (bottom : 0 < den)
    (low : (n : ℚ) - 1 / 2 ≤ (num : ℚ) / den) (high : (num : ℚ) / den ≤ n + 1 / 2)
    (odd : n % 2 = 1 → (n : ℚ) - 1 / 2 < (num : ℚ) / den ∧ (num : ℚ) / den < n + 1 / 2) :
    roundEven num den = n := by
  have positive : (0 : ℚ) < den := by exact_mod_cast bottom
  have whole : (num : ℚ) = den * (num / den : Nat) + (num % den : Nat) := by
    exact_mod_cast (Nat.div_add_mod num den).symm
  have rest : num % den < den := Nat.mod_lt _ bottom
  have rest' : ((num % den : Nat) : ℚ) < den := by exact_mod_cast rest
  have rest'' : (0 : ℚ) ≤ ((num % den : Nat) : ℚ) := by positivity
  rw [le_div_iff₀ positive] at low
  rw [div_le_iff₀ positive] at high
  rw [lt_div_iff₀ positive, div_lt_iff₀ positive] at odd
  rw [whole] at low high odd
  have above : num / den ≤ n := by
    by_contra less
    have more : ((n : ℚ) + 1) ≤ (num / den : Nat) := by exact_mod_cast not_le.mp less
    nlinarith
  have below : n ≤ num / den + 1 := by
    by_contra more
    have less : ((num / den : Nat) : ℚ) + 2 ≤ n := by exact_mod_cast not_le.mp more
    nlinarith
  unfold roundEven
  dsimp only
  generalize num / den = quotient at *
  generalize num % den = remainder at *
  obtain rfl | rfl : n = quotient ∨ n = quotient + 1 := by omega
  · have tie : 2 * remainder ≤ den := by
      have : (2 : ℚ) * remainder ≤ den := by linarith
      exact_mod_cast this
    have tie' : n % 2 = 1 → 2 * remainder < den := by
      intro isOdd
      have : (2 : ℚ) * remainder < den := by linarith [(odd isOdd).2]
      exact_mod_cast this
    rw [if_neg (by omega)]
  · have tie : den ≤ 2 * remainder := by
      have : (den : ℚ) ≤ 2 * remainder := by
        push_cast at low
        linarith
      exact_mod_cast this
    have tie' : (quotient + 1) % 2 = 1 → den < 2 * remainder := by
      intro isOdd
      have : (den : ℚ) < 2 * remainder := by
        have first := (odd isOdd).1
        push_cast at first
        linarith
      exact_mod_cast this
    rw [if_pos (by omega)]

/-! ## The fractions around a double -/

/-- How far the fractions around a double reach below it, in units of its exponent. The
neighbour below a power of two is half as far away as others. -/
def lowerReach (m : Nat) (q : Int) : ℚ := if m = 2 ^ 52 ∧ -1074 < q then 1 / 4 else 1 / 2

/-- A number lies around that of a double; the ends belong to a double with an even
significand. -/
structure RoundsTo (v : ℚ) (m : Nat) (q : Int) : Prop where
  low : (m - lowerReach m q) * 2 ^ q ≤ v
  high : v ≤ (m + 1 / 2) * 2 ^ q
  odd : m % 2 = 1 → (m - lowerReach m q) * 2 ^ q < v ∧ v < (m + 1 / 2) * 2 ^ q

theorem lowerReach_cases (m : Nat) (q : Int) :
    (lowerReach m q = 1 / 4 ∧ m = 2 ^ 52 ∧ -1074 < q) ∨
    (lowerReach m q = 1 / 2 ∧ ¬(m = 2 ^ 52 ∧ -1074 < q)) := by
  unfold lowerReach
  split
  next power => exact .inl ⟨rfl, power⟩
  next other => exact .inr ⟨rfl, other⟩

theorem lowerReach_le (m : Nat) (q : Int) : lowerReach m q ≤ 1 / 2 := by
  rcases lowerReach_cases m q with ⟨reach, _⟩ | ⟨reach, _⟩ <;> rw [reach]
  norm_num

theorem lowerReach_pos (m : Nat) (q : Int) : 0 < lowerReach m q := by
  rcases lowerReach_cases m q with ⟨reach, _⟩ | ⟨reach, _⟩ <;> rw [reach] <;> norm_num

variable {num den m : Nat} {q : Int}

/-- The exponent that a fraction is rounded on. -/
theorem exponent_eq (top : 0 < num) (bottom : 0 < den) (least : -1074 ≤ q)
    (low : q = -1074 ∨ 2 ^ 52 * 2 ^ q ≤ (num : ℚ) / den) (high : (num : ℚ) / den < 2 ^ 53 * 2 ^ q) :
    max leastExponent (leadingBit num den - fractionBits) = q := by
  obtain ⟨below, above⟩ := leadingBit_spec top bottom
  have lowest : leastExponent = -1074 := rfl
  have count : (fractionBits : Int) = 52 := rfl
  have up : (2 : ℚ) ^ 53 * 2 ^ q = 2 ^ (53 + q) := by
    rw [zpow_add₀ two_ne_zero]
    norm_num
  have down : (2 : ℚ) ^ 52 * 2 ^ q = 2 ^ (52 + q) := by
    rw [zpow_add₀ two_ne_zero]
    norm_num
  rw [up] at high
  rw [down] at low
  have less : leadingBit num den < 53 + q :=
    (zpow_lt_zpow_iff_right₀ one_lt_two).mp (below.trans_lt high)
  rw [lowest, count]
  rcases low with rfl | low
  · omega
  · have more : 52 + q < leadingBit num den + 1 :=
      (zpow_lt_zpow_iff_right₀ one_lt_two).mp (low.trans_lt above)
    omega

/-- A fraction is rounded to the significand it is nearest to on the grid of its exponent. With a
significand of one bit more the bits are those of the next exponent. -/
theorem nearestBits_of_significand (top : 0 < num) (bottom : 0 < den) (least : -1074 ≤ q)
    (low : q = -1074 ∨ 2 ^ 52 * 2 ^ q ≤ (num : ℚ) / den) (high : (num : ℚ) / den < 2 ^ 53 * 2 ^ q)
    (below : (m - 1 / 2) * 2 ^ q ≤ (num : ℚ) / den) (above : (num : ℚ) / den ≤ (m + 1 / 2) * 2 ^ q)
    (odd : m % 2 = 1 →
      (m - 1 / 2) * 2 ^ q < (num : ℚ) / den ∧ (num : ℚ) / den < (m + 1 / 2) * 2 ^ q) :
    nearestBits num den = bitsOf m q := by
  have unit : (0 : ℚ) < 2 ^ q := by positivity
  have significand : roundEven (num * powerDown 2 q) (den * powerUp 2 q) = m := by
    apply roundEven_eq (Nat.mul_pos bottom (powerUp_pos (by decide) q))
    · rw [on_grid, Nat.cast_two, le_div_iff₀ unit]
      exact below
    · rw [on_grid, Nat.cast_two, div_le_iff₀ unit]
      exact above
    · intro isOdd
      rw [on_grid, Nat.cast_two, lt_div_iff₀ unit, div_lt_iff₀ unit]
      exact odd isOdd
  unfold nearestBits
  rw [if_neg top.ne']
  dsimp only
  rw [exponent_eq top bottom least low high, significand, bitsOf]

/-- The fractions around a double are rounded to its bits. -/
theorem nearestBits_eq (canonical : Canonical m q) (positive : 0 < m) (bottom : 0 < den)
    (rounds : RoundsTo ((num : ℚ) / den) m q) : nearestBits num den = bitsOf m q := by
  obtain ⟨small, least, most, leading⟩ := canonical
  obtain ⟨low, high, odd⟩ := rounds
  have reach := lowerReach_le m q
  have unit : (0 : ℚ) < 2 ^ q := by positivity
  have one : (1 : ℚ) ≤ m := by exact_mod_cast positive
  have large : (m : ℚ) + 1 ≤ 2 ^ 53 := by exact_mod_cast small
  have number : (0 : ℚ) < num / den := lt_of_lt_of_le (by nlinarith) low
  have top : 0 < num := by
    rw [Nat.pos_iff_ne_zero]
    rintro rfl
    simp at number
  by_cases inside : q = -1074 ∨ 2 ^ 52 * 2 ^ q ≤ (num : ℚ) / den
  · apply nearestBits_of_significand top bottom least inside (high.trans_lt (by nlinarith)) _ high
    · intro isOdd
      obtain ⟨above, below⟩ := odd isOdd
      exact ⟨by nlinarith, below⟩
    · nlinarith
  · -- a fraction just below a power of two has a smaller exponent, and carries
    obtain ⟨above, below⟩ : -1074 < q ∧ (num : ℚ) / den < 2 ^ 52 * 2 ^ q := by
      rw [not_or, not_le] at inside
      exact ⟨by omega, inside.2⟩
    have power : m = 2 ^ 52 := by
      by_contra other
      have more : (2 : ℚ) ^ 52 + 1 ≤ m := by
        exact_mod_cast (by omega : 2 ^ 52 + 1 ≤ m)
      nlinarith
    have quarter : lowerReach m q = 1 / 4 := if_pos ⟨power, above⟩
    rw [quarter, power] at low
    push_cast at low
    have halved : (2 : ℚ) ^ q = 2 * 2 ^ (q - 1) := by
      rw [← zpow_one_add₀ two_ne_zero]
      congr 1
      ring
    rw [halved] at low below
    have unit' : (0 : ℚ) < 2 ^ (q - 1) := by positivity
    obtain ⟨n, carry⟩ : ∃ n : Nat, n = 2 ^ 53 := ⟨_, rfl⟩
    have cast : (n : ℚ) = 2 ^ 53 := by exact_mod_cast carry
    have carried : bitsOf n (q - 1) = bitsOf m q := by
      have lowest : leastExponent = -1074 := rfl
      have hidden : hiddenBit = 2 ^ 52 := rfl
      unfold bitsOf
      rw [lowest, hidden]
      omega
    rw [← carried]
    apply nearestBits_of_significand top bottom (by omega) (.inr (by linarith)) (by linarith)
    · rw [cast]
      linarith
    · rw [cast]
      linarith
    · intro isOdd
      omega

/-- The number of a double lies around it. -/
theorem roundsTo_self (m : Nat) (q : Int) : RoundsTo ((m : ℚ) * 2 ^ q) m q := by
  have unit : (0 : ℚ) < 2 ^ q := by positivity
  have reach := lowerReach_pos m q
  have below : (m - lowerReach m q) * 2 ^ q < (m : ℚ) * 2 ^ q := by nlinarith
  have above : (m : ℚ) * 2 ^ q < (m + 1 / 2) * 2 ^ q := by nlinarith
  exact ⟨below.le, above.le, fun _ => ⟨below, above⟩⟩

/-! ## Integers -/

/-- A positive integer up to `2 ^ 53` is a significand, moved until it has its leading bit, with
an exponent. -/
theorem exists_canonical {k : Nat} (positive : 0 < k) (small : k ≤ 2 ^ 53) :
    ∃ m q, Canonical m q ∧ 0 < m ∧ (m : ℚ) * 2 ^ q = k := by
  rcases Nat.lt_or_eq_of_le small with less | rfl
  · have lower : 2 ^ k.log2 ≤ k := Nat.log2_self_le positive.ne'
    have upper : k < 2 ^ (k.log2 + 1) := Nat.lt_log2_self
    have bits : k.log2 ≤ 52 := Nat.lt_succ_iff.mp (Nat.pow_lt_pow_iff_right (by decide) |>.mp
      (lower.trans_lt less))
    obtain ⟨shift, total⟩ := Nat.exists_eq_add_of_le bits
    refine ⟨k * 2 ^ shift, -shift, ⟨?_, by omega, by omega, .inr ?_⟩, by positivity, ?_⟩
    · calc k * 2 ^ shift < 2 ^ (k.log2 + 1) * 2 ^ shift := by gcongr
        _ = 2 ^ 53 := by
            rw [← pow_add]
            congr 1
            omega
    · calc 2 ^ 52 = 2 ^ k.log2 * 2 ^ shift := by rw [total, pow_add]
        _ ≤ k * 2 ^ shift := by gcongr
    · push_cast
      rw [zpow_neg, zpow_natCast, mul_assoc, mul_inv_cancel₀ (by positivity), mul_one]
  · exact ⟨2 ^ 52, 1, ⟨by decide, by decide, by decide, .inr (by decide)⟩, by decide, by norm_num⟩

/-- An integer of at most 53 bits has a double of its own. -/
theorem rational?_ofInt {n : Int} (small : n.natAbs ≤ 2 ^ 53) : rational? (ofInt n) = some n := by
  obtain ⟨m, q, canonical, bits, value⟩ : ∃ m q, Canonical m q ∧
      nearestBits n.natAbs 1 = bitsOf m q ∧ (m : ℚ) * 2 ^ q = n.natAbs := by
    rcases Nat.eq_zero_or_pos n.natAbs with zero | positive
    · rw [zero]
      exact ⟨0, -1074, ⟨by decide, by decide, by decide, .inl rfl⟩, rfl, by simp⟩
    · obtain ⟨m, q, canonical, some, value⟩ := exists_canonical positive small
      refine ⟨m, q, canonical, nearestBits_eq canonical some one_pos ?_, value⟩
      rw [Nat.cast_one, div_one, ← value]
      exact roundsTo_self m q
  unfold ofInt
  rw [bits, min_eq_right (bitsOf_lt canonical).le, rational?, decode_ofBits canonical]
  simp only [scaled, value, decide_eq_true_eq, Nat.cast_natAbs]
  congr 1
  split
  next negative =>
    rw [abs_of_neg (by exact_mod_cast negative)]
    push_cast
    ring
  next positive => rw [abs_of_nonneg (by exact_mod_cast not_lt.mp positive)]

end Binary64

end EplLang
