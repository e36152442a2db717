import EplLang.Number.Binary64
import EplLang.Proofs.Number

/-!
# The rational numbers that doubles stand for

A finite double stands for a rational number, its significand times a power of two
(`rational?`). Comparing two finite doubles is comparing these numbers (`ge_iff`): a double with a
greater exponent has the greater absolute value because significands that are not least have their
leading bit.

Cutting a double toward zero is cutting its number (`toInt64?_eq_some_iff`), so the cut keeps the
order (`Cuts.mono`). What fits a signed word of 64 bits stays well below the greatest one, as the
doubles below `2 ^ 63` lie `1024` apart there (`Cuts.le`).
-/

set_option autoImplicit false

namespace EplLang

open Float.Model

namespace Binary64

/-- A significand times a power of two, with a sign. -/
def scaled (negative : Bool) (m : Nat) (q : Int) : ℚ :=
  if negative then -((m : ℚ) * 2 ^ q) else (m : ℚ) * 2 ^ q

/-- The number that a finite double stands for. -/
def rational? (x : Float) : Option ℚ :=
  match decode x with
  | .finite negative m q => some (scaled negative m q)
  | _ => none

/-! ## Bits -/

/-- The bits of a double are a sign, the field of its exponent and a fraction. -/
theorem toNat_toBits (x : Float) :
    let size := x.toBits.toNat / hiddenBit % fields * 2 ^ 52 + x.toBits.toNat % hiddenBit
    x.toBits.toNat = if decide (Word.half ≤ x.toBits.toNat) then 2 ^ 63 + size else size := by
  have word : x.toBits.toNat < 2 ^ 64 := x.toBits.toNat_lt
  have hidden : hiddenBit = 2 ^ 52 := rfl
  have half : Word.half = 2 ^ 63 := rfl
  have count : fields = 2048 := rfl
  rw [hidden, half, count]
  generalize x.toBits.toNat = bits at word
  dsimp only
  by_cases sign : 2 ^ 63 ≤ bits
  · rw [decide_eq_true sign, if_pos rfl]
    omega
  · rw [decide_eq_false sign, if_neg Bool.false_ne_true]
    omega

/-- The bits of a finite double. -/
theorem bits_of_finite {x : Float} {negative : Bool} {m : Nat} {q : Int}
    (decoded : decode x = .finite negative m q) :
    ∃ field fraction : Nat, field < 2047 ∧ fraction < 2 ^ 52 ∧
      (x.toBits.toNat = if negative then 2 ^ 63 + (field * 2 ^ 52 + fraction)
        else field * 2 ^ 52 + fraction) ∧
      (field = 0 ∧ m = fraction ∧ q = -1074 ∨
        0 < field ∧ m = 2 ^ 52 + fraction ∧ q = field - 1075) := by
  have whole := toNat_toBits x
  have field : x.toBits.toNat / hiddenBit % fields < 2048 := Nat.mod_lt _ (by decide)
  have fraction : x.toBits.toNat % hiddenBit < 2 ^ 52 :=
    Nat.mod_lt _ (by decide : 0 < hiddenBit)
  have top : topField = 2047 := rfl
  unfold decode at decoded
  dsimp only at decoded
  split at decoded
  · split at decoded <;> cases decoded
  split at decoded
  next least =>
    cases decoded
    exact ⟨_, _, by omega, fraction, whole, .inl ⟨least, rfl, rfl⟩⟩
  next =>
    cases decoded
    exact ⟨_, _, by omega, fraction, whole, .inr ⟨by omega, rfl, rfl⟩⟩

/-- What is read off the bits of a finite double. -/
theorem decode_range {x : Float} {negative : Bool} {m : Nat} {q : Int}
    (decoded : decode x = .finite negative m q) :
    m < 2 ^ 53 ∧ -1074 ≤ q ∧ q ≤ 971 ∧ (q = -1074 ∨ 2 ^ 52 ≤ m) := by
  obtain ⟨field, fraction, most, small, -, shape⟩ := bits_of_finite decoded
  omega

/-- Whether a sign is that of negative numbers. -/
def signIsNegative : UnpackedFloat.Sign → Bool
  | .negative => true
  | .positive => false

/-- The parts of an unpacked double. -/
def ofUnpacked : UnpackedFloat → Decoded
  | .notANumber => .nan
  | .infinity sign => .infinite (signIsNegative sign)
  | .zero sign => .finite (signIsNegative sign) 0 leastExponent
  | .finite sign m e _ => .finite (signIsNegative sign) m e

/-- The sign of a word. -/
theorem signIsNegative_unpackSign (w : UInt64) :
    signIsNegative (.ofBitVec (@UnpackedFloat.unpackSign .binary64 w.toBitVec)) =
      decide (Word.half ≤ w.toNat) := by
  have half : Word.half = 2 ^ 63 := rfl
  have small : w.toNat < 2 ^ 64 := w.toNat_lt
  have bit : (@UnpackedFloat.unpackSign .binary64 w.toBitVec).toNat = w.toNat / 2 ^ 63 % 2 := by
    simp [UnpackedFloat.unpackSign, Nat.shiftRight_eq_div_pow]
  unfold UnpackedFloat.Sign.ofBitVec
  split
  next zero =>
    rw [zero] at bit
    have below : ¬Word.half ≤ w.toNat := by
      simp only [BitVec.toNat_ofNat, Nat.zero_mod] at bit
      omega
    rw [decide_eq_false below, signIsNegative]
  next one =>
    have above : Word.half ≤ w.toNat := by
      by_contra below
      refine one (BitVec.eq_of_toNat_eq ?_)
      rw [bit]
      simp only [BitVec.toNat_ofNat, Nat.zero_mod]
      omega
    rw [decide_eq_true above, signIsNegative]

/-- The fields of a word decide how it is unpacked. -/
theorem unpack_fields (w : UInt64) :
    (@UnpackedFloat.unpackExponent .binary64 w.toBitVec = -1#11 ↔
      w.toNat / hiddenBit % fields = topField) ∧
    (@UnpackedFloat.unpackExponent .binary64 w.toBitVec = 0#11 ↔
      w.toNat / hiddenBit % fields = 0) ∧
    (@UnpackedFloat.unpackMantissa .binary64 w.toBitVec = 0#52 ↔ w.toNat % hiddenBit = 0) := by
  have field : (@UnpackedFloat.unpackExponent .binary64 w.toBitVec).toNat =
    w.toNat / hiddenBit % fields := toNat_unpackExponent w
  have fraction : (@UnpackedFloat.unpackMantissa .binary64 w.toBitVec).toNat =
    w.toNat % hiddenBit := toNat_unpackMantissa w
  rw [← field, ← fraction]
  refine ⟨?_, ?_, ?_⟩ <;> exact BitVec.toNat_inj.symm

theorem decode_eq (x : Float) : decode x = ofUnpacked x.toModel.unpack := by
  obtain ⟨topIff, zeroIff, noneIff⟩ := unpack_fields x.toBits
  have sign := signIsNegative_unpackSign x.toBits
  have field : (@UnpackedFloat.unpackExponent .binary64 x.toBits.toBitVec).toNat =
    x.toBits.toNat / hiddenBit % fields := toNat_unpackExponent x.toBits
  have fraction : (@UnpackedFloat.unpackMantissa .binary64 x.toBits.toBitVec).toNat =
    x.toBits.toNat % hiddenBit := toNat_unpackMantissa x.toBits
  have bits : x.toModel.toBits = x.toBits := rfl
  unfold decode Float.Model.unpack UnpackedFloat.unpack
  rw [bits]
  dsimp only
  by_cases top : x.toBits.toNat / hiddenBit % fields = topField
  · rw [if_pos top, if_pos (topIff.mpr top)]
    by_cases none : x.toBits.toNat % hiddenBit = 0
    · rw [if_pos none, if_pos (noneIff.mpr none), ofUnpacked, sign]
    · rw [if_neg none, if_neg (mt noneIff.mp none), ofUnpacked]
  · rw [if_neg top, if_neg (mt topIff.mp top)]
    by_cases least : x.toBits.toNat / hiddenBit % fields = 0
    · rw [if_pos least, if_pos (zeroIff.mpr least)]
      by_cases none : x.toBits.toNat % hiddenBit = 0
      · rw [dif_pos (noneIff.mpr none), ofUnpacked, sign, none]
      · rw [dif_neg (mt noneIff.mp none), ofUnpacked, sign, fraction, field, least]
        rfl
    · have small : x.toBits.toNat % hiddenBit < 2 ^ 52 :=
        Nat.mod_lt _ (by decide : 0 < hiddenBit)
      rw [if_neg least, if_neg (mt zeroIff.mp least), ofUnpacked, sign, field, BitVec.toNat_append,
        fraction, ← Nat.shiftLeft_add_eq_or_of_lt small]
      rfl

/-! ## Order -/

/-- Of two significands with their exponents, the one with the greater exponent is the greater
number, and among equal exponents the greater significand is. -/
theorem compare_scaled {m m' : Nat} {q q' : Int} (small : m < 2 ^ 53) (small' : m' < 2 ^ 53)
    (least : -1074 ≤ q) (least' : -1074 ≤ q') (leading : q = -1074 ∨ 2 ^ 52 ≤ m)
    (leading' : q' = -1074 ∨ 2 ^ 52 ≤ m') :
    (compare q q').then (compare m m') = compare ((m : ℚ) * 2 ^ q) ((m' : ℚ) * 2 ^ q') := by
  have below {m m' : Nat} {q q' : Int} (small : m < 2 ^ 53) (leading : 2 ^ 52 ≤ m')
      (less : q < q') : (m : ℚ) * 2 ^ q < (m' : ℚ) * 2 ^ q' := by
    calc (m : ℚ) * 2 ^ q < 2 ^ 53 * 2 ^ q := by
          gcongr
          exact_mod_cast small
      _ = 2 ^ 52 * 2 ^ (q + 1) := by
          rw [zpow_add₀ two_ne_zero]
          ring
      _ ≤ (m' : ℚ) * 2 ^ q' := by
          gcongr
          · exact_mod_cast leading
          · norm_num
          · omega
  rcases lt_trichotomy q q' with less | same | greater
  · rw [compare_lt_iff_lt.mpr less, compare_lt_iff_lt.mpr (below small (by omega) less)]
    rfl
  · subst same
    have positive : (0 : ℚ) < 2 ^ q := by positivity
    rw [compare_eq_iff_eq.mpr rfl, Ordering.eq_then]
    rcases lt_trichotomy m m' with less | rfl | greater
    · rw [compare_lt_iff_lt.mpr less, compare_lt_iff_lt.mpr (by gcongr)]
    · rw [compare_eq_iff_eq.mpr rfl, compare_eq_iff_eq.mpr rfl]
    · rw [compare_gt_iff_gt.mpr greater, compare_gt_iff_gt.mpr (by gcongr)]
  · rw [compare_gt_iff_gt.mpr greater, compare_gt_iff_gt.mpr (below small' (by omega) greater)]
    rfl

theorem compare_neg (a b : ℚ) : (compare a b).swap = compare (-a) (-b) := by
  rcases lt_trichotomy a b with less | rfl | greater
  · rw [compare_lt_iff_lt.mpr less, compare_gt_iff_gt.mpr (neg_lt_neg less), Ordering.swap_lt]
  · rw [compare_eq_iff_eq.mpr rfl, compare_eq_iff_eq.mpr rfl, Ordering.swap_eq]
  · rw [compare_gt_iff_gt.mpr greater, compare_lt_iff_lt.mpr (neg_lt_neg greater),
      Ordering.swap_gt]

/-- A finite double is zero or has a sign, a significand and an exponent. -/
theorem rational?_cases {x : Float} {r : ℚ} (exact : rational? x = some r) :
    (∃ sign, x.toModel.unpack = .zero sign ∧ r = 0) ∨
    ∃ sign m q positive, x.toModel.unpack = .finite sign m q positive ∧
      r = scaled (signIsNegative sign) m q ∧ m < 2 ^ 53 ∧ -1074 ≤ q ∧ (q = -1074 ∨ 2 ^ 52 ≤ m) := by
  have decoded := decode_eq x
  cases unpacked : x.toModel.unpack with
  | notANumber => simp [rational?, decoded, unpacked, ofUnpacked] at exact
  | infinity sign => simp [rational?, decoded, unpacked, ofUnpacked] at exact
  | zero sign =>
      simp only [rational?, decoded, unpacked, ofUnpacked, scaled, Option.some.injEq] at exact
      exact .inl ⟨sign, rfl, by simpa using exact.symm⟩
  | finite sign m q positive =>
      rw [unpacked, ofUnpacked] at decoded
      simp only [rational?, decoded, Option.some.injEq] at exact
      obtain ⟨small, least, -, leading⟩ := decode_range decoded
      exact .inr ⟨sign, m, q, positive, rfl, exact.symm, small, least, leading⟩

/-- Finite doubles compare as their numbers do. -/
theorem compare_exact {x y : Float} {r r' : ℚ} (first : rational? x = some r)
    (second : rational? y = some r') :
    x.toModel.unpack.compare y.toModel.unpack = some (compare r r') := by
  have above {m : Nat} (q : Int) (positive : 0 < m) : (0 : ℚ) < m * 2 ^ q := by positivity
  rcases rational?_cases first with
    ⟨sign, zero, rfl⟩ | ⟨sign, m, q, positive, finite, rfl, small, least, leading⟩
  · rcases rational?_cases second with
      ⟨sign', zero', rfl⟩ | ⟨sign', m', q', positive', finite', rfl, small', least', leading'⟩
    · rw [zero, zero', UnpackedFloat.compare, compare_eq_iff_eq.mpr rfl]
    · have number := above q' positive'
      rw [zero, finite']
      cases sign' with
      | negative =>
          rw [compare_gt_iff_gt.mpr (by simpa [scaled, signIsNegative] using number)]
          rfl
      | positive =>
          rw [compare_lt_iff_lt.mpr (by simpa [scaled, signIsNegative] using number)]
          rfl
  · have number := above q positive
    rcases rational?_cases second with
      ⟨sign', zero', rfl⟩ | ⟨sign', m', q', positive', finite', rfl, small', least', leading'⟩
    · rw [finite, zero']
      cases sign with
      | negative =>
          rw [compare_lt_iff_lt.mpr (by simpa [scaled, signIsNegative] using number)]
          rfl
      | positive =>
          rw [compare_gt_iff_gt.mpr (by simpa [scaled, signIsNegative] using number)]
          rfl
    · have number' := above q' positive'
      have sizes := compare_scaled small small' least least' leading leading'
      rw [finite, finite']
      cases sign with
      | negative =>
          cases sign' with
          | negative =>
              rw [scaled, scaled, signIsNegative, if_pos rfl, if_pos rfl, ← compare_neg, ← sizes]
              rfl
          | positive =>
              rw [compare_lt_iff_lt.mpr (by simp [scaled, signIsNegative]; linarith)]
              rfl
      | positive =>
          cases sign' with
          | negative =>
              rw [compare_gt_iff_gt.mpr (by simp [scaled, signIsNegative]; linarith)]
              rfl
          | positive =>
              rw [scaled, scaled, signIsNegative, if_neg Bool.false_ne_true,
                if_neg Bool.false_ne_true, ← sizes]
              rfl

theorem ge_iff_compare {x y : Float} :
    x ≥ y ↔ (y.toModel.unpack.compare x.toModel.unpack).any (·.isLE) = true :=
  decide_eq_true_iff

/-- One finite double is at least another if its number is. -/
theorem ge_iff {x y : Float} {r r' : ℚ} (first : rational? x = some r) (second : rational? y = some r') :
    x ≥ y ↔ r' ≤ r := by
  rw [ge_iff_compare, compare_exact second first, Option.any_some, Ordering.isLE_iff_ne_gt]
  exact compare_gt_iff_gt.not.trans not_lt

theorem compare_swap (u w : UnpackedFloat) : w.compare u = (u.compare w).map Ordering.swap := by
  cases u with
  | notANumber => cases w <;> rfl
  | infinity sign =>
      cases w with
      | infinity sign' => cases sign <;> cases sign' <;> rfl
      | _ => cases sign <;> rfl
  | zero sign =>
      cases w with
      | infinity sign' => cases sign' <;> rfl
      | finite sign' m' q' positive' => cases sign' <;> rfl
      | _ => rfl
  | finite sign m q positive =>
      cases w with
      | notANumber => rfl
      | infinity sign' => cases sign <;> cases sign' <;> rfl
      | zero sign' => cases sign <;> rfl
      | finite sign' m' q' positive' =>
          cases sign <;> cases sign' <;>
            simp [UnpackedFloat.compare, Ordering.swap_then, Int.compare_swap, Nat.compare_swap]

theorem isNan_iff (x : Float) : isNan x = true ↔ x.toModel.unpack = .notANumber := by
  rw [isNan, decode_eq]
  cases x.toModel.unpack <;> simp [ofUnpacked]

theorem nan_of_compare {u w : UnpackedFloat} (incomparable : u.compare w = none) :
    u = .notANumber ∨ w = .notANumber := by
  cases u with
  | notANumber => exact .inl rfl
  | infinity sign => cases w <;> cases sign <;> simp_all [UnpackedFloat.compare]
  | zero sign =>
      cases w with
      | notANumber => exact .inr rfl
      | infinity sign' => cases sign' <;> cases incomparable
      | zero sign' => cases incomparable
      | finite sign' m' q' positive' => cases sign' <;> cases incomparable
  | finite sign m q positive =>
      cases w with
      | notANumber => exact .inr rfl
      | infinity sign' => cases sign <;> cases sign' <;> cases incomparable
      | zero sign' => cases sign <;> cases incomparable
      | finite sign' m' q' positive' => cases sign <;> cases sign' <;> cases incomparable

/-- Two doubles are in order unless one of them is no number. -/
theorem lt_of_not_ge {x y : Float} (less : ¬x ≥ y) : x < y ∨ isNan x = true ∨ isNan y = true := by
  rw [ge_iff_compare] at less
  rw [isNan_iff, isNan_iff]
  cases compared : y.toModel.unpack.compare x.toModel.unpack with
  | none => exact .inr (nan_of_compare compared).symm
  | some order =>
      rw [compared, Option.any_some] at less
      have greater : order = .gt := by
        cases order with
        | gt => rfl
        | lt | eq => exact absurd rfl less
      have swapped := compare_swap y.toModel.unpack x.toModel.unpack
      rw [compared, greater] at swapped
      have below : x.toModel < y.toModel := beq_iff_eq.mpr swapped
      exact .inl (decide_eq_true below)

/-! ## Cutting toward zero -/

/-- A number cut toward zero. -/
def truncation (r : ℚ) : Int := if 0 ≤ r then ⌊r⌋ else ⌈r⌉

theorem truncation_mono : Monotone truncation := by
  intro a b order
  unfold truncation
  split
  next above =>
    rw [if_pos (above.trans order)]
    exact Int.floor_mono order
  next below =>
    have negative : ⌈a⌉ ≤ 0 := Int.ceil_le.mpr (by exact_mod_cast (not_le.mp below).le)
    split
    next above => exact negative.trans (Int.floor_nonneg.mpr above)
    next => exact Int.ceil_mono order

theorem truncation_neg (r : ℚ) : truncation (-r) = -truncation r := by
  unfold truncation
  rcases lt_trichotomy r 0 with below | rfl | above
  · rw [if_pos (by linarith), if_neg (by linarith), Int.floor_neg]
  · simp
  · rw [if_neg (by linarith), if_pos above.le, Int.ceil_neg]

/-- A power as a quotient of two natural numbers. -/
theorem powers_eq_zpow (base : Nat) (q : Int) :
    ((powerUp base q : Nat) : ℚ) / (powerDown base q : Nat) = (base : ℚ) ^ q := by
  unfold powerUp powerDown
  rcases Int.le_total 0 q with above | below
  · obtain ⟨k, rfl⟩ := Int.eq_ofNat_of_zero_le above
    simp
  · obtain ⟨k, same⟩ := Int.eq_ofNat_of_zero_le (Int.neg_nonneg_of_nonpos below)
    obtain rfl : q = -(k : Int) := by omega
    simp

theorem truncation_scaled (negative : Bool) (m : Nat) (q : Int) :
    truncation (scaled negative m q) =
      if negative then -((m * powerUp 2 q / powerDown 2 q : Nat) : Int)
      else (m * powerUp 2 q / powerDown 2 q : Nat) := by
  have size : truncation ((m : ℚ) * 2 ^ q) = (m * powerUp 2 q / powerDown 2 q : Nat) := by
    have fraction : (m : ℚ) * 2 ^ q = ((m * powerUp 2 q : Nat) : ℚ) / (powerDown 2 q : Nat) := by
      rw [Nat.cast_mul, mul_div_assoc, powers_eq_zpow, Nat.cast_ofNat]
    rw [truncation, if_pos (by positivity), fraction, Rat.floor_natCast_div_natCast]
    rfl
  cases negative with
  | true => rw [scaled, if_pos rfl, if_pos rfl, truncation_neg, size]
  | false => rw [scaled, if_neg Bool.false_ne_true, if_neg Bool.false_ne_true, size]

/-- A double stands for a number that is cut to an integer of 64 bits. -/
def Cuts (x : Float) (n : Int) : Prop :=
  ∃ r, rational? x = some r ∧ truncation r = n ∧ -2 ^ 63 ≤ n ∧ n < 2 ^ 63

theorem toInt64?_eq_some_iff {x : Float} {n : Int} : toInt64? x = some n ↔ Cuts x n := by
  have least : Word.least = -2 ^ 63 := rfl
  have greatest : Word.greatest = 2 ^ 63 - 1 := rfl
  unfold toInt64? Cuts rational?
  cases decode x with
  | nan => simp
  | infinite negative => simp
  | finite negative m q =>
      simp only [Option.some.injEq, exists_eq_left', truncation_scaled]
      generalize (if negative = true then -((m * powerUp 2 q / powerDown 2 q : Nat) : Int)
        else (m * powerUp 2 q / powerDown 2 q : Nat)) = cut
      constructor
      · intro fits
        split at fits
        · cases fits
          omega
        · cases fits
      · rintro ⟨rfl, above, below⟩
        rw [if_pos (by omega)]

/-- What fits a signed word lies below the greatest one by at least `1023`: from `2 ^ 62` on,
doubles are multiples of `1024`. -/
theorem Cuts.le {x : Float} {n : Int} (cuts : Cuts x n) : n ≤ 2 ^ 63 - 1024 := by
  obtain ⟨r, exact, rfl, _, below⟩ := cuts
  unfold rational? at exact
  split at exact
  next negative m q decoded =>
    obtain ⟨small, _, _⟩ := decode_range decoded
    cases exact
    rw [truncation_scaled] at below ⊢
    cases negative with
    | true =>
        rw [if_pos rfl]
        generalize m * powerUp 2 q / powerDown 2 q = size
        omega
    | false =>
        rw [if_neg Bool.false_ne_true] at below ⊢
        rcases lt_or_ge q 10 with low | high
        · have power : powerUp 2 q ≤ 2 ^ 9 := Nat.pow_le_pow_right (by decide) (by omega)
          have product : m * powerUp 2 q ≤ m * 2 ^ 9 := Nat.mul_le_mul_left m power
          have quotient := Nat.div_le_self (m * powerUp 2 q) (powerDown 2 q)
          omega
        · obtain ⟨k, same⟩ := Int.eq_ofNat_of_zero_le (Int.sub_nonneg_of_le high)
          obtain rfl : q = ((10 + k : Nat) : Int) := by omega
          have up : powerUp 2 ((10 + k : Nat) : Int) = 1024 * 2 ^ k := Nat.pow_add 2 10 k
          have down : powerDown 2 ((10 + k : Nat) : Int) = 1 := by simp [powerDown]
          have multiple : m * (1024 * 2 ^ k) = 1024 * (m * 2 ^ k) := by ring
          rw [up, down, Nat.div_one, multiple] at below ⊢
          omega
  next => cases exact

theorem Cuts.mono {x y : Float} {low high : Int} (first : Cuts x low) (second : Cuts y high)
    (less : ¬x ≥ y) : low ≤ high := by
  obtain ⟨r, exact, rfl, _⟩ := first
  obtain ⟨r', exact', rfl, _⟩ := second
  rw [ge_iff exact exact', not_le] at less
  exact truncation_mono less.le

theorem Cuts.least {x : Float} {n : Int} (cuts : Cuts x n) : -2 ^ 63 ≤ n := by
  obtain ⟨_, _, _, least, _⟩ := cuts
  exact least

theorem Cuts.not_isNan {x : Float} {n : Int} (cuts : Cuts x n) : isNan x = false := by
  obtain ⟨r, exact, _⟩ := cuts
  unfold rational? at exact
  unfold isNan
  split at exact
  next decoded => rw [decoded]
  next => cases exact

theorem toInt64?_eq_none {x : Float} (outside : isNan x = true ∨ ∀ n, ¬Cuts x n) :
    toInt64? x = none := by
  cases cut : toInt64? x with
  | none => rfl
  | some n =>
      have cuts := toInt64?_eq_some_iff.mp cut
      rcases outside with nan | never
      · rw [cuts.not_isNan] at nan
        cases nan
      · exact absurd cuts (never n)

end Binary64

end EplLang
