import EplLang.Number.Reading
import EplLang.Proofs.ShortestDecimal

/-!
# Number texts read back

The text of a number stands for the shortest decimal of the number, however it is laid out
(`Layout.decimal_denotes`): the digits may be followed or led by zeros, hold a point, or have an
exponent, and what is read is the same product of an integer and a power of ten. The shortest
decimal rounds to its double, so the text is read as the number that it was written for
(`readNumber?_number`). In particular two numbers with the same text are the same number.
-/

set_option autoImplicit false

namespace EplLang

open Text (byte isDigit Digits)

namespace Text

/-! ## Digits as numbers -/

/-- The digit that a byte stands for. -/
def digitOf (b : UInt8) : Nat := (b - byte '0').toNat

/-- The byte of a digit. -/
def digitByte (d : Nat) : UInt8 := byte '0' + d.toUInt8

/-- A number with more digits after it. -/
def valueFrom (n : Nat) (t : Text) : Nat := t.foldl (fun n b => n * 10 + digitOf b) n

theorem valueFrom_append (n : Nat) (t u : Text) :
    valueFrom n (t ++ u) = valueFrom (valueFrom n t) u := List.foldl_append

theorem valueFrom_zeros (n k : Nat) :
    valueFrom n (List.replicate k (byte '0')) = n * 10 ^ k := by
  induction k generalizing n with
  | zero => exact (Nat.mul_one n).symm
  | succ k ih =>
    have zero : digitOf (byte '0') = 0 := rfl
    rw [List.replicate_succ, valueFrom, List.foldl_cons, zero, ← valueFrom, ih, Nat.pow_succ]
    ring

theorem le_valueFrom (n : Nat) (t : Text) : n ≤ valueFrom n t := by
  induction t generalizing n with
  | nil => exact le_rfl
  | cons b t ih => exact le_trans (by omega) (ih (n * 10 + digitOf b))

theorem ofNat_eq (n : Nat) :
    ofNat n = if n < 10 then [digitByte n] else ofNat (n / 10) ++ [digitByte (n % 10)] := by
  have encoded : ∀ d < 10, String.utf8EncodeChar (Nat.digitChar d) = [digitByte d] := by decide
  rw [ofNat_eq_flatMap, Nat.toDigits_eq_if (by decide)]
  split
  next small => rw [List.flatMap_singleton, encoded n small]
  next => rw [List.flatMap_append, List.flatMap_singleton, encoded _ (Nat.mod_lt _ (by decide)),
    ofNat_eq_flatMap]

theorem valueFrom_ofNat (n : Nat) : valueFrom 0 (ofNat n) = n := by
  have digit : ∀ d < 10, digitOf (digitByte d) = d := by decide
  induction n using Nat.strongRecOn with
  | ind n ih =>
    rw [ofNat_eq]
    split
    next small =>
      show 0 * 10 + digitOf (digitByte n) = n
      rw [digit n small]
      omega
    next large =>
      rw [valueFrom_append, ih (n / 10) (by omega)]
      show n / 10 * 10 + digitOf (digitByte (n % 10)) = n
      rw [digit _ (Nat.mod_lt _ (by decide))]
      omega

theorem length_ofNat (n : Nat) : (ofNat n).length = Decimal.digitCount n := by
  unfold Decimal.digitCount
  induction n using Nat.strongRecOn with
  | ind n ih =>
    rw [ofNat_eq, Nat.toDigits_eq_if (by decide)]
    split
    next => rfl
    next large => rw [List.length_append, List.length_append, ih (n / 10) (by omega)]; rfl

theorem isDigit_zeros (count : Nat) : ∀ b ∈ List.replicate count (byte '0'), isDigit b = true := by
  intro b member
  rw [List.eq_of_mem_replicate member]
  rfl

/-- Digits with zeros before them. -/
theorem digits_padded (count : Nat) {t : Text} (digits : Digits t) :
    Digits (List.replicate count (byte '0') ++ t) :=
  ⟨List.append_ne_nil_of_right_ne_nil _ digits.some,
    List.forall_mem_append.mpr ⟨isDigit_zeros count, digits.all⟩⟩

end Text

namespace Reading

open Text (digitOf valueFrom valueFrom_append valueFrom_zeros)
open Binary64 (RoundsTo Canonical powerUp powerDown bitsOf)

/-! ## Mantissas -/

/-- The significant digits of a mantissa are counted. -/
structure Counted (m : Mantissa) : Prop where
  none : m.value = 0 → m.digits = 0
  high : m.value < 10 ^ m.digits
  low : m.value ≠ 0 → 10 ^ m.digits ≤ 10 * m.value

/-- A mantissa with the digits of a text after it. -/
def Mantissa.run (m : Mantissa) (t : Text) : Mantissa :=
  t.foldl (fun m b => m.push 10 (digitOf b)) m

/-- A mantissa after its point. -/
def Mantissa.pointed (m : Mantissa) : Mantissa := { m with seenPoint := true }

theorem Counted.pointed {m : Mantissa} (counted : Counted m) : Counted m.pointed :=
  ⟨counted.none, counted.high, counted.low⟩

theorem counted_push {m : Mantissa} (counted : Counted m) {d : Nat} (digit : d < 10) :
    Counted (m.push 10 d) := by
  obtain ⟨none, high, low⟩ := counted
  unfold Mantissa.push
  by_cases zero : m.value = 0
  · rw [none zero] at high low
    by_cases empty : d = 0
    · constructor <;> simp [zero, empty]
    · constructor <;> simp [zero, empty, none zero] <;> omega
  · have powers : 10 ^ (m.digits + 1) = 10 * 10 ^ m.digits := Nat.pow_succ'
    have bound := low zero
    constructor <;> simp [zero] <;> omega

theorem digitOf_lt {b : UInt8} (digit : isDigit b = true) : digitOf b < 10 := by
  have zero : (byte '0').toNat = 48 := rfl
  have nine : (byte '9').toNat = 57 := rfl
  simp only [isDigit, Bool.and_eq_true, decide_eq_true_eq, UInt8.le_iff_toNat_le] at digit
  rw [digitOf, UInt8.toNat_sub_of_le _ _ (UInt8.le_iff_toNat_le.mpr digit.1)]
  omega

theorem counted_run {m : Mantissa} (counted : Counted m) {t : Text}
    (all : ∀ b ∈ t, isDigit b = true) : Counted (m.run t) := by
  induction t generalizing m with
  | nil => exact counted
  | cons b t ih =>
    rw [List.forall_mem_cons] at all
    exact ih (counted_push counted (digitOf_lt all.1)) all.2

theorem value_run (m : Mantissa) (t : Text) : (m.run t).value = valueFrom m.value t := by
  induction t generalizing m with
  | nil => rfl
  | cons b t ih => exact ih (m.push 10 (digitOf b))

theorem seenPoint_run (m : Mantissa) (t : Text) : (m.run t).seenPoint = m.seenPoint := by
  induction t generalizing m with
  | nil => rfl
  | cons b t ih => exact ih (m.push 10 (digitOf b))

theorem places_run (m : Mantissa) (t : Text) :
    (m.run t).places = if m.seenPoint then m.places + t.length else m.places := by
  induction t generalizing m with
  | nil => simp [Mantissa.run]
  | cons b t ih =>
    refine (ih (m.push 10 (digitOf b))).trans ?_
    unfold Mantissa.push
    dsimp only
    split
    · rw [List.length_cons]
      omega
    · rfl

theorem places_whole (t : Text) : (Mantissa.run {} t).places = 0 := places_run {} t

theorem value_point (t u : Text) :
    ((Mantissa.run {} t).pointed.run u).value = valueFrom 0 (t ++ u) := by
  rw [value_run, valueFrom_append]
  exact congrArg (valueFrom · u) (value_run {} t)

theorem places_point (t u : Text) :
    ((Mantissa.run {} t).pointed.run u).places = u.length := by
  have point : (Mantissa.run {} t).pointed.seenPoint = true := rfl
  have places : (Mantissa.run {} t).pointed.places = 0 := places_whole t
  rw [places_run, point, places, if_pos rfl, Nat.zero_add]

theorem seenDigit_run (m : Mantissa) {t : Text} (some : m.seenDigit = true ∨ t ≠ []) :
    (m.run t).seenDigit = true := by
  induction t generalizing m with
  | nil => exact some.resolve_right (by simp)
  | cons b t ih => exact ih _ (.inl rfl)

/-- Digits are read one after the other. -/
theorem mantissa_run {m : Mantissa} {t : Text} (all : ∀ b ∈ t, isDigit b = true) (rest : Text) :
    mantissa 10 m (t ++ rest) = mantissa 10 (m.run t) rest := by
  induction t generalizing m with
  | nil => rfl
  | cons b t ih =>
    rw [List.forall_mem_cons] at all
    have digit : digit? 10 b = some (digitOf b) := by
      rw [digit?, if_neg (by decide), if_pos all.1]
      rfl
    rw [List.cons_append, mantissa, if_neg (Text.ne_of_class all.1 (by decide)),
      if_neg (Text.ne_of_class all.1 (by decide)), digit]
    exact ih all.2

/-- A text is read as a mantissa, at the end of a number or before an exponent. -/
structure Scans (t : Text) (m : Mantissa) : Prop where
  counted : Counted m
  seen : m.seenDigit = true
  atEnd : mantissa 10 {} t = (m, [])
  before : ∀ more, mantissa 10 {} (t ++ byte 'e' :: more) = (m, byte 'e' :: more)

theorem counted_empty : Counted {} := ⟨fun _ => rfl, Nat.one_pos, fun some => absurd rfl some⟩

theorem mantissa_stop (m : Mantissa) (more : Text) :
    mantissa 10 m (byte 'e' :: more) = (m, byte 'e' :: more) := by
  rw [mantissa, if_neg (by decide), if_neg (by decide)]
  rfl

theorem scans_whole {t : Text} (digits : Digits t) : Scans t (Mantissa.run {} t) := by
  refine ⟨counted_run counted_empty digits.all, seenDigit_run _ (.inr digits.some), ?_, ?_⟩
  · have read := mantissa_run (m := {}) digits.all []
    rwa [List.append_nil] at read
  · intro more
    rw [mantissa_run digits.all, mantissa_stop]

theorem scans_point {t u : Text} (whole : Digits t) (fraction : ∀ b ∈ u, isDigit b = true) :
    Scans (t ++ byte '.' :: u)
      ((Mantissa.run {} t).pointed.run u) := by
  have read (rest : Text) : mantissa 10 {} (t ++ byte '.' :: (u ++ rest)) =
      mantissa 10 ((Mantissa.run {} t).pointed.run u) rest := by
    rw [mantissa_run whole.all, mantissa, if_neg (by decide), if_pos rfl, seenPoint_run,
      if_neg (by decide)]
    exact mantissa_run fraction rest
  refine ⟨counted_run (counted_run counted_empty whole.all).pointed fraction,
    seenDigit_run _ (.inl (seenDigit_run _ (.inr whole.some))), ?_, ?_⟩
  · have atEnd := read []
    rwa [List.append_nil] at atEnd
  · intro more
    have before := read (byte 'e' :: more)
    rwa [mantissa_stop, ← List.cons_append, ← List.append_assoc] at before

/-! ## Exponents -/

theorem exponentDigits_run {e : Nat} {t : Text} (all : ∀ b ∈ t, isDigit b = true)
    (small : valueFrom e t < exponentCap) : exponentDigits e t = (valueFrom e t, []) := by
  induction t generalizing e with
  | nil => rfl
  | cons b t ih =>
    rw [List.forall_mem_cons] at all
    have below : e < exponentCap := (Text.le_valueFrom e (b :: t)).trans_lt small
    rw [exponentDigits, if_neg (Text.ne_of_class all.1 (by decide)), if_pos all.1, if_pos below]
    exact ih all.2 small

theorem exponent_signed (width : Nat) {e : Int} (small : e.natAbs < exponentCap) :
    exponent (Layout.signedExponent width e) = some (e, []) := by
  obtain ⟨u, unsigned⟩ : ∃ u, List.replicate (width - (Text.ofNat e.natAbs).length) (byte '0') ++
      Text.ofNat e.natAbs = u := ⟨_, rfl⟩
  have digits : Digits u := by
    rw [← unsigned]
    exact Text.digits_padded _ (Text.digits_ofNat _)
  have value : valueFrom 0 u = e.natAbs := by
    rw [← unsigned, valueFrom_append, valueFrom_zeros, Nat.zero_mul, Text.valueFrom_ofNat]
  have read : exponentDigits 0 u = (e.natAbs, []) := by
    rw [exponentDigits_run digits.all (value ▸ small), value]
  obtain ⟨b, u', rfl, digit⟩ := digits.first
  have text : Layout.signedExponent width e =
      (if e < 0 then byte '-' else byte '+') :: b :: u' := by
    rw [← unsigned]
    unfold Layout.signedExponent
    split <;> rfl
  rw [text, exponent]
  rcases lt_or_ge e 0 with below | above
  · rw [if_pos below, if_neg (by decide), if_pos rfl]
    dsimp only
    rw [if_pos digit, read]
    dsimp only
    rw [if_pos rfl]
    congr 2
    omega
  · rw [if_neg (not_lt.mpr above), if_pos rfl]
    dsimp only
    rw [if_pos digit, read]
    dsimp only
    rw [if_neg (by decide)]
    congr 2
    omega

/-! ## Decimals -/

/-- A text is read as a number, whichever its sign. -/
def Denotes (t : Text) (v : ℚ) : Prop :=
  ∃ (m : Mantissa) (e : Int), Counted m ∧ (m.value : ℚ) * 10 ^ (e - m.places) = v ∧
    ∀ negative, decimal negative t = ofDecimal negative m e

theorem Scans.denotes {t : Text} {m : Mantissa} (scans : Scans t m) :
    Denotes t (m.value * 10 ^ (-m.places : Int)) := by
  refine ⟨m, 0, scans.counted, by rw [zero_sub], fun negative => ?_⟩
  rw [decimal, scans.atEnd]
  dsimp only
  rw [scans.seen]
  rfl

theorem Scans.denotes_exponent {t u : Text} {m : Mantissa} (scans : Scans t m) {e : Int}
    (read : exponent u = some (e, [])) :
    Denotes (t ++ byte 'e' :: u) (m.value * 10 ^ (e - m.places)) := by
  refine ⟨m, e, scans.counted, rfl, fun negative => ?_⟩
  rw [decimal, scans.before]
  dsimp only
  rw [scans.seen, if_neg (by decide), if_pos (.inl rfl), read]

/-- A number around that of a double is neither too large nor too small to be read. -/
theorem bounds_of_roundsTo {v : ℚ} {m : Nat} {q : Int} (canonical : Canonical m q)
    (positive : 0 < m) (around : RoundsTo v m q) :
    (10 : ℚ) ^ (-330 : Int) < v ∧ v < 10 ^ (310 : Int) := by
  have powers {a b : Nat} (less : 2 ^ a < 10 ^ b) : (2 : ℚ) ^ (a : Int) < 10 ^ (b : Int) := by
    exact_mod_cast less
  have some : (1 : ℚ) ≤ m := by exact_mod_cast positive
  have small : (m : ℚ) + 1 ≤ 2 ^ 53 := by exact_mod_cast canonical.small
  have unit : (0 : ℚ) < 2 ^ q := by positivity
  constructor
  · -- half the least double, which still rounds to it
    have reach := Binary64.lowerReach_le m q
    calc (10 : ℚ) ^ (-330 : Int)
      _ < 2 ^ (-1075 : Int) := by
          rw [zpow_neg, zpow_neg]
          exact inv_strictAnti₀ (by positivity) (powers (by decide +kernel))
      _ = 1 / 2 * 2 ^ (-1074 : Int) := by
          rw [one_div, ← zpow_neg_one, ← zpow_add₀ (by norm_num)]
          rfl
      _ ≤ 1 / 2 * 2 ^ q := by gcongr; exacts [by norm_num, canonical.least]
      _ ≤ (m - Binary64.lowerReach m q) * 2 ^ q := by gcongr; linarith
      _ ≤ v := around.low
  · calc v
      _ ≤ (m + 1 / 2) * 2 ^ q := around.high
      _ ≤ 2 ^ (53 : Int) * 2 ^ (971 : Int) := by
          gcongr
          · exact_mod_cast le_trans (by linarith) small
          · norm_num
          · exact canonical.most
      _ = 2 ^ (1024 : Int) := by rw [← zpow_add₀ (by norm_num)]; rfl
      _ < 10 ^ (310 : Int) := powers (by decide +kernel)

/-- The place of the leading digit of such a number. -/
theorem place_bounds {n digits : Nat} {e : Int} (high : n < 10 ^ digits)
    (low : n ≠ 0 → 10 ^ digits ≤ 10 * n) (least : (10 : ℚ) ^ (-330 : Int) < n * 10 ^ e)
    (most : (n : ℚ) * 10 ^ e < 10 ^ (310 : Int)) :
    n ≠ 0 ∧ -330 < e + digits ∧ e + digits < 311 := by
  have ten : (0 : ℚ) < 10 ^ e := by positivity
  have some : n ≠ 0 := by
    rintro rfl
    rw [Nat.cast_zero, zero_mul] at least
    have above : (0 : ℚ) < 10 ^ (-330 : Int) := by positivity
    exact absurd (above.trans least) (lt_irrefl _)
  refine ⟨some, ?_, ?_⟩
  · rw [← zpow_lt_zpow_iff_right₀ (by norm_num : (1 : ℚ) < 10), zpow_add₀ (by norm_num), mul_comm]
    refine least.trans (mul_lt_mul_of_pos_right ?_ ten)
    exact_mod_cast high
  · rw [← zpow_lt_zpow_iff_right₀ (by norm_num : (1 : ℚ) < 10), zpow_add₀ (by norm_num), mul_comm]
    have count : (10 : ℚ) ^ (digits : Int) ≤ 10 * n := by exact_mod_cast low some
    calc (10 : ℚ) ^ (digits : Int) * 10 ^ e
      _ ≤ 10 * n * 10 ^ e := by gcongr
      _ < 10 * 10 ^ (310 : Int) := by linarith
      _ = 10 ^ (311 : Int) := by rw [← zpow_one_add₀ (by norm_num)]; rfl

/-- A mantissa and an exponent around a double are read as the double. -/
theorem ofDecimal_eq {mantissa : Mantissa} (counted : Counted mantissa) {e : Int} {m : Nat}
    {q : Int} (canonical : Canonical m q) (positive : 0 < m)
    (around : RoundsTo (mantissa.value * 10 ^ (e - mantissa.places)) m q) (negative : Bool) :
    ofDecimal negative mantissa e = some (Binary64.ofBits negative (bitsOf m q)) := by
  obtain ⟨least, most⟩ := bounds_of_roundsTo canonical positive around
  obtain ⟨some, low, high⟩ := place_bounds counted.high counted.low least most
  have lowest : leastPlace = -330 := rfl
  have highest : greatestPlace = 310 := rfl
  have nearest : Binary64.nearestBits (mantissa.value * powerUp 10 (e - mantissa.places))
      (powerDown 10 (e - mantissa.places)) = bitsOf m q := by
    refine Binary64.nearestBits_eq canonical positive (Binary64.powerDown_pos (by decide) _) ?_
    rw [Nat.cast_mul, mul_div_assoc, Binary64.powers_eq_zpow]
    exact_mod_cast around
  unfold ofDecimal Binary64.nearest?
  dsimp only
  rw [if_neg (by omega), if_neg (by omega), nearest,
    if_neg (Nat.not_le.mpr (Binary64.bitsOf_lt canonical))]

end Reading

/-! ## Layouts -/

namespace Layout

open Text (valueFrom valueFrom_append valueFrom_zeros)
open Reading (Mantissa Denotes scans_whole scans_point value_run places_whole value_point
  places_point)

/-- Digits on both sides of a point. -/
theorem denotes_point {t u : Text} (whole : Digits t) (fraction : ∀ b ∈ u, isDigit b = true) :
    Denotes (t ++ byte '.' :: u) (valueFrom 0 (t ++ u) * 10 ^ (-u.length : Int)) := by
  have read := (scans_point whole fraction).denotes
  rwa [value_point, places_point] at read

theorem positional_denotes {digits : Text} (all : Digits digits) (exponent : Int) :
    Denotes (positional digits exponent) (valueFrom 0 digits * 10 ^ exponent) := by
  unfold positional
  split
  next whole =>
    have longer : Digits (digits ++ List.replicate exponent.toNat (byte '0')) :=
      ⟨List.append_ne_nil_of_left_ne_nil all.some _,
        List.forall_mem_append.mpr ⟨all.all, Text.isDigit_zeros _⟩⟩
    have read := (scans_whole longer).denotes
    obtain ⟨k, rfl⟩ := Int.eq_ofNat_of_zero_le whole
    rw [value_run, places_whole, valueFrom_append, valueFrom_zeros] at read
    simpa using read
  next below =>
    dsimp only
    split
    next inside =>
      have left : Digits (digits.take (digits.length - exponent.natAbs)) := by
        refine ⟨?_, fun b member => all.all b (List.mem_of_mem_take member)⟩
        rw [← List.length_pos_iff, List.length_take]
        omega
      have right : ∀ b ∈ digits.drop (digits.length - exponent.natAbs), isDigit b = true :=
        fun b member => all.all b (List.mem_of_mem_drop member)
      have read := denotes_point left right
      have places : -((digits.drop (digits.length - exponent.natAbs)).length : Int) = exponent := by
        rw [List.length_drop]
        omega
      rw [List.take_append_drop, places] at read
      rw [List.append_assoc]
      exact read
    next outside =>
      have right := (Text.digits_padded (exponent.natAbs - digits.length) all).all
      have read := denotes_point (t := [byte '0']) ⟨by simp, by simp; rfl⟩ right
      have places : -((List.replicate (exponent.natAbs - digits.length) (byte '0') ++
          digits).length : Int) = exponent := by
        rw [List.length_append, List.length_replicate]
        omega
      have zero : valueFrom 0 [byte '0'] = 0 := rfl
      rw [valueFrom_append, valueFrom_append, zero, valueFrom_zeros, Nat.zero_mul, places] at read
      rw [List.append_assoc]
      exact read

theorem scientific_denotes (width : Nat) {digits : Text} (all : Digits digits) {leading : Int}
    (small : leading.natAbs < Reading.exponentCap) :
    Denotes (scientific width digits leading)
      (valueFrom 0 digits * 10 ^ (leading - (digits.length - 1 : Nat))) := by
  have read := Reading.exponent_signed width small
  unfold scientific
  dsimp only
  rw [List.append_assoc]
  match digits, all with
  | [], all => exact absurd rfl all.some
  | [d], all =>
    have number := (scans_whole all).denotes_exponent read
    rwa [value_run, places_whole] at number
  | d :: d' :: rest, ⟨_, all⟩ =>
    rw [List.forall_mem_cons] at all
    have first : Digits [d] := ⟨by simp, List.forall_mem_singleton.mpr all.1⟩
    have number := (scans_point first all.2).denotes_exponent read
    rwa [value_point, places_point] at number

/-- The exponent of the leading digit of a decimal. -/
def leading (d : Decimal) : Int := d.exponent + (Text.ofNat d.digits).length - 1

/-- However a decimal is laid out, its text is read as the decimal. -/
theorem decimal_denotes (layout : Layout) {d : Decimal}
    (small : (leading d).natAbs < Reading.exponentCap) : Denotes (layout.decimal d) d.value := by
  have digits := Text.digits_ofNat d.digits
  unfold decimal
  dsimp only
  split
  · have read := positional_denotes digits d.exponent
    rwa [Text.valueFrom_ofNat] at read
  · have read := scientific_denotes layout.exponentDigits digits small
    have exponent : leading d - ((Text.ofNat d.digits).length - 1 : Nat) = d.exponent := by
      have some := List.length_pos_iff.mpr digits.some
      unfold leading
      omega
    rw [exponent, Text.valueFrom_ofNat] at read
    exact read

theorem leading_bounds {d : Decimal} (least : (10 : ℚ) ^ (-330 : Int) < d.value)
    (most : d.value < 10 ^ (310 : Int)) : (leading d).natAbs < Reading.exponentCap := by
  have cap : Reading.exponentCap = 10000 := rfl
  have count : 0 < Decimal.digitCount d.digits := Nat.length_toDigits_pos
  have high : d.digits < 10 ^ Decimal.digitCount d.digits :=
    (Nat.length_toDigits_le_iff (by decide) count).mp le_rfl
  have low (some : d.digits ≠ 0) : 10 ^ Decimal.digitCount d.digits ≤ 10 * d.digits := by
    have bound := Decimal.pow_digitCount_le (Nat.pos_of_ne_zero some)
    obtain ⟨k, length⟩ := Nat.exists_eq_succ_of_ne_zero count.ne'
    rw [length] at bound ⊢
    rw [Nat.pow_succ']
    exact Nat.mul_le_mul_left 10 bound
  obtain ⟨-, above, below⟩ := Reading.place_bounds high low least most
  unfold leading
  rw [Text.length_ofNat]
  omega

end Layout

/-- The bytes of number texts. -/
def plain (b : UInt8) : Bool :=
  isDigit b || b == byte '.' || b == byte 'e' || b == byte '+' || b == byte '-'

theorem plain_of_isDigit {b : UInt8} (digit : isDigit b = true) : plain b = true := by
  simp [plain, digit]

theorem Text.Numeral.plain {t : Text} (shape : Numeral t) : ∀ b ∈ t, plain b = true := by
  cases shape with
  | whole digits => exact fun b member => plain_of_isDigit (digits.all b member)
  | point left right =>
    rw [List.forall_mem_append, List.forall_mem_cons]
    exact ⟨fun b member => plain_of_isDigit (left.all b member), rfl,
      fun b member => plain_of_isDigit (right.all b member)⟩

namespace Layout

theorem signedExponent_plain (width : Nat) (e : Int) :
    ∀ b ∈ signedExponent width e, plain b = true := by
  have digits :=
    (Text.digits_padded (width - (Text.ofNat e.natAbs).length) (Text.digits_ofNat e.natAbs)).all
  have later : ∀ b ∈ List.replicate (width - (Text.ofNat e.natAbs).length) (byte '0') ++
      Text.ofNat e.natAbs, plain b = true := fun b member => plain_of_isDigit (digits b member)
  unfold signedExponent
  dsimp only
  rw [List.append_assoc, List.forall_mem_append]
  refine ⟨?_, later⟩
  split
  · exact List.forall_mem_singleton.mpr rfl
  · exact List.forall_mem_singleton.mpr rfl

theorem scientific_plain (width : Nat) {digits : Text} (all : Digits digits) (leading : Int) :
    ∃ b t, scientific width digits leading = b :: t ∧ isDigit b = true ∧
      ∀ b ∈ t, plain b = true := by
  have power : ∀ b ∈ byte 'e' :: signedExponent width leading, plain b = true :=
    List.forall_mem_cons.mpr ⟨rfl, signedExponent_plain width leading⟩
  unfold scientific
  dsimp only
  rw [List.append_assoc]
  match digits, all with
  | [], all => exact absurd rfl all.some
  | [b], all => exact ⟨b, _, rfl, all.all b List.mem_cons_self, power⟩
  | b :: b' :: rest, ⟨_, all⟩ =>
    rw [List.forall_mem_cons] at all
    have fraction :
        ∀ b ∈ (b' :: rest) ++ byte 'e' :: signedExponent width leading, plain b = true :=
      List.forall_mem_append.mpr ⟨fun b member => plain_of_isDigit (all.2 b member), power⟩
    exact ⟨b, _, rfl, all.1, List.forall_mem_cons.mpr ⟨rfl, fraction⟩⟩

/-- The text of a decimal starts with a digit and has the bytes of number texts only. -/
theorem decimal_plain (layout : Layout) (d : Decimal) :
    ∃ b t, layout.decimal d = b :: t ∧ isDigit b = true ∧ ∀ b ∈ t, plain b = true := by
  have digits := Text.digits_ofNat d.digits
  unfold decimal
  dsimp only
  split
  · have shape := positional_numeral digits d.exponent
    obtain ⟨b, t, text, digit⟩ := shape.first
    have all := shape.plain
    rw [text, List.forall_mem_cons] at all
    exact ⟨b, t, text, digit, all.2⟩
  · exact scientific_plain _ digits _

end Layout

/-! ## Reading what was written -/

/-- A text that starts with a digit and has the bytes of number texts is read as a decimal. -/
theorem Reading.unsigned_of_plain {b : UInt8} {t : Text} (digit : isDigit b = true)
    (all : ∀ b ∈ t, plain b = true) (negative : Bool) :
    unsigned negative (b :: t) = decimal negative (b :: t) := by
  have range : byte '0' ≤ b ∧ b ≤ byte '9' := by simpa [isDigit] using digit
  have below : ¬(byte 'A' ≤ b ∧ b ≤ byte 'Z') :=
    fun letter => absurd (UInt8.le_trans letter.1 range.2) (by decide)
  have noWord {u : Text} : Text.lowerAscii (b :: t) ≠ byte 'i' :: u := by
    rw [Text.lowerAscii, List.map_cons, if_neg below]
    intro same
    exact Text.ne_of_class digit (by decide) (List.cons.inj same).1
  have neither : ¬(Text.lowerAscii (b :: t) = "inf" ∨ Text.lowerAscii (b :: t) = "infinity") :=
    not_or.mpr ⟨noWord, noWord⟩
  have noUnderscore : (b :: t).contains (byte '_') = false := by
    rw [← Bool.not_eq_true, List.contains_iff_mem, List.mem_cons]
    rintro (here | later)
    · exact Text.ne_of_class digit (by decide) here.symm
    · exact absurd (all _ later) (by decide)
  unfold unsigned
  dsimp only
  rw [if_neg neither, noUnderscore, Bool.false_and, if_neg (by decide)]
  rcases t with _ | ⟨x, _ | ⟨d, rest⟩⟩
  · rfl
  · rfl
  · have letter := all x List.mem_cons_self
    dsimp only
    rw [if_neg]
    rintro ⟨-, rfl | rfl⟩
    · exact absurd letter (by decide)
    · exact absurd letter (by decide)

namespace Binary64

theorem eq_infinity {x : Float} {negative : Bool} (decoded : decode x = .infinite negative) :
    x = infinity negative := by
  refine toBits_inj (UInt64.toNat_inj.mp ?_)
  rw [infinity, toNat_toBits_ofBits le_rfl]
  have whole := toNat_toBits x
  have largest : infinityBits = topField * 2 ^ 52 := rfl
  rw [largest]
  unfold decode at decoded
  dsimp only at decoded
  split at decoded
  · rename_i top
    split at decoded
    · rename_i none
      cases decoded
      rwa [top, none] at whole
    · cases decoded
  · split at decoded <;> cases decoded

end Binary64

namespace Layout

/-- The text of the size of a finite double. -/
def size (layout : Layout) (m : Nat) (q : Int) : Text :=
  if m = 0 then "0" else layout.decimal (Decimal.shortest m q)

theorem size_first (layout : Layout) (m : Nat) (q : Int) :
    ∃ b t, layout.size m q = b :: t ∧ isDigit b = true := by
  unfold size
  split
  next => exact ⟨byte '0', [], rfl, rfl⟩
  next =>
    obtain ⟨b, t, text, digit, -⟩ := layout.decimal_plain (Decimal.shortest m q)
    exact ⟨b, t, text, digit⟩

/-- The size of a finite double is read back with either sign. -/
theorem unsigned_size (layout : Layout) {m : Nat} {q : Int} (canonical : Binary64.Canonical m q)
    (negative : Bool) : Reading.unsigned negative (layout.size m q) =
      some (Binary64.ofBits negative (Binary64.bitsOf m q)) := by
  unfold size
  split
  next zero =>
    obtain rfl : q = -1074 := by
      rcases canonical.leading with lowest | leading
      · exact lowest
      · omega
    rw [zero]
    exact Reading.unsigned_of_plain (t := []) rfl nofun negative
  next some =>
    have positive : 0 < m := Nat.pos_of_ne_zero some
    have around := Decimal.shortest_roundsTo canonical positive
    obtain ⟨least, most⟩ := Reading.bounds_of_roundsTo canonical positive around
    obtain ⟨mantissa, e, counted, value, read⟩ :=
      layout.decimal_denotes (leading_bounds least most)
    obtain ⟨b, t, text, digit, all⟩ := layout.decimal_plain (Decimal.shortest m q)
    rw [text, Reading.unsigned_of_plain digit all, ← text, read]
    exact Reading.ofDecimal_eq counted canonical positive (value ▸ around) negative

end Layout

/-- The text of a number is read as the number, in every layout. -/
theorem readNumber?_number (layout : Layout) {x : Float} (number : Binary64.decode x ≠ .nan) :
    readNumber? (layout.number x) = some x := by
  unfold Layout.number
  cases decoded : Binary64.decode x with
  | nan => exact absurd decoded number
  | infinite negative =>
    rw [Binary64.eq_infinity decoded]
    cases negative <;> rfl
  | finite negative m q =>
    have read := layout.unsigned_size (Binary64.canonical_of_decode decoded) negative
    rw [← Binary64.eq_ofBits decoded] at read
    cases negative with
    | true => exact (readNumber?_minus _).trans read
    | false =>
      -- without a sign the text is no word, since it starts with a digit
      obtain ⟨b, t, text, digit⟩ := layout.size_first m q
      rw [text, ← readNumber?_of_digit digit, ← text] at read
      exact read

end EplLang
