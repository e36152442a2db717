import EplLang.Proofs.Lexing

/-!
# The texts of numbers

A finite number is written as an optional minus sign and its size. A size without an
exponent is a numeral, so the lexer makes two tokens of a negative number: the sign, and
the numeral as a number of its own. The sign of a number text decides one bit of the double
that it stands for and nothing else, and changing the sign of a double changes this bit; so
the number that the numeral stands for, with its sign changed, is the number that was
written, also for a negative zero.
-/

set_option autoImplicit false

namespace EplLang

open Text (byte isDigit Digits Numeral)

/-! ## Changing a sign -/

namespace Binary64

open Float.Model

/-- Bits that differ in the sign stand for numbers that differ in the sign. -/
theorem neg_unpack {b b' : BitVec 64}
    (exponent : @UnpackedFloat.unpackExponent .binary64 b =
      @UnpackedFloat.unpackExponent .binary64 b')
    (mantissa : @UnpackedFloat.unpackMantissa .binary64 b =
      @UnpackedFloat.unpackMantissa .binary64 b')
    (sign : -UnpackedFloat.Sign.ofBitVec (@UnpackedFloat.unpackSign .binary64 b) =
      UnpackedFloat.Sign.ofBitVec (@UnpackedFloat.unpackSign .binary64 b')) :
    (UnpackedFloat.unpack .binary64 b).neg = UnpackedFloat.unpack .binary64 b' := by
  simp only [UnpackedFloat.unpack, exponent, mantissa, ← sign]
  split
  · split <;> rfl
  · split
    · split <;> rfl
    · rfl

/-- The sign of a word. -/
theorem toNat_unpackSign (w : UInt64) :
    (@UnpackedFloat.unpackSign .binary64 w.toBitVec).toNat = w.toNat / 2 ^ 63 % 2 := by
  simp [UnpackedFloat.unpackSign, Nat.shiftRight_eq_div_pow]

/-- The word of a double with a sign. -/
def signedWord (negative : Bool) (bits : Nat) : UInt64 :=
  (if negative then Word.half + bits else bits).toUInt64

section Words

variable {bits : Nat} (small : bits ≤ infinityBits)
include small

theorem toNat_signedWord (negative : Bool) :
    (signedWord negative bits).toNat = if negative then 2 ^ 63 + bits else bits := by
  have largest : infinityBits = 2047 * 2 ^ 52 := rfl
  have half : Word.half = 2 ^ 63 := rfl
  unfold signedWord
  rw [Nat.toUInt64_eq, UInt64.toNat_ofNat', Nat.mod_eq_of_lt]
  · rw [half]
  · split <;> omega

theorem isNaNBits_signedWord (negative : Bool) :
    @UnpackedFloat.isNaNBits .binary64 (signedWord negative bits).toBitVec = false := by
  have largest : infinityBits = 2047 * 2 ^ 52 := rfl
  have ones : (-1#11).toNat = 2047 := by decide
  simp only [UnpackedFloat.isNaNBits, decide_eq_false_iff_not, not_and, not_not]
  intro top
  have field := congrArg BitVec.toNat top
  rw [toNat_unpackExponent, toNat_signedWord small] at field
  refine BitVec.eq_of_toNat_eq ?_
  rw [toNat_unpackMantissa, toNat_signedWord small]
  have none : (0#52).toNat = 0 := rfl
  have most : (if negative = true then 2 ^ 63 + bits else bits) / 2 ^ 52 % 2 ^ 11 = 2047 := by
    rw [field]
    exact ones
  change (if negative = true then 2 ^ 63 + bits else bits) % 2 ^ 52 = 0
  cases negative
  · simp only [Bool.false_eq_true, if_false] at most ⊢
    omega
  · simp only [if_true] at most ⊢
    omega

theorem unpack_ofBits_signedWord (negative : Bool) :
    (Float.Model.ofBits (signedWord negative bits)).unpack =
      UnpackedFloat.unpack .binary64 (signedWord negative bits).toBitVec := by
  unfold Float.Model.ofBits Float.Model.pack Float.Model.unpack
  dsimp only
  rw [UnpackedFloat.pack_unpack, isNaNBits_signedWord small]
  rfl

theorem sign_signedWord (negative : Bool) :
    UnpackedFloat.Sign.ofBitVec
      (@UnpackedFloat.unpackSign .binary64 (signedWord negative bits).toBitVec) =
      if negative then .negative else .positive := by
  have largest : infinityBits = 2047 * 2 ^ 52 := rfl
  have bit : @UnpackedFloat.unpackSign .binary64 (signedWord negative bits).toBitVec =
      if negative then 1#1 else 0#1 := by
    refine BitVec.eq_of_toNat_eq ?_
    rw [toNat_unpackSign, toNat_signedWord small]
    cases negative <;> simp <;> omega
  rw [bit]
  cases negative <;> rfl

/-- Changing the sign of a double changes its sign bit. -/
theorem neg_ofBits (negative : Bool) : -ofBits negative bits = ofBits (!negative) bits := by
  have largest : infinityBits = 2047 * 2 ^ 52 := rfl
  have flipped : (UnpackedFloat.unpack .binary64 (signedWord negative bits).toBitVec).neg =
      UnpackedFloat.unpack .binary64 (signedWord (!negative) bits).toBitVec := by
    refine neg_unpack (BitVec.eq_of_toNat_eq ?_) (BitVec.eq_of_toNat_eq ?_) ?_
    · rw [toNat_unpackExponent, toNat_unpackExponent, toNat_signedWord small,
        toNat_signedWord small]
      cases negative <;> simp <;> omega
    · rw [toNat_unpackMantissa, toNat_unpackMantissa, toNat_signedWord small,
        toNat_signedWord small]
      cases negative <;> simp <;> omega
    · rw [sign_signedWord small, sign_signedWord small]
      cases negative <;> rfl
  have models : (Float.Model.ofBits (signedWord negative bits)).neg =
      Float.Model.ofBits (signedWord (!negative) bits) := by
    unfold Float.Model.neg
    rw [unpack_ofBits_signedWord small, flipped]
    rfl
  exact congrArg Float.ofModel models

end Words

end Binary64

/-! ## Reading a number with its sign -/

namespace Reading

/-- What is read with either sign: nothing, or doubles that differ in their sign only. -/
def Signed (read : Bool → Option Float) : Prop :=
  ∃ size : Option Nat, (∀ bits ∈ size, bits ≤ Binary64.infinityBits) ∧
    ∀ negative, read negative = size.map (Binary64.ofBits negative)

theorem signed_none : Signed fun _ => none := ⟨none, nofun, fun _ => rfl⟩

theorem signed_some {bits : Nat} (small : bits ≤ Binary64.infinityBits) :
    Signed fun negative => some (Binary64.ofBits negative bits) := by
  refine ⟨some bits, fun _ same => ?_, fun _ => rfl⟩
  cases same
  exact small

theorem signed_ite {p : Prop} [Decidable p] {read read' : Bool → Option Float}
    (yes : Signed read) (no : Signed read') :
    Signed fun negative => if p then read negative else read' negative := by
  by_cases holds : p
  · simpa only [if_pos holds] using yes
  · simpa only [if_neg holds] using no

theorem signed_nearest (num den : Nat) :
    Signed fun negative => Binary64.nearest? negative num den := by
  unfold Binary64.nearest?
  dsimp only
  by_cases large : Binary64.infinityBits ≤ Binary64.nearestBits num den
  · simpa only [if_pos large] using signed_none
  · simpa only [if_neg large] using signed_some (Nat.le_of_not_le large)

theorem signed_ofDecimal (m : Mantissa) (e : Int) :
    Signed fun negative => ofDecimal negative m e := by
  unfold ofDecimal
  exact signed_ite (signed_some (Nat.zero_le _)) (signed_ite signed_none (signed_nearest _ _))

theorem signed_decimal (t : Text) : Signed fun negative => decimal negative t := by
  unfold decimal
  dsimp only
  refine signed_ite signed_none ?_
  split
  · exact signed_ofDecimal _ _
  · refine signed_ite ?_ signed_none
    split
    · exact signed_ofDecimal _ _
    · exact signed_none

theorem signed_hexadecimal (t : Text) : Signed fun negative => hexadecimal negative t := by
  unfold hexadecimal
  dsimp only
  refine signed_ite signed_none ?_
  split
  · exact signed_none
  · refine signed_ite ?_ signed_none
    split
    · exact signed_nearest _ _
    · exact signed_none

theorem signed_unsigned (t : Text) : Signed fun negative => unsigned negative t := by
  unfold unsigned
  dsimp only
  refine signed_ite (signed_some (Nat.le_refl _)) (signed_ite signed_none ?_)
  split
  · exact signed_ite (signed_hexadecimal _) (signed_decimal _)
  · exact signed_decimal _

end Reading

/-- A text whose first byte is below the letters is no word. -/
theorem lowerAscii_ne_nan {b : UInt8} {t : Text} (below : b < byte 'A') :
    Text.lowerAscii (b :: t) ≠ "nan" := by
  intro same
  have noLetter : ¬(byte 'A' ≤ b ∧ b ≤ byte 'Z') := fun range => UInt8.not_le.mpr below range.1
  have first := congrArg List.head? same
  simp only [Text.lowerAscii, List.map_cons, if_neg noLetter, List.head?_cons] at first
  have letter : b = byte 'n' := Option.some.inj first
  rw [letter] at below
  exact absurd below (by decide)

theorem readNumber?_of_digit {b : UInt8} {u : Text} (digit : isDigit b = true) :
    readNumber? (b :: u) = Reading.unsigned false (b :: u) := by
  have range : byte '0' ≤ b ∧ b ≤ byte '9' := by simpa [isDigit] using digit
  have below : b < byte 'A' := UInt8.lt_of_le_of_lt range.2 (by decide)
  have noPlus : b ≠ byte '+' := Text.ne_of_class digit (by decide)
  have noMinus : b ≠ byte '-' := Text.ne_of_class digit (by decide)
  rw [readNumber?, if_neg (lowerAscii_ne_nan below), if_neg noPlus, if_neg noMinus]

theorem readNumber?_numeral {t : Text} (shape : Numeral t) :
    readNumber? t = Reading.unsigned false t := by
  obtain ⟨b, u, rfl, digit⟩ := shape.first
  exact readNumber?_of_digit digit

theorem readNumber?_minus (t : Text) : readNumber? (byte '-' :: t) = Reading.unsigned true t := by
  rw [readNumber?, if_neg (lowerAscii_ne_nan (by decide))]
  rfl

/-- A numeral after a minus sign stands for the number of the numeral with its sign changed. -/
theorem readNumber?_neg {t : Text} (shape : Numeral t) {x : Float}
    (read : readNumber? (byte '-' :: t) = some x) :
    readNumber? t = some (-x) ∧ -(-x) = x := by
  rw [readNumber?_minus] at read
  rw [readNumber?_numeral shape]
  obtain ⟨size, small, signed⟩ := Reading.signed_unsigned t
  dsimp only at signed
  rw [signed, Option.map_eq_some_iff] at read
  obtain ⟨bits, rfl, rfl⟩ := read
  rw [signed, Binary64.neg_ofBits (small bits rfl), Binary64.neg_ofBits (small bits rfl)]
  exact ⟨rfl, rfl⟩

/-! ## Number texts without an exponent -/

namespace Layout

theorem positional_numeral {digits : Text} (all : Digits digits) (exponent : Int) :
    Numeral (positional digits exponent) := by
  have zeros : ∀ count, ∀ b ∈ List.replicate count (byte '0'), isDigit b = true := by
    intro count b member
    rw [List.eq_of_mem_replicate member]
    rfl
  unfold positional
  split
  · refine .whole ⟨List.append_ne_nil_of_left_ne_nil all.some _, ?_⟩
    exact List.forall_mem_append.mpr ⟨all.all, zeros _⟩
  · rename_i below
    dsimp only
    split
    · rename_i inside
      have left : Digits (digits.take (digits.length - exponent.natAbs)) := by
        refine ⟨?_, fun b member => all.all b (List.mem_of_mem_take member)⟩
        rw [← List.length_pos_iff, List.length_take]
        omega
      have right : Digits (digits.drop (digits.length - exponent.natAbs)) := by
        refine ⟨?_, fun b member => all.all b (List.mem_of_mem_drop member)⟩
        rw [← List.length_pos_iff, List.length_drop]
        omega
      have shape := Numeral.point left right
      rw [List.append_assoc]
      exact shape
    · have right :
          Digits (List.replicate (exponent.natAbs - digits.length) (byte '0') ++ digits) := by
        refine ⟨List.append_ne_nil_of_right_ne_nil _ all.some, ?_⟩
        exact List.forall_mem_append.mpr ⟨zeros _, all.all⟩
      have left : Digits [byte '0'] := ⟨by simp, zeros 1⟩
      have shape := Numeral.point left right
      rw [List.append_assoc]
      exact shape

/-- The size of a number: a numeral, or a text with an exponent. -/
theorem decimal_numeral (layout : Layout) (d : Decimal) (positional : byte 'e' ∉ layout.decimal d) :
    Numeral (layout.decimal d) := by
  unfold decimal at *
  dsimp only at *
  split
  · exact positional_numeral (Text.digits_ofNat _) _
  · rename_i outside
    rw [if_neg outside] at positional
    refine absurd ?_ positional
    unfold scientific
    refine List.mem_append_left _ (List.mem_append_right _ ?_)
    exact List.mem_singleton_self _

end Layout

/-- The text of a finite number without an exponent is a numeral, or a minus sign and a
numeral. -/
theorem numberText_numeral {x : Float} {negative : Bool} {m : Nat} {q : Int}
    (finite : Binary64.decode x = .finite negative m q) (positional : byte 'e' ∉ numberText x) :
    ∃ size, Numeral size ∧ numberText x = if negative then byte '-' :: size else size := by
  have text : numberText x = (if negative then [byte '-'] else []) ++
      if m = 0 then [byte '0'] else Layout.language.decimal (Decimal.shortest m q) := by
    unfold numberText Layout.number
    rw [finite]
    cases negative <;> rfl
  have shape : Numeral
      (if m = 0 then [byte '0'] else Layout.language.decimal (Decimal.shortest m q)) := by
    split
    · exact .whole ⟨by simp, List.forall_mem_singleton.mpr rfl⟩
    · rename_i some
      rw [text, if_neg some] at positional
      exact Layout.decimal_numeral _ _ fun member => positional (List.mem_append_right _ member)
  refine ⟨_, shape, ?_⟩
  rw [text]
  cases negative <;> rfl

end EplLang
