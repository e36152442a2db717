import EplLang.Proofs.Characters
import EplLang.Proofs.Interpolation
import EplLang.Proofs.Nearest
import EplLang.Proofs.Fuel

/-!
# Strings by place

A string of `n` characters has length `n`, a character at every integer from `-n` up to but not
including `n`, and a fault of indexing at every other integer. A place below zero counts from the
end. The characters from the first to the last, joined, are the string with the replacement
character for every byte that is in no character, and the string itself exactly when it is an
encoding (`string_places_match_length`).

Places are numbers, which are cut to words of 64 bits before they are looked up. An integer outside
these words is outside every string too. The length is a number as well; it is exact as long as the
string has no more than `2 ^ 53` characters.
-/

set_option autoImplicit false

namespace EplLang

/-! ## Integers as places -/

namespace Binary64

theorem truncation_intCast (i : Int) : truncation i = i := by
  unfold truncation
  split_ifs
  · exact Int.floor_intCast i
  · exact Int.ceil_intCast i

/-- A double that is an integer is cut to it if it fits a word of 64 bits, and to none if not. -/
theorem toInt64?_of_integer {x : Float} {i : Int} (exact : rational? x = some i) :
    toInt64? x = if -2 ^ 63 ≤ i ∧ i < 2 ^ 63 then some i else none := by
  split_ifs with fits
  · exact toInt64?_eq_some_iff.mpr ⟨i, exact, truncation_intCast i, fits⟩
  · apply toInt64?_eq_none
    right
    rintro n ⟨r, same, cut, least, most⟩
    obtain rfl : (i : ℚ) = r := Option.some.inj (exact.symm.trans same)
    rw [truncation_intCast] at cut
    exact fits ⟨cut ▸ least, cut ▸ most⟩

end Binary64

namespace Utf8

theorem length_chars (t : Text) : (chars t).length = count t := List.length_map _

end Utf8

namespace Operator

open Utf8

variable {t : Text} {x : Float} {i : Int}

/-- There is no character at an integer outside the string. -/
theorem characterAt_outside (exact : Binary64.rational? x = some i)
    (outside : ¬(-(count t : Int) ≤ i ∧ i < count t)) :
    characterAt t x = .error (.stringIndex x) := by
  unfold characterAt
  rw [Binary64.toInt64?_of_integer exact]
  split_ifs with fits
  · simp only [Option.map_some, length_chars]
    by_cases below : i < 0
    · rw [if_pos below, if_pos (by omega)]
    · have none : (chars t)[i.toNat]? = none :=
        List.getElem?_eq_none (by rw [length_chars]; omega)
      simp only [if_neg below, none]
  · rfl

/-- Every integer inside a string, counted from its start or from its end, is the place of one of
its characters. -/
theorem characterAt_inside (exact : Binary64.rational? x = some i) (short : count t ≤ 2 ^ 53)
    (inside : -(count t : Int) ≤ i ∧ i < count t) :
    ∃ c, (chars t)[(if i < 0 then i + count t else i).toNat]? = some c ∧
      characterAt t x = .ok (.text (encodeChar c)) := by
  have place : (if i < 0 then i + count t else i).toNat < (chars t).length := by
    rw [length_chars]
    split_ifs <;> omega
  have found := List.getElem?_eq_getElem place
  refine ⟨_, found, ?_⟩
  unfold characterAt
  rw [Binary64.toInt64?_of_integer exact, if_pos (by omega)]
  have least : ¬(if i < 0 then i + count t else i) < 0 := by split_ifs <;> omega
  simp only [Option.map_some, length_chars, if_neg least, found]

end Operator

/-! ## Expressions -/

section Expressions

variable {sur : Surroundings} {m k : Machine} {base place : Node} {s : Text} {y : Float}

theorem evaluates_literal (sur : Surroundings) (m : Machine) (x : Scalar) :
    Evaluates sur (.literal x) m (.ok (.scalar x) m) :=
  ⟨nofun, 1, rfl⟩

theorem evaluates_length {v : Value} (operand : Evaluates sur base m (.ok v k)) :
    Evaluates sur (.length base) m (.ok (Operator.length k.store v) k) := by
  obtain ⟨-, fuel, ran⟩ := operand
  refine ⟨nofun, fuel + 1, ?_⟩
  exact Run.bind_of_ok ran

/-- Two expressions that evaluate one after the other do so with one amount of fuel. -/
theorem exists_fuel {e e' : Node} {v v' : Value} {k' : Machine}
    (first : Evaluates sur e m (.ok v k)) (second : Evaluates sur e' k (.ok v' k')) :
    ∃ fuel, (calls fuel sur).eval e m = .ok v k ∧ (calls fuel sur).eval e' k = .ok v' k' := by
  obtain ⟨fuel, always⟩ := first.later
  obtain ⟨fuel', always'⟩ := second.later
  exact ⟨max fuel fuel', always _ (Nat.le_max_left ..), always' _ (Nat.le_max_right ..)⟩

theorem evaluates_index (text : Evaluates sur base m (.ok (.text s) m))
    (number : Evaluates sur place m (.ok (.number y) k)) :
    Evaluates sur (.index base [place]) m (Run.ofExcept (Operator.characterAt s y) k) := by
  obtain ⟨fuel, first, second⟩ := exists_fuel text number
  have ran : Eval.index (calls fuel sur) base [place] m =
      (do return (← Run.ofExcept (Operator.characterAt s y), none)) k := by
    rw [Eval.index, Run.bind_of_ok first]
    exact Run.bind_of_ok second
  cases found : Operator.characterAt s y with
  | ok v =>
    rw [found] at ran
    exact ⟨nofun, fuel + 1, Run.bind_of_ok ran⟩
  | error cause =>
    rw [found] at ran
    exact ⟨nofun, fuel + 1, Run.bind_of_error ran⟩

theorem evaluates_sum {left right : Node} {t u : Text}
    (first : Evaluates sur left m (.ok (.text t) m))
    (second : Evaluates sur right m (.ok (.text u) m)) :
    Evaluates sur (.arithmetic left .plus right) m (.ok (.text (t ++ u)) m) := by
  obtain ⟨fuel, ran, ran'⟩ := exists_fuel first second
  refine ⟨nofun, fuel + 1, ?_⟩
  change Eval.expression sur (calls fuel sur) (.arithmetic left .plus right) m = _
  rw [Eval.expression, Run.bind_of_ok ran, Run.bind_of_ok ran']
  change Run.ofExcept (Operator.arithmetic m.store (.text t) .plus (.text u)) m = _
  rw [Eval.arithmetic_text, Store.view_text]
  rfl

end Expressions

/-- The sum of what a string has at its first places, one after another. -/
def Node.placesSum (base : Node) : Nat → Node
  | 0 => .literal (.string [])
  | n + 1 => .arithmetic (base.placesSum n) .plus
      (.index base [.literal (.number (Binary64.ofInt n))])

theorem evaluates_placesSum {sur : Surroundings} {m : Machine} {base : Node} {s : Text}
    (text : Evaluates sur base m (.ok (.text s) m)) (short : Utf8.count s ≤ 2 ^ 53) {n : Nat}
    (inside : n ≤ Utf8.count s) :
    Evaluates sur (base.placesSum n) m (.ok (.text (Utf8.encode ((Utf8.chars s).take n))) m) := by
  induction n with
  | zero => exact evaluates_literal sur m _
  | succ n ih =>
    have exact : Binary64.rational? (Binary64.ofInt n) = some ((n : Int) : ℚ) :=
      Binary64.rational?_ofInt (by rw [Int.natAbs_natCast]; omega)
    obtain ⟨c, found, answer⟩ := Operator.characterAt_inside exact short (by omega)
    rw [if_neg (Int.not_lt.mpr (Int.natCast_nonneg n)), Int.toNat_natCast] at found
    have place := evaluates_index text (evaluates_literal sur m (.number (Binary64.ofInt n)))
    rw [answer] at place
    have sum := evaluates_sum (ih (by omega)) place
    have joined : Utf8.encode ((Utf8.chars s).take (n + 1)) =
        Utf8.encode ((Utf8.chars s).take n) ++ Utf8.encodeChar c := by
      rw [List.take_add_one, found, Utf8.encode, List.flatMap_append]
      exact congrArg _ (List.append_nil _)
    rw [joined]
    exact sum

open Binary64 in
/-- **Strings by place.** Let an expression evaluate to a string and change nothing. Its length
evaluates to the number of an `n`. Let a place evaluate to an integer. The string has something at
the place if and only if the integer is at least `-n` and less than `n`, and if not, indexing is a
fault of its own class. A place of `n` less has the same there as one from zero on. The sum of what
is at `0`, `1` and so on up to `n - 1` is the string with the replacement character for every byte
that is in no character, and this is the string itself if and only if it is an encoding. -/
theorem string_places_match_length {sur : Surroundings} {base : Node} {m : Machine} {s : Text}
    (text : Evaluates sur base m (.ok (.text s) m)) (short : Utf8.count s ≤ 2 ^ 53) :
    ∃ n : Nat,
      (∃ x, rational? x = some n ∧ Evaluates sur (.length base) m (.ok (.number x) m)) ∧
      (∀ place y k (i : Int), Evaluates sur place m (.ok (.number y) k) → rational? y = some i →
        ((∃ v l, Evaluates sur (.index base [place]) m (.ok v l)) ↔ -n ≤ i ∧ i < n) ∧
        (¬(-n ≤ i ∧ i < n) → ∃ cause : Cause, cause.faultClass = .index ∧
          Evaluates sur (.index base [place]) m (.error (.fault ⟨k.line, cause⟩) k))) ∧
      (∀ place place' y y' k (i : Int), Evaluates sur place m (.ok (.number y) k) →
        Evaluates sur place' m (.ok (.number y') k) → rational? y = some i →
        rational? y' = some ((i - n : Int) : ℚ) → 0 ≤ i → i < n →
        ∃ t, Evaluates sur (.index base [place]) m (.ok (.text t) k) ∧
          Evaluates sur (.index base [place']) m (.ok (.text t) k)) ∧
      Evaluates sur (base.placesSum n) m (.ok (.text (Utf8.mended s)) m) ∧
      (Utf8.mended s = s ↔ ∃ cs, s = Utf8.encode cs) := by
  refine ⟨Utf8.count s, ⟨ofInt (Utf8.count s), ?_, evaluates_length text⟩, ?_, ?_, ?_,
    Utf8.mended_eq_iff s⟩
  · exact rational?_ofInt (by rw [Int.natAbs_natCast]; omega)
  · intro place y k i number exact
    have found := evaluates_index text number
    constructor
    · constructor
      · rintro ⟨v, l, success⟩
        by_contra outside
        rw [Operator.characterAt_outside exact outside] at found
        cases success.unique found
      · intro inside
        obtain ⟨c, -, answer⟩ := Operator.characterAt_inside exact short inside
        rw [answer] at found
        exact ⟨_, _, found⟩
    · intro outside
      rw [Operator.characterAt_outside exact outside] at found
      exact ⟨.stringIndex y, rfl, found⟩
  · intro place place' y y' k i number number' exact exact' least most
    obtain ⟨c, found, answer⟩ := Operator.characterAt_inside exact short ⟨by omega, most⟩
    obtain ⟨c', found', answer'⟩ := Operator.characterAt_inside exact' short (by omega)
    rw [if_neg (Int.not_lt.mpr least)] at found
    rw [if_pos (by omega), Int.sub_add_cancel, found] at found'
    obtain rfl := Option.some.inj found'
    have first := evaluates_index text number
    have second := evaluates_index text number'
    rw [answer] at first
    rw [answer'] at second
    exact ⟨Utf8.encodeChar c, first, second⟩
  · have sum := evaluates_placesSum text short (Nat.le_refl _)
    rwa [List.take_of_length_le (Utf8.length_chars s).le, Utf8.encode_chars] at sum

open Binary64 in
/-- A letter, a character of two bytes and the three bytes of a surrogate, which is no character,
are five places. -/
theorem string_places_match_length_surrogate :
    let s : Text := [0x61, 0xC3, 0xA9, 0xED, 0xA0, 0x80]
    let base : Node := .literal (.string s)
    let place (i : Int) : Node := .index base [.literal (.number (ofInt i))]
    let m := Machine.start []
    Evaluates {} base m (.ok (.text s) m) ∧ Utf8.count s ≤ 2 ^ 53 ∧
    (∃ v l, Evaluates {} (place (-5)) m (.ok v l)) ∧
    (∃ cause : Cause, cause.faultClass = .index ∧
      Evaluates {} (place 5) m (.error (.fault ⟨m.line, cause⟩) m)) ∧
    Evaluates {} (base.placesSum 5) m (.ok (.text (Utf8.mended s)) m) := by
  intro s base place m
  have text : Evaluates {} base m (.ok (.text s) m) := evaluates_literal {} m _
  have short : Utf8.count s ≤ 2 ^ 53 := by decide
  obtain ⟨n, ⟨x, exact, length⟩, places, -, sum, -⟩ := string_places_match_length text short
  obtain rfl : n = 5 := by
    have five : (EStateM.Result.ok (.number x) m : EStateM.Result Stop Machine Value) =
        .ok (.number (ofInt 5)) m := length.unique (evaluates_length text)
    injection five with same
    obtain rfl : x = ofInt 5 := Scalar.number.inj (Value.scalar.inj same)
    have known : rational? (ofInt 5) = some ((5 : Int) : ℚ) := rational?_ofInt (by decide)
    exact_mod_cast Option.some.inj (exact.symm.trans known)
  refine ⟨text, short, ?_, ?_, sum⟩
  · exact ((places _ _ _ (-5) (evaluates_literal {} m _) (rational?_ofInt (by decide))).1).mpr
      (by decide)
  · exact (places _ _ _ 5 (evaluates_literal {} m _) (rational?_ofInt (by decide))).2 (by decide)

end EplLang
