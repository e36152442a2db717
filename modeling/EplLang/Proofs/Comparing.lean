import EplLang.Eval.Operators
import EplLang.Proofs.Exact

/-!
# Scalars in order

Numbers, truth values and null are compared by where they stand on the number line, which has
the two infinities for its ends (`Binary64.place?`). A nan stands nowhere: it is neither below
nor above anything, and a comparison that is decided by neither counts as one of equals.

So all comparisons of two scalars are told by one of three outcomes (`Scalar.standing`), and what
comes out of a condition is read off from that (`judged_iff`). Among the scalars that have
a place this is a total preorder, the one pulled back from the number line. A nan is level with
every other scalar, and therefore joins what is apart: of `2 <= n`, `n <= 1` and `2 <= 1` the first
two hold for a nan `n`. Everything but going on through a nan is as in an order
(`scalar_comparison_order`).
-/

set_option autoImplicit false

namespace EplLang

open Float.Model

/-! ## Places of doubles -/

namespace Binary64

/-- Where a double stands on the number line with its two ends. A nan stands nowhere. -/
def place? (x : Float) : Option (WithBot (WithTop ℚ)) :=
  match decode x with
  | .nan => none
  | .infinite negative => some (if negative then ⊥ else ↑(⊤ : WithTop ℚ))
  | .finite negative m q => some ↑(↑(scaled negative m q) : WithTop ℚ)

theorem place?_eq_none_iff {x : Float} : place? x = none ↔ isNan x = true := by
  unfold place? isNan
  cases decode x <;> simp

theorem lt_iff_compare {x y : Float} :
    x < y ↔ x.toModel.unpack.compare y.toModel.unpack = some .lt :=
  decide_eq_true_iff.trans beq_iff_eq

/-- A double with a place is one of the infinities or stands for a number. -/
theorem place?_cases {x : Float} {a : WithBot (WithTop ℚ)} (stands : place? x = some a) :
    (x.toModel.unpack = .infinity .negative ∧ a = ⊥) ∨
    (x.toModel.unpack = .infinity .positive ∧ a = ↑(⊤ : WithTop ℚ)) ∨
    ∃ r : ℚ, rational? x = some r ∧ a = ↑(↑r : WithTop ℚ) := by
  have decoded := decode_eq x
  unfold place? at stands
  cases unpacked : x.toModel.unpack with
  | notANumber => simp [decoded, unpacked, ofUnpacked] at stands
  | infinity sign =>
      rw [decoded, unpacked, ofUnpacked] at stands
      cases sign with
      | negative => exact .inl ⟨rfl, by simpa [signIsNegative] using stands.symm⟩
      | positive => exact .inr (.inl ⟨rfl, by simpa [signIsNegative] using stands.symm⟩)
  | zero sign =>
      rw [unpacked, ofUnpacked] at decoded
      rw [decoded] at stands
      exact .inr (.inr ⟨_, by rw [rational?, decoded], by simpa using stands.symm⟩)
  | finite sign m q positive =>
      rw [unpacked, ofUnpacked] at decoded
      rw [decoded] at stands
      exact .inr (.inr ⟨_, by rw [rational?, decoded], by simpa using stands.symm⟩)

/-- A finite double lies between the infinities. -/
theorem compare_infinities {x : Float} {r : ℚ} (exact : rational? x = some r) :
    x.toModel.unpack.compare (.infinity .positive) = some .lt ∧
    (UnpackedFloat.infinity .negative).compare x.toModel.unpack = some .lt := by
  rcases rational?_cases exact with ⟨sign, zero, _⟩ | ⟨sign, m, q, positive, finite, _⟩
  · rw [zero]
    exact ⟨rfl, rfl⟩
  · rw [finite]
    cases sign <;> exact ⟨rfl, rfl⟩

/-- Doubles compare as their places do. -/
theorem compare_places {x y : Float} {a b : WithBot (WithTop ℚ)} (first : place? x = some a)
    (second : place? y = some b) :
    x.toModel.unpack.compare y.toModel.unpack = some (compare a b) := by
  have finite_top (r : ℚ) : (↑(↑r : WithTop ℚ) : WithBot (WithTop ℚ)) < ↑(⊤ : WithTop ℚ) :=
    WithBot.coe_lt_coe.mpr (WithTop.coe_lt_top r)
  rcases place?_cases first with ⟨low, rfl⟩ | ⟨high, rfl⟩ | ⟨r, exact, rfl⟩
  · rcases place?_cases second with ⟨low', rfl⟩ | ⟨high', rfl⟩ | ⟨r', exact', rfl⟩
    · rw [low, low', compare_eq_iff_eq.mpr rfl]
      rfl
    · rw [low, high', compare_lt_iff_lt.mpr (WithBot.bot_lt_coe _)]
      rfl
    · rw [low, (compare_infinities exact').2, compare_lt_iff_lt.mpr (WithBot.bot_lt_coe _)]
  · rcases place?_cases second with ⟨low', rfl⟩ | ⟨high', rfl⟩ | ⟨r', exact', rfl⟩
    · rw [high, low', compare_gt_iff_gt.mpr (WithBot.bot_lt_coe _)]
      rfl
    · rw [high, high', compare_eq_iff_eq.mpr rfl]
      rfl
    · rw [high, compare_swap, (compare_infinities exact').1,
        compare_gt_iff_gt.mpr (finite_top r')]
      rfl
  · rcases place?_cases second with ⟨low', rfl⟩ | ⟨high', rfl⟩ | ⟨r', exact', rfl⟩
    · rw [low', compare_swap, (compare_infinities exact).2,
        compare_gt_iff_gt.mpr (WithBot.bot_lt_coe _)]
      rfl
    · rw [high', (compare_infinities exact).1, compare_lt_iff_lt.mpr (finite_top r)]
    · rw [compare_exact exact exact']
      rcases lt_trichotomy r r' with less | rfl | greater
      · rw [compare_lt_iff_lt.mpr less, compare_lt_iff_lt.mpr (by exact_mod_cast less)]
      · rw [compare_eq_iff_eq.mpr rfl, compare_eq_iff_eq.mpr rfl]
      · rw [compare_gt_iff_gt.mpr greater, compare_gt_iff_gt.mpr (by exact_mod_cast greater)]

end Binary64

/-! ## Places of scalars -/

namespace Scalar

/-- Scalars that are compared on the number line: all but the strings. -/
def Ranked (s : Scalar) : Prop := s.form ≠ .string

instance (s : Scalar) : Decidable s.Ranked := inferInstanceAs (Decidable (s.form ≠ .string))

/-- Whether a scalar is no number although its kind is that of numbers. -/
def isNan (s : Scalar) : Bool := s.rank?.any Binary64.isNan

/-- Where a scalar stands on the number line. -/
def place? (s : Scalar) : Option (WithBot (WithTop ℚ)) := s.rank?.bind Binary64.place?

/-- How one scalar stands to another. Without two places they are level. -/
def standing (s t : Scalar) : Ordering :=
  match s.place?, t.place? with
  | some a, some b => compare a b
  | _, _ => .eq

theorem rank?_of_ranked {s : Scalar} (ranked : s.Ranked) : ∃ x, s.rank? = some x := by
  cases s with
  | number x => exact ⟨x, rfl⟩
  | string t => exact absurd rfl ranked
  | boolean b => exact ⟨_, rfl⟩
  | null => exact ⟨0, rfl⟩

theorem place?_of_rank? {s : Scalar} {x : Float} (rank : s.rank? = some x) :
    s.place? = Binary64.place? x := by
  rw [place?, rank, Option.bind_some]

/-- Of the scalars that are compared on the number line, only a nan has no place there. -/
theorem exists_place? {s : Scalar} (ranked : s.Ranked) (number : s.isNan = false) :
    ∃ a, s.place? = some a := by
  obtain ⟨x, rank⟩ := rank?_of_ranked ranked
  rw [isNan, rank, Option.any_some] at number
  rw [place?_of_rank? rank]
  cases place : Binary64.place? x with
  | none => simp [Binary64.place?_eq_none_iff.mp place] at number
  | some a => exact ⟨a, rfl⟩

theorem place?_of_isNan {s : Scalar} (nan : s.isNan = true) : s.place? = none := by
  unfold isNan at nan
  cases rank : s.rank? with
  | none => simp [rank] at nan
  | some x =>
      rw [rank, Option.any_some] at nan
      rw [place?_of_rank? rank]
      exact Binary64.place?_eq_none_iff.mpr nan

theorem standing_of_isNan {s t : Scalar} (nan : s.isNan = true ∨ t.isNan = true) :
    s.standing t = .eq := by
  unfold standing
  rcases nan with first | second
  · rw [place?_of_isNan first]
  · rw [place?_of_isNan second]
    split <;> trivial

theorem standing_self (s : Scalar) : s.standing s = .eq := by
  unfold standing
  cases s.place? with
  | none => rfl
  | some a => exact compare_eq_iff_eq.mpr rfl

theorem standing_swap (s t : Scalar) : (s.standing t).swap = t.standing s := by
  unfold standing
  cases s.place? with
  | none => cases t.place? <;> rfl
  | some a =>
      cases t.place? with
      | none => rfl
      | some b =>
          have swapped : compare b a = (compare a b).swap := Std.OrientedCmp.eq_swap
          exact swapped.symm

/-- What is not above goes on, through a scalar that has a place. -/
theorem standing_trans {s t u : Scalar} {b : WithBot (WithTop ℚ)} (between : t.place? = some b)
    (first : s.standing t ≠ .gt) (second : t.standing u ≠ .gt) : s.standing u ≠ .gt := by
  unfold standing at first second ⊢
  rw [between] at first second
  cases start : s.place? with
  | none => simp
  | some a =>
      cases stop : u.place? with
      | none => simp
      | some c =>
          simp only [start, stop, ne_eq, compare_gt_iff_gt, not_lt] at first second ⊢
          exact first.trans second

end Scalar

/-! ## Conditions on scalars -/

namespace Operator

/-- A double that is no number is not comparable. -/
theorem compare_of_isNan {x y : Float} (nan : Binary64.isNan x = true ∨ Binary64.isNan y = true) :
    x.toModel.unpack.compare y.toModel.unpack = none := by
  rw [Binary64.isNan_iff, Binary64.isNan_iff] at nan
  rcases nan with nowhere | nowhere
  · rw [nowhere]
    rfl
  · rw [nowhere]
    cases x.toModel.unpack <;> rfl

/-- The order of two ranks is how they stand to each other. -/
theorem rankOrder_eq {s t : Scalar} {x y : Float} (first : s.rank? = some x)
    (second : t.rank? = some y) : rankOrder x y = s.standing t := by
  have below := @Binary64.lt_iff_compare x y
  have above := @Binary64.lt_iff_compare y x
  unfold rankOrder Scalar.standing
  rw [Scalar.place?_of_rank? first, Scalar.place?_of_rank? second]
  cases place : Binary64.place? x with
  | none =>
      have nan := Binary64.place?_eq_none_iff.mp place
      rw [compare_of_isNan (.inl nan)] at below
      rw [compare_of_isNan (.inr nan)] at above
      rw [if_neg (by simp [below]), if_neg (by simp [above])]
  | some a =>
      cases place' : Binary64.place? y with
      | none =>
          have nan := Binary64.place?_eq_none_iff.mp place'
          rw [compare_of_isNan (.inr nan)] at below
          rw [compare_of_isNan (.inl nan)] at above
          rw [if_neg (by simp [below]), if_neg (by simp [above])]
      | some b =>
          rw [Binary64.compare_places place place', Option.some.injEq, compare_lt_iff_lt] at below
          rw [Binary64.compare_places place' place, Option.some.injEq, compare_lt_iff_lt] at above
          rcases lt_trichotomy a b with less | same | greater
          · rw [if_pos (below.mpr less)]
            exact (compare_lt_iff_lt.mpr less).symm
          · rw [if_neg (mt below.mp (not_lt_of_ge same.ge)),
              if_neg (mt above.mp (not_lt_of_ge same.le))]
            exact (compare_eq_iff_eq.mpr same).symm
          · rw [if_neg (mt below.mp (not_lt_of_gt greater)), if_pos (above.mpr greater)]
            exact (compare_gt_iff_gt.mpr greater).symm

/-- A comparison of scalars on the number line comes out by their ranks. -/
theorem condition_ranks {s t : Scalar} {x y : Float} (first : s.rank? = some x)
    (second : t.rank? = some y) {op : Kind} (table : compares op = true) :
    condition (.scalar s) op (.scalar t) = .ok (.truth (holds op (rankOrder x y))) := by
  have compared : compare (.scalar s) op (.scalar t) = .ok (holds op (rankOrder x y)) := by
    cases s with
    | string text => cases first
    | _ =>
        cases t with
        | string text => cases second
        | _ =>
            cases first
            cases second
            rfl
  unfold condition
  split
  · cases table
  · cases table
  · rw [if_pos table, compared]
    rfl

end Operator

/-- A comparison of one scalar with another comes out true. -/
def Scalar.Judged (s : Scalar) (op : Kind) (t : Scalar) : Prop :=
  Operator.condition (.scalar s) op (.scalar t) = .ok (.truth true)

namespace Scalar

variable {s t : Scalar}

theorem judged_iff_ranks {x y : Float} (first : s.rank? = some x) (second : t.rank? = some y)
    {op : Kind} (table : Operator.compares op = true) :
    s.Judged op t ↔ Operator.holds op (Operator.rankOrder x y) = true := by
  rw [Judged, Operator.condition_ranks first second table]
  simp [Value.truth]

theorem judged_iff (first : s.Ranked) (second : t.Ranked) {op : Kind}
    (table : Operator.compares op = true) :
    s.Judged op t ↔ Operator.holds op (s.standing t) = true := by
  obtain ⟨x, rank⟩ := rank?_of_ranked first
  obtain ⟨y, rank'⟩ := rank?_of_ranked second
  rw [judged_iff_ranks rank rank' table, Operator.rankOrder_eq rank rank']

theorem lessEqual_iff (first : s.Ranked) (second : t.Ranked) :
    s.Judged .lessEqual t ↔ s.standing t ≠ .gt := by
  rw [judged_iff first second rfl, Operator.holds, bne_iff_ne]

theorem equal_iff (first : s.Ranked) (second : t.Ranked) :
    s.Judged .equal t ↔ s.standing t = .eq := by
  rw [judged_iff first second rfl, Operator.holds, beq_iff_eq]

/-- Equals are those that are at most each other. -/
theorem equal_iff_lessEqual (first : s.Ranked) (second : t.Ranked) :
    s.Judged .equal t ↔ s.Judged .lessEqual t ∧ t.Judged .lessEqual s := by
  rw [equal_iff first second, lessEqual_iff first second, lessEqual_iff second first,
    ← standing_swap s t]
  cases s.standing t <;> decide

/-- At most goes on through a scalar that is no nan. -/
theorem lessEqual_trans {u : Scalar} (first : s.Ranked) (second : t.Ranked) (third : u.Ranked)
    (number : t.isNan = false) (before : s.Judged .lessEqual t) (after : t.Judged .lessEqual u) :
    s.Judged .lessEqual u := by
  obtain ⟨b, place⟩ := exists_place? second number
  rw [lessEqual_iff first second] at before
  rw [lessEqual_iff second third] at after
  rw [lessEqual_iff first third]
  exact standing_trans place before after

end Scalar

/-- Numbers, truth values and null compare as in an order. Every comparison of two of them comes
out; `<=` is reflexive and total; `==` is its symmetric part, `<` is `<=` without `==`, `>` and
`>=` are the mirror images, and `!=` is the negation of `==`. Both `<=` and `==` go on from a
scalar to the next through any scalar but a nan, which is `==` to every one of them. -/
theorem scalar_comparison_order {s t : Scalar} (first : s.Ranked) (second : t.Ranked) :
    (∀ op, Operator.compares op = true →
      ∃ b, Operator.condition (.scalar s) op (.scalar t) = .ok (.truth b)) ∧
    s.Judged .lessEqual s ∧ (s.Judged .lessEqual t ∨ t.Judged .lessEqual s) ∧
    (∀ u : Scalar, u.Ranked → t.isNan = false →
      (s.Judged .lessEqual t → t.Judged .lessEqual u → s.Judged .lessEqual u) ∧
      (s.Judged .equal t → t.Judged .equal u → s.Judged .equal u)) ∧
    (s.isNan = true ∨ t.isNan = true → s.Judged .equal t) ∧
    (s.Judged .equal t ↔ s.Judged .lessEqual t ∧ t.Judged .lessEqual s) ∧
    (s.Judged .less t ↔ s.Judged .lessEqual t ∧ ¬s.Judged .equal t) ∧
    (s.Judged .greater t ↔ t.Judged .less s) ∧
    (s.Judged .greaterEqual t ↔ t.Judged .lessEqual s) ∧
    (s.Judged .notEqual t ↔ ¬s.Judged .equal t) := by
  have swapped := Scalar.standing_swap s t
  refine ⟨?defined, ?reflexive, ?total, ?transitive, ?level,
    Scalar.equal_iff_lessEqual first second, ?less, ?greater, ?greaterEqual, ?notEqual⟩
  case defined =>
    intro op table
    obtain ⟨x, rank⟩ := Scalar.rank?_of_ranked first
    obtain ⟨y, rank'⟩ := Scalar.rank?_of_ranked second
    exact ⟨_, Operator.condition_ranks rank rank' table⟩
  case reflexive =>
    rw [Scalar.lessEqual_iff first first, Scalar.standing_self]
    decide
  case total =>
    rw [Scalar.lessEqual_iff first second, Scalar.lessEqual_iff second first, ← swapped]
    cases s.standing t <;> decide
  case transitive =>
    intro u third number
    have onward := @Scalar.lessEqual_trans s t u first second third number
    have back := @Scalar.lessEqual_trans u t s third second first number
    refine ⟨onward, ?_⟩
    rw [Scalar.equal_iff_lessEqual first second, Scalar.equal_iff_lessEqual second third,
      Scalar.equal_iff_lessEqual first third]
    rintro ⟨below, above⟩ ⟨below', above'⟩
    exact ⟨onward below below', back above' above⟩
  case level =>
    intro nan
    rw [Scalar.equal_iff first second]
    exact Scalar.standing_of_isNan nan
  case less =>
    rw [Scalar.judged_iff first second rfl, Scalar.lessEqual_iff first second,
      Scalar.equal_iff first second]
    cases s.standing t <;> decide
  case greater =>
    rw [Scalar.judged_iff first second rfl, Scalar.judged_iff second first rfl, ← swapped]
    cases s.standing t <;> decide
  case greaterEqual =>
    rw [Scalar.judged_iff first second rfl, Scalar.lessEqual_iff second first, ← swapped]
    cases s.standing t <;> decide
  case notEqual =>
    rw [Scalar.judged_iff first second rfl, Scalar.equal_iff first second]
    cases s.standing t <;> decide

/-- Truth values, null and an infinity in one row. -/
theorem scalar_comparison_order_row :
    (Scalar.boolean true).Ranked ∧ (Scalar.null).Ranked ∧
    (Scalar.number (Binary64.infinity true)).Ranked ∧
    (Scalar.number (Binary64.infinity true)).Judged .lessEqual (.boolean true) := by
  have below : (Scalar.number (Binary64.infinity true)).Judged .lessEqual .null :=
    (Scalar.judged_iff_ranks rfl rfl rfl).mpr (by decide +kernel)
  have above : Scalar.null.Judged .lessEqual (.boolean true) :=
    (Scalar.judged_iff_ranks rfl rfl rfl).mpr (by decide +kernel)
  have laws := @scalar_comparison_order (.number (Binary64.infinity true)) .null (by decide)
    (by decide)
  exact ⟨by decide, by decide, by decide,
    (laws.2.2.2.1 (.boolean true) (by decide) (by decide)).1 below above⟩

/-- A nan is at least `2` and at most `1`, which is less than `2`: neither `<=` nor `==` goes on
through it. -/
theorem scalar_comparison_through_nan :
    let two := Scalar.number (Binary64.ofInt 2)
    let nan := Scalar.number Binary64.nan
    let one := Scalar.number (Binary64.ofInt 1)
    (two.Judged .lessEqual nan ∧ nan.Judged .lessEqual one ∧ ¬two.Judged .lessEqual one) ∧
    (two.Judged .equal nan ∧ nan.Judged .equal one ∧ ¬two.Judged .equal one) := by
  dsimp only
  rw [Scalar.judged_iff_ranks rfl rfl rfl, Scalar.judged_iff_ranks rfl rfl rfl,
    Scalar.judged_iff_ranks rfl rfl rfl, Scalar.judged_iff_ranks rfl rfl rfl,
    Scalar.judged_iff_ranks rfl rfl rfl, Scalar.judged_iff_ranks rfl rfl rfl]
  decide +kernel

end EplLang
