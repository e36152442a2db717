import EplLang.Proofs.Builtins

/-!
# Drawing random integers

A range between two signed 64-bit integers has up to `2 ^ 64` members, and the bound to draw below
must be a signed 64-bit integer itself. The width of the range is computed without a sign, where it is
exact as long as the range is not empty (`Random.toNat_width`). The range is then admitted exactly if
the bound fits, and after that no sum can overflow: the bound is the number of members, and draws and
members correspond one to one (`Random.Exact`). A call of `random` draws in this way or is a fault of
type (`random_draws_within`).
-/

set_option autoImplicit false

namespace EplLang

/-! ## Ranges -/

namespace Random

/-- A range that a number may be drawn from: it is not empty, and the number of its members is a
signed 64-bit integer. -/
def Admits (low high : Int64) : Prop :=
  low.toInt ≤ high.toInt ∧ high.toInt - low.toInt < 2 ^ 63 - 1

instance (low high : Int64) : Decidable (Admits low high) := inferInstanceAs (Decidable (_ ∧ _))

/-- A signed integer read off its bits. -/
theorem toInt_cases (x : Int64) :
    x.toInt = x.toUInt64.toNat ∧ x.toUInt64.toNat < 2 ^ 63 ∨
      x.toInt = x.toUInt64.toNat - 2 ^ 64 ∧ 2 ^ 63 ≤ x.toUInt64.toNat := by
  have bits : x.toInt = x.toBitVec.toInt := rfl
  rw [bits, BitVec.toInt_eq_toNat_cond, Int64.toNat_toBitVec]
  split <;> omega

/-- Computed without a sign, the width of a range is exact. -/
theorem toNat_width {low high : Int64} (ordered : low.toInt ≤ high.toInt) :
    ((high.toUInt64 - low.toUInt64).toNat : Int) = high.toInt - low.toInt := by
  have word := low.toUInt64.toNat_lt
  have word' := high.toUInt64.toNat_lt
  rw [UInt64.toNat_sub]
  rcases toInt_cases low with ⟨first, _⟩ | ⟨first, _⟩ <;>
    rcases toInt_cases high with ⟨second, _⟩ | ⟨second, _⟩ <;> omega

theorem widest_le_iff (w : UInt64) : widest ≤ w ↔ 2 ^ 63 - 1 ≤ w.toNat :=
  UInt64.le_iff_toNat_le

/-- The bound for drawing is the number of members of the range. -/
theorem bound_of_admits {low high : Int64} (admits : Admits low high) :
    ∃ b, bound low high = .ok b ∧ b.toInt = high.toInt - low.toInt + 1 := by
  obtain ⟨ordered, narrow⟩ := admits
  have width := toNat_width ordered
  have notEmpty : ¬high < low := by
    rw [Int64.lt_iff_toInt_lt]
    omega
  have notWide : ¬widest ≤ high.toUInt64 - low.toUInt64 := by
    rw [widest_le_iff]
    omega
  refine ⟨(high.toUInt64 - low.toUInt64).toInt64 + 1, ?_, ?_⟩
  · rw [bound, if_neg notEmpty]
    exact if_neg notWide
  · rcases toInt_cases (high.toUInt64 - low.toUInt64).toInt64 with ⟨signed, _⟩ | ⟨_, large⟩
    · rw [UInt64.toUInt64_toInt64] at signed
      rw [Int64.toInt_add, signed, Int64.toInt_one, Int.bmod_eq_of_le (by omega) (by omega), width]
    · rw [UInt64.toUInt64_toInt64] at large
      omega

/-- A range that is not admitted is refused. -/
theorem bound_of_not_admits {low high : Int64} (refused : ¬Admits low high) :
    ∃ cause, bound low high = .error cause ∧ cause.faultClass = .typing := by
  unfold Admits at refused
  unfold bound
  split
  next => exact ⟨_, rfl, rfl⟩
  next notEmpty =>
    rw [Int64.lt_iff_toInt_lt] at notEmpty
    have width := toNat_width (Int.not_lt.mp notEmpty)
    refine ⟨_, if_pos ?_, rfl⟩
    rw [widest_le_iff]
    omega

theorem bound_eq_ok_iff {low high b : Int64} :
    bound low high = .ok b ↔ Admits low high ∧ b.toInt = high.toInt - low.toInt + 1 := by
  by_cases admits : Admits low high
  · obtain ⟨b', admitted, count⟩ := bound_of_admits admits
    rw [admitted, Except.ok.injEq, ← Int64.toInt_inj, count, and_iff_right admits, eq_comm]
  · obtain ⟨cause, refused, -⟩ := bound_of_not_admits admits
    rw [refused]
    exact iff_of_false (by simp) fun both => admits both.1

theorem typing_of_bound_error {low high : Int64} {cause : Cause}
    (refused : bound low high = .error cause) : cause.faultClass = .typing := by
  by_cases admits : Admits low high
  · obtain ⟨b, admitted, -⟩ := bound_of_admits admits
    rw [admitted] at refused
    cases refused
  · obtain ⟨other, same, typing⟩ := bound_of_not_admits admits
    rw [same] at refused
    cases refused
    exact typing

/-- Adding a draw to the lower end does not overflow. -/
theorem toInt_member {low draw : Int64} (high : Int64) (least : 0 ≤ draw.toInt)
    (most : draw.toInt ≤ high.toInt - low.toInt) :
    (member low draw).toInt = low.toInt + draw.toInt := by
  have first := low.le_toInt
  have last := high.toInt_lt
  rw [member, Int64.toInt_add, Int.bmod_eq_of_le (by omega) (by omega)]

/-- Drawing from a range below a bound, in wrapping arithmetic, is what it is in exact arithmetic: the
bound is the number of members, every draw below it stands for a member, and every member is the one
of exactly one draw. -/
structure Exact (low high bound : Int64) : Prop where
  count : bound.toInt = high.toInt - low.toInt + 1
  positive : 0 < bound.toInt
  member (draw : Int64) : 0 ≤ draw.toInt → draw.toInt ≤ high.toInt - low.toInt →
    (Random.member low draw).toInt = low.toInt + draw.toInt ∧
      low.toInt ≤ (Random.member low draw).toInt ∧ (Random.member low draw).toInt ≤ high.toInt
  unique (n : Int) : low.toInt ≤ n → n ≤ high.toInt → ∃! draw : Int64,
    0 ≤ draw.toInt ∧ draw.toInt ≤ high.toInt - low.toInt ∧ (Random.member low draw).toInt = n

theorem exact_of_bound {low high b : Int64} (admits : Admits low high)
    (count : b.toInt = high.toInt - low.toInt + 1) : Exact low high b where
  count := count
  positive := by
    have := admits.1
    omega
  member draw least most := by
    have sum := toInt_member high least most
    omega
  unique n least most := by
    have width := admits.2
    have drawn : (Int64.ofInt (n - low.toInt)).toInt = n - low.toInt :=
      Int64.toInt_ofInt_of_le (by omega) (by omega)
    refine ⟨Int64.ofInt (n - low.toInt), ⟨by omega, by omega, ?_⟩, ?_⟩
    · rw [toInt_member high (by omega) (by omega), drawn]
      omega
    · rintro draw ⟨least, most, sum⟩
      rw [toInt_member high least most] at sum
      exact Int64.toInt_inj.mp (by omega)

end Random

/-! ## Calls -/

namespace Native

section Run

variable {s : Surroundings} {m : Machine} {x y : Float} {low high : Int64}

/-- The state in which the two parameters are bound to numbers. -/
def between (m : Machine) (x y : Float) : Machine :=
  (m.given first (.number x)).given second (.number y)

theorem numberParam_of_lookup {n : Text} (found : Run.lookup n m = .ok (.number x) m) :
    numberParam n m = .ok x m := by
  rw [numberParam, Run.bind_of_ok found]
  rfl

theorem numberParam_first (m : Machine) (x y : Float) :
    numberParam first (between m x y) = .ok x (between m x y) := by
  refine numberParam_of_lookup (Run.lookup_bound (by decide) ?_)
  rw [between, Machine.given, Bindings.find?_set_of_ne _ (by decide)]
  exact Bindings.find?_set _ first _

theorem numberParam_second (m : Machine) (x y : Float) :
    numberParam second (between m x y) = .ok y (between m x y) :=
  numberParam_of_lookup (Run.lookup_given _ (by decide) _)

theorem bindParams_between (m : Machine) (x y : Float) :
    Eval.bindParams [] (Native.random.params.zip [.number x, .number y]) m =
      .ok () (between m x y) :=
  (Eval.bindParams_scalar List.not_mem_nil _ _ m).trans
    (Eval.bindParams_scalar (by decide) _ [] _)

theorem run_random (cut : Binary64.toInt64? x = some low.toInt)
    (cut' : Binary64.toInt64? y = some high.toInt) :
    Native.random.run s (between m x y) = draw s low high (between m x y) := by
  rw [run, Run.bind_of_ok (numberParam_first m x y), Run.bind_of_ok (numberParam_second m x y), cut,
    cut']
  dsimp only
  rw [Int64.ofInt_toInt, Int64.ofInt_toInt]

theorem draw_of_admits (s : Surroundings) (m : Machine) (admits : Random.Admits low high) :
    draw s low high m = .ok (.number (Binary64.ofInt
      (low.toInt + (s.draws m.drawn % (high.toInt - low.toInt + 1).toNat : Nat))))
      { m with drawn := m.drawn + 1 } := by
  obtain ⟨b, bound, count⟩ := Random.bound_of_admits admits
  obtain ⟨ordered, narrow⟩ := admits
  have below : s.draws m.drawn % (high.toInt - low.toInt + 1).toNat <
      (high.toInt - low.toInt + 1).toNat := Nat.mod_lt _ (by omega)
  have drawn : (Int64.ofNat (s.draws m.drawn % b.toInt.toNat)).toInt =
      (s.draws m.drawn % (high.toInt - low.toInt + 1).toNat : Nat) := by
    rw [count, Int64.toInt_ofNat_of_lt (by omega)]
  have sum : (Random.member low (Int64.ofNat (s.draws m.drawn % b.toInt.toNat))).toInt =
      low.toInt + (Int64.ofNat (s.draws m.drawn % b.toInt.toNat)).toInt :=
    Random.toInt_member high (by omega) (by omega)
  rw [draw, bound, ← drawn, ← sum]
  rfl

theorem draw_of_not_admits (s : Surroundings) (m : Machine)
    (refused : ¬Random.Admits low high) :
    ∃ cause, draw s low high m = .error (.fault ⟨m.line, cause⟩) m ∧
      cause.faultClass = .typing := by
  obtain ⟨cause, bound, typing⟩ := Random.bound_of_not_admits refused
  refine ⟨cause, ?_, typing⟩
  rw [draw, bound]
  rfl

end Run

section Calls

variable {fuel : Nat} {s : Surroundings} {m ready : Machine} {start stop : Node} {x y : Float}
  {low high : Int64} (offers : m.Offers .random)
  (evaluated : Eval.all (calls (fuel + 2) s) [start, stop] m = .ok [.number x, .number y] ready)
  (free : ready.pending = false) (cut : Binary64.toInt64? x = some low.toInt)
  (cut' : Binary64.toInt64? y = some high.toInt)
include offers evaluated free cut cut'

theorem eval_random_of_admits (admits : Random.Admits low high) :
    ∃ n, (calls (fuel + 3) s).eval (.call (.name "random") [start, stop]) m =
      .ok (.number (Binary64.ofInt
        (low.toInt + (s.draws ready.drawn % (high.toInt - low.toInt + 1).toNat : Nat)))) n := by
  have ran := (run_random cut cut').trans (draw_of_admits s (between ready x y) admits)
  exact ⟨_, eval_of_ok offers (gives_of_ne (by decide) (by decide)) rfl evaluated
    (bindParams_between ready x y) free ran rfl⟩

theorem eval_random_of_not_admits (refused : ¬Random.Admits low high) :
    ∃ cause n, (calls (fuel + 3) s).eval (.call (.name "random") [start, stop]) m =
      .error (.fault ⟨ready.line, cause⟩) n ∧ cause.faultClass = .typing := by
  obtain ⟨cause, stopped, typing⟩ := draw_of_not_admits s (between ready x y) refused
  have ran := (run_random cut cut').trans stopped
  exact ⟨cause, _, eval_of_error offers (gives_of_ne (by decide) (by decide)) rfl evaluated
    (bindParams_between ready x y) free ran, typing⟩

end Calls

end Native

/-- Drawing neither overflows nor leaves its range. A range is admitted exactly if it is not empty and
narrow enough, and is else refused for its type; for an admitted one, what is computed in wrapping
arithmetic is exact. So a call of `random` gives the lower end and what was drawn below the number of
members, or is a fault of type. -/
theorem random_draws_within (low high : Int64) :
    ((∃ bound, Random.bound low high = .ok bound) ↔
      low.toInt ≤ high.toInt ∧ high.toInt - low.toInt < 2 ^ 63 - 1) ∧
    (∀ cause, Random.bound low high = .error cause → cause.faultClass = .typing) ∧
    (∀ bound, Random.bound low high = .ok bound → Random.Exact low high bound) ∧
    ∀ (fuel : Nat) (s : Surroundings) (m ready : Machine) (start stop : Node) (x y : Float),
      m.Offers .random →
      Eval.all (calls (fuel + 2) s) [start, stop] m = .ok [.number x, .number y] ready →
      ready.pending = false → Binary64.toInt64? x = some low.toInt →
      Binary64.toInt64? y = some high.toInt →
      (Random.Admits low high → ∃ n,
        (calls (fuel + 3) s).eval (.call (.name "random") [start, stop]) m =
          .ok (.number (Binary64.ofInt
            (low.toInt + (s.draws ready.drawn % (high.toInt - low.toInt + 1).toNat : Nat)))) n) ∧
      (¬Random.Admits low high → ∃ cause n,
        (calls (fuel + 3) s).eval (.call (.name "random") [start, stop]) m =
          .error (.fault ⟨ready.line, cause⟩) n ∧ cause.faultClass = .typing) := by
  refine ⟨⟨?_, ?_⟩, fun cause => Random.typing_of_bound_error, ?_, ?_⟩
  · rintro ⟨b, bound⟩
    exact (Random.bound_eq_ok_iff.mp bound).1
  · intro admits
    obtain ⟨b, bound, -⟩ := Random.bound_of_admits admits
    exact ⟨b, bound⟩
  · intro b bound
    obtain ⟨admits, count⟩ := Random.bound_eq_ok_iff.mp bound
    exact Random.exact_of_bound admits count
  · intro fuel s m ready start stop x y offers evaluated free cut cut'
    exact ⟨Native.eval_random_of_admits offers evaluated free cut cut',
      Native.eval_random_of_not_admits offers evaluated free cut cut'⟩

/-- The widest range from the least integer on, and the greatest draw for it. -/
theorem random_draws_within_widest :
    Random.Admits Int64.minValue (-2) ∧ ∃ n, (calls 3 { draws := fun _ => 2 ^ 63 - 2 }).eval
      (.call (.name "random") [.literal (.number (Binary64.ofInt (-2 ^ 63))),
        .literal (.number (Binary64.ofInt (-2)))]) (Machine.start []) =
          .ok (.number (Binary64.ofInt (-2))) n := by
  have admits : Random.Admits Int64.minValue (-2) := by decide +kernel
  obtain ⟨-, -, -, calls⟩ := random_draws_within Int64.minValue (-2)
  obtain ⟨drawn, -⟩ := calls 0 { draws := fun _ => 2 ^ 63 - 2 } (Machine.start []) (Machine.start [])
    (.literal (.number (Binary64.ofInt (-2 ^ 63)))) (.literal (.number (Binary64.ofInt (-2))))
    (Binary64.ofInt (-2 ^ 63)) (Binary64.ofInt (-2)) ⟨4, rfl⟩ rfl rfl (by decide +kernel)
    (by decide +kernel)
  exact ⟨admits, drawn admits⟩

end EplLang
