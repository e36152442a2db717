import EplLang.Proofs.Exact
import EplLang.Proofs.Rounds

/-!
# Loops over ranges of numbers

A loop over a range compares its two bounds as doubles, cuts them toward zero and counts from one
integer to the other. Its rounds are those of `Eval.Rounds` for these integers.

A counter in a word of 64 bits that is compared with the last integer before each round and
increased after it would run for ever if the last integer were the greatest of the words. No bound
is cut to that one: the doubles below `2 ^ 63` end `1024` before it. So such a counter counts as
unbounded integers do (`wordRounds_eq`).
-/

set_option autoImplicit false

namespace EplLang

namespace Eval

/-- Rounds of a loop that counts up to `last` in words of 64 bits, at most `bound` of them. -/
def wordRounds (c : Calls) (n : Text) (body : Block) (d : Depth) (last : Int64) :
    Nat → Int64 → Run Unit
  | 0, _ => throw .outOfFuel
  | bound + 1, i =>
    if i ≤ last then do
      Run.bindName n (.number (Binary64.ofInt i.toInt))
      block c body
      if ← roundEnds d then pure () else wordRounds c n body d last bound (i + 1)
    else pure ()

/-- Counting in words is counting in integers, as long as the last one is not the greatest
word. -/
theorem wordRounds_eq (c : Calls) (n : Text) (body : Block) (d : Depth) {low high : Int}
    (least : -2 ^ 63 ≤ low) (order : low ≤ high + 1) (least' : -2 ^ 63 ≤ high)
    (below : high < 2 ^ 63 - 1) {bound : Nat}
    (enough : (high - low + 1).toNat < bound) :
    wordRounds c n body d (Int64.ofInt high) bound (Int64.ofInt low) =
      rangeRounds c n body d (high - low + 1).toNat low := by
  induction bound generalizing low with
  | zero => omega
  | succ bound ih =>
      have value : (Int64.ofInt low).toInt = low := Int64.toInt_ofInt_of_le least (by omega)
      have value' : (Int64.ofInt high).toInt = high :=
        Int64.toInt_ofInt_of_le least' (by omega)
      have compared : Int64.ofInt low ≤ Int64.ofInt high ↔ low ≤ high := by
        rw [Int64.le_iff_toInt_le, value, value']
      have following : Int64.ofInt low + 1 = Int64.ofInt (low + 1) := (Int64.ofInt_add low 1).symm
      rw [wordRounds]
      by_cases more : low ≤ high
      · -- the next word is that of `low + 1`, which is at most the greatest one by `below`
        have count : (high - low + 1).toNat = (high - (low + 1) + 1).toNat + 1 := by omega
        rw [if_pos (compared.mpr more), value, count, rangeRounds, following,
          ih (by omega) (by omega) (by omega)]
      · have none : (high - low + 1).toNat = 0 := by omega
        rw [if_neg (mt compared.mp more), none, rangeRounds]

section Range

variable {c : Calls} {n : Text} {first last : Node} {body : Block} {m k l : Machine} {x y : Float}
  (lower : c.eval first m = .ok (.number x) k) (upper : c.eval last k = .ok (.number y) l)
include lower upper

theorem range_of_ge (none : x ≥ y) : range c n first last body m = .ok () l := by
  rw [range, Run.bind_of_ok lower, Run.bind_of_ok upper]
  dsimp only [Value.number]
  rw [if_pos none]
  rfl

theorem range_of_not_cuts (more : ¬x ≥ y)
    (outside : Binary64.toInt64? x = none ∨ Binary64.toInt64? y = none) :
    range c n first last body m = .error (.fault ⟨l.line, .rangeBounds x y⟩) l := by
  rw [range, Run.bind_of_ok lower, Run.bind_of_ok upper]
  dsimp only [Value.number]
  rw [if_neg more]
  cases cut : Binary64.toInt64? x with
  | none => rfl
  | some low =>
      rw [cut] at outside
      rw [outside.resolve_left nofun]
      rfl

theorem range_of_cuts (more : ¬x ≥ y) {low high : Int} (cuts : Binary64.Cuts x low)
    (cuts' : Binary64.Cuts y high) :
    range c n first last body m =
      loopRegion (fun d => rangeRounds c n body d (high - low + 1).toNat low) l := by
  rw [range, Run.bind_of_ok lower, Run.bind_of_ok upper]
  dsimp only [Value.number]
  rw [if_neg more, Binary64.toInt64?_eq_some_iff.mpr cuts, Binary64.toInt64?_eq_some_iff.mpr cuts']

/-- The integers between the bounds are those that the loop goes through. -/
theorem exists_range_rounds (more : ¬x ≥ y) {low high : Int} (cuts : Binary64.Cuts x low)
    (cuts' : Binary64.Cuts y high) : ∃ runs result,
      Rounds c body (enterInteger n) l (Int.range low (high + 1)) l runs result ∧
      range c n first last body m = closed l.bindings.names result ∧
      (runs.length : Int) ≤ high - low + 1 := by
  have order := cuts.mono cuts' more
  have last_item : low + ((high - low + 1).toNat : Int) = high + 1 := by omega
  have counted : range c n first last body m = _ := range_of_cuts lower upper more cuts cuts'
  simp only [rangeRounds_eq, last_item] at counted
  obtain ⟨runs, result, rounds, same⟩ := loopRegion_rounds c body
    (fun i m => .boundTo m n (.number (Binary64.ofInt i))) (Int.range low (high + 1)) l
  refine ⟨runs, result, rounds, counted.trans same, ?_⟩
  have short := rounds.length_le
  rw [Int.range, List.length_map, List.length_range] at short
  omega

end Range

end Eval

open Binary64 in
/-- **Loops over ranges.** Let the bounds of a loop over a range evaluate to numbers. If the first
is at least the second, the loop does nothing more. If not, the first is less than the second or
one of them is no number. If then one of them is no number, or is not cut to an integer of 64 bits,
the loop fails with a fault of typing in the state after the bounds. Otherwise let `low` and
`high` be what they are cut to. The body is run for the integers from `low` up to and including
`high`, until a run fails or leaves a signal pending, each run starting with the name of the loop
bound to the double of the integer, and at the end the names bound inside are dropped. A counter
of 64 bits does not wrap and gives the same loop. -/
theorem range_loop_counts {fuel : Nat} {s : Surroundings} (line : Int) (n : Text)
    {first last : Node} (body : Block) {m k l : Machine} {x y : Float}
    (lower : (calls fuel s).eval first m = .ok (.number x) k)
    (upper : (calls fuel s).eval last k = .ok (.number y) l) :
    let outcome := (calls (fuel + 1) s).exec ⟨line, .range n first last body⟩ m
    (x ≥ y → outcome = .ok () l) ∧
    (¬x ≥ y →
      (x < y ∨ isNan x = true ∨ isNan y = true) ∧
      (isNan x = true ∨ isNan y = true ∨ (∀ low, ¬Cuts x low) ∨ (∀ high, ¬Cuts y high) →
        ∃ cause : Cause, cause.faultClass = .typing ∧
          outcome = .error (.fault ⟨l.line, cause⟩) l) ∧
      ∀ low high, Cuts x low → Cuts y high →
        low ≤ high ∧ high ≤ 2 ^ 63 - 1024 ∧
        (∃ runs result,
          Eval.Rounds (calls fuel s) body (Eval.enterInteger n) l (Int.range low (high + 1)) l runs
            result ∧
          outcome = Eval.closed l.bindings.names result ∧
          (∀ run ∈ runs, (Eval.enterInteger n run.1 run.2).bindings.find? n =
            some (.number (ofInt run.1))) ∧
          (runs.length : Int) ≤ high - low + 1) ∧
        ∀ bound, (high - low + 1).toNat < bound →
          outcome = Eval.loopRegion (fun d => Eval.wordRounds (calls fuel s) n body d
            (Int64.ofInt high) bound (Int64.ofInt low)) l) := by
  intro outcome
  refine ⟨Eval.range_of_ge lower upper, fun more => ⟨lt_of_not_ge more, fun outside => ?_, ?_⟩⟩
  · refine ⟨.rangeBounds x y, rfl, Eval.range_of_not_cuts lower upper more ?_⟩
    rcases outside with nan | nan | none | none
    · exact .inl (toInt64?_eq_none (.inl nan))
    · exact .inr (toInt64?_eq_none (.inl nan))
    · exact .inl (toInt64?_eq_none (.inr none))
    · exact .inr (toInt64?_eq_none (.inr none))
  · intro low high cuts cuts'
    have order := cuts.mono cuts' more
    have least := cuts.least
    have top := cuts'.le
    refine ⟨order, top, ?_, fun bound enough => ?_⟩
    · obtain ⟨runs, result, rounds, same, short⟩ :=
        Eval.exists_range_rounds lower upper more cuts cuts'
      exact ⟨runs, result, rounds, same, fun run _ => Eval.find?_enterInteger n run.1 run.2, short⟩
    · refine (Eval.range_of_cuts lower upper more cuts cuts').trans ?_
      congr 1
      funext d
      exact (Eval.wordRounds_eq _ n body d least (by omega) (by omega) (by omega) enough).symm

/-- From `-1.5` to `2` the loop counts from `-1`, whatever the body does to the name. -/
theorem range_loop_counts_through_zero :
    let x : Float := .ofBits 0xBFF8000000000000
    let y : Float := .ofBits 0x4000000000000000
    let body : Block := [⟨1, .bind "i" (.text "lost")⟩]
    let m := Machine.start []
    (calls 8 {}).eval (.literal (.number x)) m = .ok (.number x) m ∧
    (calls 8 {}).eval (.literal (.number y)) m = .ok (.number y) m ∧
    ¬x ≥ y ∧ Binary64.Cuts x (-1) ∧ Binary64.Cuts y 2 ∧
    ∃ runs result,
      Eval.Rounds (calls 8 {}) body (Eval.enterInteger "i") m [-1, 0, 1, 2] m runs result ∧
      (calls 9 {}).exec ⟨1, .range "i" (.literal (.number x)) (.literal (.number y)) body⟩ m =
        Eval.closed m.bindings.names result := by
  intro x y body m
  have lower : (calls 8 {}).eval (.literal (.number x)) m = .ok (.number x) m := rfl
  have upper : (calls 8 {}).eval (.literal (.number y)) m = .ok (.number y) m := rfl
  have less : ¬x ≥ y := by decide
  have cuts : Binary64.Cuts x (-1) := Binary64.toInt64?_eq_some_iff.mp (by decide)
  have cuts' : Binary64.Cuts y 2 := Binary64.toInt64?_eq_some_iff.mp (by decide)
  obtain ⟨_, _, ⟨runs, result, rounds, same, _⟩, _⟩ :=
    ((range_loop_counts 1 "i" body lower upper).2 less).2.2 (-1) 2 cuts cuts'
  exact ⟨lower, upper, less, cuts, cuts', runs, result, rounds, same⟩

end EplLang
