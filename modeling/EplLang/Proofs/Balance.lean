import EplLang.Proofs.Moment

/-!
# Signals stay balanced

Nothing in the language keeps a program from leaving a loop where there is none. Such a
break is on record until some loop takes it, and meanwhile every block is skipped, those
of functions included, so that a return may be pending at the same time. The record
stays small all the same: a statement is only executed while nothing is pending, so
each statement finds the record empty and leaves at most one signal of each kind.

For this a returned value must not meet another one. The expression of a `return` may
call functions and may leave a break behind, but it gives back every value that it took:
a call takes the one value that can be on its way when its body is over. The discipline
`balanced` says both at once, and it asks nothing of programs and of values.
-/

set_option autoImplicit false

namespace EplLang

/-- At most one value is on its way and at most one break is not taken. -/
structure Machine.Balanced (m : Machine) : Prop where
  returns : m.returns.length ≤ 1
  breaks : m.breaks ≤ 1

/-- Completed expressions leave no value on its way if there was none. -/
def balanced : Discipline where
  state := Machine.Balanced
  value _ _ := True
  expr _ := True
  stmt _ := True
  stop _ := True
  moves
    | .expression, m, n => m.returns = [] → n.returns = []
    | _, _, _ => True
  ready m := m.pending = false

theorem Machine.signals_of_not_pending {m : Machine} (free : m.pending = false) :
    m.returns = [] ∧ m.breaks = 0 := by
  simpa [pending] using free

theorem Machine.Balanced.same {m n : Machine} (state : m.Balanced) (returns : n.returns = m.returns)
    (breaks : n.breaks = m.breaks) : n.Balanced := by
  refine ⟨?_, ?_⟩
  · rw [returns]
    exact state.returns
  · rw [breaks]
    exact state.breaks

/-- Work that leaves the signals alone. -/
theorem balanced_leads {m n : Machine} (state : m.Balanced) (returns : n.returns = m.returns)
    (breaks : n.breaks = m.breaks) : balanced.Leads .expression m n :=
  ⟨state.same returns breaks, fun none => returns.trans none⟩

/-- A call that starts with nothing on its way takes the one value that can be. -/
theorem takeReturn_balanced {m n k : Machine} {v : Value} (state : n.Balanced)
    (taken : Eval.takeReturn m.returns.length n = .ok v k) :
    k.Balanced ∧ (m.returns = [] → k.returns = []) := by
  have short := state.returns
  rcases takeReturn_cases taken with ⟨none, _, rfl⟩ | ⟨rest, pending, rfl⟩
  · refine ⟨state, fun empty => ?_⟩
    rw [empty] at none
    exact List.eq_nil_of_length_eq_zero (Nat.le_zero.mp none)
  · rw [pending, List.length_cons] at short
    have last : rest = [] := List.eq_nil_of_length_eq_zero (by omega)
    exact ⟨⟨by simp [last], state.breaks⟩, fun _ => last⟩

theorem balanced_laws : balanced.RegionLaws where
  refl g m := by
    cases g with
    | expression => exact fun none => none
    | region | statement => trivial
  trans {g m n k} first second := by
    cases g with
    | expression => exact fun none => second (first none)
    | region | statement => trivial
  coarsen _ := trivial
  widen _ := trivial
  scalar _ _ := trivial
  named _ _ := trivial
  entry _ _ _ := trivial
  stays _ _ := trivial
  fault _ _ _ := trivial
  outOfFuel := trivial
  parts _ _ := trivial
  function _ _ := trivial
  meaning _ := .inr fun _ => trivial
  copied state _ := ⟨balanced_leads state rfl rfl, trivial⟩
  pushed _ _ state _ := ⟨balanced_leads state rfl rfl, trivial⟩
  stored _ _ _ state _ _ := balanced_leads state rfl rfl
  world _ _ _ _ _ state := balanced_leads state rfl rfl
  body _ _ := trivial
  stmtParts _ _ := trivial
  stmtBlocks _ _ _ := trivial
  stmtMeaning _ := .inr fun _ => trivial
  bound _ _ _ state _ := ⟨Machine.Balanced.same state rfl rfl, trivial⟩
  boundEntry _ _ _ _ state _ := ⟨Machine.Balanced.same state rfl rfl, trivial⟩
  prompt _ free := free
  closed _ leads := ⟨Machine.Balanced.same leads.1 rfl rfl, trivial⟩
  given {m n v} ready leads _ := by
    -- nothing was on its way when the statement started, so nothing is when it gives its value
    have none : n.returns = [] := leads.2 (Machine.signals_of_not_pending ready).1
    have state : n.Balanced := leads.1
    exact ⟨⟨by simp [none], state.breaks⟩, trivial⟩
  broken {m} state ready := by
    have none : m.breaks = 0 := (Machine.signals_of_not_pending ready).2
    have state : m.Balanced := state
    exact ⟨⟨state.returns, by simp [none]⟩, trivial⟩
  ended {m} state := by
    have state : m.Balanced := state
    have few := state.breaks
    exact ⟨⟨state.returns, by dsimp only; omega⟩, trivial⟩
  returned {m n k v} _ leads taken := by
    obtain ⟨state, moves⟩ := takeReturn_balanced leads.1 taken
    exact ⟨⟨state.same rfl rfl, moves⟩, trivial⟩
  marked _ _ state := balanced_leads state rfl rfl
  entered state _ := Machine.Balanced.same state rfl rfl
  left _ leads := ⟨Machine.Balanced.same leads.1 rfl rfl, trivial⟩
  importing _ _ := ⟨Nat.zero_le 1, Nat.zero_le 1⟩
  resuming _ state _ := balanced_leads state rfl rfl

theorem balanced_admits (files : Text → Option Text) : balanced.Admits files :=
  fun _ _ _ _ => ⟨fun _ _ _ _ _ _ => trivial, fun _ _ _ => trivial⟩

theorem Reachable.balanced {m : Machine} (reachable : Reachable m) : m.Balanced := by
  induction reachable with
  | start input => exact ⟨Nat.zero_le 1, Nat.zero_le 1⟩
  | @run fuel s body m n _ meets ih =>
      exact meets.state balanced_laws (balanced_admits s.files) (fun _ _ => trivial) ih

/-- **Signals stay balanced**, whatever program is run. In every reachable state at most
one value is on its way to a call and at most one break is not taken. A completed
expression that starts with no value on its way ends so. And in any state a loop takes
a break, and a call a value, only if there is one. -/
theorem signals_balanced {m : Machine} (reachable : Reachable m) :
    m.returns.length ≤ 1 ∧ m.breaks ≤ 1 ∧
    (∀ fuel s e v k, (calls fuel s).eval e m = .ok v k → m.returns = [] → k.returns = []) ∧
    (∀ n d ends k, Eval.roundEnds d n = .ok ends k →
      k = n ∨ 0 < n.breaks ∧ k = { n with breaks := n.breaks - 1 }) ∧
    ∀ n depth v k, Eval.takeReturn depth n = .ok v k →
      k = n ∨ n.returns ≠ [] ∧ k = { n with returns := n.returns.tail } := by
  have state := reachable.balanced
  refine ⟨state.returns, state.breaks, fun fuel s e v k ran none => ?_, fun n d ends k ran => ?_,
    fun n depth v k ran => ?_⟩
  · have follows : balanced.Follows .expression (fun _ _ => True) ((calls fuel s).eval e)
        ((calls fuel s).eval e) m :=
      Discipline.eval_follows balanced_laws (balanced_admits s.files) state trivial
    exact (follows.of_ran ran).1.2 none
  · exact roundEnds_cases ran
  · rcases takeReturn_cases ran with ⟨_, _, same⟩ | ⟨rest, pending, rfl⟩
    · exact .inl same
    · exact .inr (by simp [pending])

/-- A function breaks out of no loop, and its value is returned by no function: both
signals are pending at once. -/
theorem signals_balanced_leaked_break :
    let body : Block :=
      [⟨1, .bind "f" (.function 7 [] [⟨1, .leave⟩])⟩, ⟨2, .give (.call (.name "f") [])⟩]
    let m := (Block.run 9 {} body).last (Machine.start [])
    m.returns = [.null] ∧ m.breaks = 1 ∧ m.returns.length ≤ 1 ∧ m.breaks ≤ 1 := by
  intro body m
  have law := signals_balanced (.run (.start []) (.last 9 {} body _))
  exact ⟨rfl, rfl, law.1, law.2.1⟩

end EplLang
