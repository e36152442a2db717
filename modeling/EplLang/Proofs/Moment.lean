import EplLang.Proofs.Discipline.Statement

/-!
# The moments of a run

A run is one computation, and its outcome shows only the state at the end. To
speak of the states in the middle of it, of calls that have not returned and loops
that go on, the evaluator is watched: the same definitions are tied together once
more, with an alarm that stops everything as soon as some expression or statement
starts or ends, well or not, in a state that is not wanted.

A run meets a state when a watch for that state changes the run. Every state in
which a part of the program starts or ends is met, at any depth of calls, loops
and imports, and no other state is.

`Reachable` are the states met by runs of any programs one after another, the
first of them in a fresh state. A discipline that holds at the start of a run
holds whenever something is met (`Meets.state`).
-/

set_option autoImplicit false

namespace EplLang

/-- The state that a computation leaves, with a result or without. -/
def Run.last {α : Type} (x : Run α) (m : Machine) : Machine :=
  match x m with
  | .ok _ n => n
  | .error _ n => n

theorem Run.last_of_ok {α : Type} {x : Run α} {m n : Machine} {a : α} (ran : x m = .ok a n) :
    x.last m = n := by
  rw [Run.last, ran]

theorem Run.last_of_error {α : Type} {x : Run α} {m n : Machine} {e : Stop}
    (ran : x m = .error e n) : x.last m = n := by
  rw [Run.last, ran]

theorem Run.last_eq {α : Type} {x y : Run α} {m : Machine} (same : x m = y m) :
    x.last m = y.last m := by
  unfold Run.last
  rw [same]

/-- A sequence of two computations completes when both do. -/
theorem Run.bind_eq_ok {α β : Type} {x : Run α} {f : α → Run β} {m k : Machine} {b : β} :
    (x >>= f) m = .ok b k ↔ ∃ a n, x m = .ok a n ∧ f a n = .ok b k := by
  simp only [Bind.bind, EStateM.bind]
  cases x m with
  | ok a n =>
      constructor
      · intro ran
        exact ⟨a, n, rfl, ran⟩
      · rintro ⟨_, _, ⟨⟩, ran⟩
        exact ran
  | error e n => simp

/-- A computation that raises an alarm if its first or its last state is not as
wanted. -/
noncomputable def Run.watched {α : Type} (wanted : Machine → Prop) (alarm : Stop) (x : Run α) :
    Run α := fun m =>
  open Classical in
  if wanted m then
    if wanted (x.last m) then x m else .error alarm (x.last m)
  else .error alarm m

/-- The evaluator with a watch on every expression and statement. -/
noncomputable def watchedCalls (wanted : Machine → Prop) (alarm : Stop) :
    Nat → Surroundings → Calls
  | 0, _ =>
    { eval := fun _ => Run.watched wanted alarm (throw .outOfFuel)
      exec := fun _ => Run.watched wanted alarm (throw .outOfFuel) }
  | fuel + 1, s =>
    let inner := watchedCalls wanted alarm fuel
    { eval := fun n => Run.watched wanted alarm (Eval.expression s (inner s) n)
      exec := fun st => Run.watched wanted alarm (Eval.statement s (inner s) inner fuel st) }

/-- A run of a program under watch. -/
noncomputable def Block.runWatched (wanted : Machine → Prop) (alarm : Stop) (fuel : Nat)
    (s : Surroundings) (body : Block) : Run Unit :=
  Run.watched wanted alarm (Eval.block (watchedCalls wanted alarm fuel s) body)

/-- A run of a program from the state `m` meets the state `n`. -/
def Meets (fuel : Nat) (s : Surroundings) (body : Block) (m n : Machine) : Prop :=
  ∃ alarm, Block.runWatched (· ≠ n) alarm fuel s body m ≠ Block.run fuel s body m

/-- The states met by runs of programs one after another from a fresh state. -/
inductive Reachable : Machine → Prop where
  | start (input : Text) : Reachable (Machine.start input)
  | run {fuel : Nat} {s : Surroundings} {body : Block} {m n : Machine} :
      Reachable m → Meets fuel s body m n → Reachable n

/-! ## Disciplines hold at every moment -/

namespace Discipline

variable {d : Discipline}

namespace Follows

variable {α : Type} {g : Grain} {m : Machine} {P : Store → α → Prop} {x y : Run α}

theorem self (follows : d.Follows g P x y m) : d.Follows g P x x m := ⟨rfl, follows.2⟩

theorem of_ran (follows : d.Follows g P x y m) {a : α} {n : Machine} (ran : x m = .ok a n) :
    d.Leads g m n ∧ P n.store a := by
  have outcome := follows.2
  rw [ran] at outcome
  exact outcome

theorem last_leads (laws : d.Laws) (follows : d.Follows g P x y m) :
    d.Leads .statement m (x.last m) := by
  have outcome := follows.2
  cases ran : x m with
  | ok a n =>
      rw [ran] at outcome
      rw [Run.last_of_ok ran]
      exact outcome.1.toStatement laws
  | error e n =>
      rw [ran] at outcome
      rw [Run.last_of_error ran]
      exact outcome.1

/-- A watch that wants no more than the discipline gives sees nothing. -/
theorem watched (laws : d.Laws) {wanted : Machine → Prop} (gives : ∀ k, d.state k → wanted k)
    (alarm : Stop) (state : d.state m) (follows : d.Follows g P x y m) :
    d.Follows g P x (Run.watched wanted alarm y) m := by
  have last : y.last m = x.last m := Run.last_eq follows.1
  refine ⟨?_, follows.2⟩
  unfold Run.watched
  rw [if_pos (gives m state), last, if_pos (gives _ (follows.last_leads laws).1), follows.1]

end Follows

/-- **A discipline is kept with any amount of fuel**, and a watch that wants no
more than it gives sees nothing. The induction is on the fuel; surroundings vary,
since imported programs run in their own. -/
theorem follows_calls (laws : d.RegionLaws) {wanted : Machine → Prop}
    (gives : ∀ k, d.state k → wanted k) (alarm : Stop) (fuel : Nat) :
    ∀ s : Surroundings, d.Admits s.files →
      d.EvalFollows (calls fuel s) (watchedCalls wanted alarm fuel s) ∧
      d.ExecFollows (calls fuel s) (watchedCalls wanted alarm fuel s) := by
  induction fuel with
  | zero =>
      intro s _
      refine ⟨fun n m _ state => ?_, fun st m _ state _ => ?_⟩
      · exact .watched laws.toLaws gives alarm state (.throw laws.toLaws state laws.outOfFuel)
      · exact .watched laws.toLaws gives alarm state (.throw laws.toLaws state laws.outOfFuel)
  | succ fuel ih =>
      intro s admits
      obtain ⟨eval, exec⟩ := ih s admits
      have nested : ∀ path, d.ExecFollows (calls fuel (s.entering path))
          (watchedCalls wanted alarm fuel (s.entering path)) :=
        fun path => (ih (s.entering path) admits).2
      refine ⟨fun n m expr state => ?_, fun st m stmt state ready => ?_⟩
      · exact .watched laws.toLaws gives alarm state
          (follows_expression laws.toLaws eval (fun _ => follows_invoke laws exec) s state expr)
      · exact .watched laws.toLaws gives alarm state
          (follows_statement laws eval exec admits nested fuel state ready stmt)

/-- Expressions without calls need the laws of expressions only. -/
theorem evalFollows_of_not_invokes (laws : d.Laws) (none : ¬d.Invokes) (fuel : Nat)
    (s : Surroundings) : d.EvalFollows (calls fuel s) (calls fuel s) := by
  induction fuel with
  | zero => exact fun n m _ state => .throw laws state laws.outOfFuel
  | succ fuel ih =>
      exact fun n m expr state =>
        follows_expression laws ih (fun invokes => absurd invokes none) s state expr

/-- The discipline of a relation between states: the expressions that it is about are
asked for nothing but that they relate the state before to the state after. -/
def tracking (expr : Node → Prop) (R : Machine → Machine → Prop) : Discipline where
  state _ := True
  value _ _ := True
  expr := expr
  stmt _ := False
  stop _ := True
  moves _ := R

/-- What expressions do to the state is put together from making containers, for copies
and for literals, and from what built-in operations do to the world. -/
theorem tracking_laws {expr : Node → Prop} {R : Machine → Machine → Prop} (refl : ∀ m, R m m)
    (trans : ∀ {m n k}, R m n → R n k → R m k)
    (parts : ∀ {n e}, expr n → e ∈ n.exprs → expr e) (copied : ∀ m v, R m (m.copied v))
    (pushed : ∀ m shape c, R m (m.pushed shape c))
    (world : ∀ m printed input slept drawn, (∃ operation, expr (.native operation)) →
      R m { m with printed := printed, input := input, slept := slept, drawn := drawn }) :
    (tracking expr R).Laws where
  refl _ := refl
  trans := trans
  coarsen later := later
  widen later := later
  scalar _ _ := trivial
  named _ _ := trivial
  entry _ _ _ := trivial
  stays _ _ := trivial
  fault _ _ _ := trivial
  outOfFuel := trivial
  parts := parts
  function _ _ := trivial
  meaning _ := .inr fun _ => trivial
  copied _ _ := ⟨⟨trivial, copied _ _⟩, trivial⟩
  pushed _ _ _ _ := ⟨⟨trivial, pushed _ _ _⟩, trivial⟩
  stored _ _ assigns := by
    obtain ⟨_, _, _, _, impossible⟩ := assigns
    exact impossible.elim
  world printed input slept drawn performs _ := by
    refine ⟨trivial, world _ printed input slept drawn ?_⟩
    exact performs.resolve_right fun ⟨_, _, impossible⟩ => impossible

section Runs

variable (laws : d.RegionLaws) {fuel : Nat} {s : Surroundings} (admits : d.Admits s.files)
  {m : Machine} (state : d.state m)
include laws admits state

theorem eval_follows {n : Node} (expr : d.expr n) :
    d.Follows .expression d.value ((calls fuel s).eval n) ((calls fuel s).eval n) m :=
  ((follows_calls laws (fun _ _ => trivial) .malformed fuel s admits).1 n m expr state).self

theorem exec_follows (ready : d.ready m) {st : Stmt} (stmt : d.stmt st) :
    d.Follows st.grain (fun _ _ => True) ((calls fuel s).exec st) ((calls fuel s).exec st) m :=
  ((follows_calls laws (fun _ _ => trivial) .malformed fuel s admits).2 st m stmt state ready).self

omit state in
theorem evalFollows_calls : d.EvalFollows (calls fuel s) (calls fuel s) :=
  fun _ _ expr state => eval_follows laws admits state expr

omit state in
theorem execFollows_calls : d.ExecFollows (calls fuel s) (calls fuel s) :=
  fun _ _ stmt state ready => exec_follows laws admits state ready stmt

theorem run_follows {body : Block} (stmts : ∀ st ∈ body, d.stmt st) :
    d.Follows .statement (fun _ _ => True) (Block.run fuel s body) (Block.run fuel s body) m :=
  (follows_block laws.toBlockLaws
    (follows_calls laws (fun _ _ => trivial) .malformed fuel s admits).2 state stmts).self

/-- A discipline holds when a run is over, however it ends. -/
theorem run_last {body : Block} (stmts : ∀ st ∈ body, d.stmt st) :
    d.state ((Block.run fuel s body).last m) :=
  ((run_follows laws admits state stmts).last_leads laws.toLaws).1

end Runs

end Discipline

namespace Meets

variable {fuel : Nat} {s : Surroundings} {body : Block} {m n : Machine}

/-- **A discipline holds whenever a state is met.** -/
theorem state {d : Discipline} (laws : d.RegionLaws) (admits : d.Admits s.files)
    (stmts : ∀ st ∈ body, d.stmt st) (state : d.state m) (meets : Meets fuel s body m n) :
    d.state n := by
  refine Classical.byContradiction fun other => ?_
  have gives : ∀ k, d.state k → k ≠ n := fun k holds same => other (same ▸ holds)
  obtain ⟨alarm, differs⟩ := meets
  have exec := (Discipline.follows_calls laws gives alarm fuel s admits).2
  have ran := Discipline.follows_block laws.toBlockLaws exec state stmts
  exact differs (ran.watched laws.toLaws gives alarm state).1

/-- An alarm that a computation does not raise. -/
theorem exists_alarm {α : Type} (x : Run α) (m : Machine) :
    ∃ alarm, ∀ k, .error alarm k ≠ x m := by
  cases ran : x m with
  | ok a n => exact ⟨.malformed, by simp⟩
  | error e n =>
      by_cases same : e = .malformed
      · exact ⟨.outOfFuel, by simp [same]⟩
      · exact ⟨.malformed, by simp [Ne.symm same]⟩

/-- A run meets the state it starts in. -/
theorem first (fuel : Nat) (s : Surroundings) (body : Block) (m : Machine) :
    Meets fuel s body m m := by
  obtain ⟨alarm, differs⟩ := exists_alarm (Block.run fuel s body) m
  refine ⟨alarm, ?_⟩
  unfold Block.runWatched Run.watched
  rw [if_neg (by simp)]
  exact differs m

/-- A run meets the state it ends in. -/
theorem last (fuel : Nat) (s : Surroundings) (body : Block) (m : Machine) :
    Meets fuel s body m ((Block.run fuel s body).last m) := by
  obtain ⟨alarm, differs⟩ := exists_alarm (Block.run fuel s body) m
  refine ⟨alarm, ?_⟩
  unfold Block.runWatched Run.watched
  split
  · split
    · rename_i other
      exact fun same => other (Run.last_eq same)
    · exact differs _
  · exact differs m

end Meets

end EplLang
