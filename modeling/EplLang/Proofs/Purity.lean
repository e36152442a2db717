import EplLang.Proofs.Contents
import EplLang.Proofs.Moment

/-!
# Expressions without effects

An expression acts when a call of a function or a built-in operation stands somewhere
in it. The bodies of function literals do not count, since to evaluate a literal is
not to call it. Everything else that an expression can do is to make containers: one
for each literal that is evaluated, and as many as a value has inside for each copy
that is taken.

So an expression that does not act leaves the whole state as it was but for
containers that nothing knew before (`eval_of_not_acts`). This covers the ways in which
it may fail as well: a walk along a path that stops half-way has evaluated the keys
up to there, and the containers made for them stay.
-/

set_option autoImplicit false

namespace EplLang

namespace Node

/-- An expression that calls a function or carries out a built-in operation when it is
evaluated. -/
inductive Acts : Node → Prop where
  | call (callee : Node) (args : List Node) : Acts (.call callee args)
  | native (operation : Native) : Acts (.native operation)
  | part {whole e : Node} : e ∈ whole.exprs → Acts e → Acts whole

theorem not_acts {e : Node} (own : e.form ≠ .call ∧ e.form ≠ .native)
    (parts : ∀ part ∈ e.exprs, ¬part.Acts) : ¬e.Acts := by
  intro acts
  cases acts with
  | call callee args => exact own.1 rfl
  | native operation => exact own.2 rfl
  | part member acts => exact parts _ member acts

end Node

/-- Work that does not act makes containers and does nothing else. -/
def silent : Discipline :=
  .tracking (fun e => ¬e.Acts) fun m n => m.store.Extends n.store ∧ n = { m with store := n.store }

theorem silent_laws : silent.Laws := by
  refine Discipline.tracking_laws (fun m => ⟨.refl _, rfl⟩) ?_
    (fun quiet member acts => quiet (.part member acts)) (fun m v => ⟨.copy m.store v, rfl⟩)
    (fun m shape c => ⟨.push m.store shape c, rfl⟩) ?_
  · rintro m n k ⟨first, only⟩ ⟨second, rest⟩
    refine ⟨first.trans second, ?_⟩
    rw [rest, only]
  · rintro m printed input slept drawn ⟨operation, quiet⟩
    exact absurd (.native operation) quiet

theorem silent_eval (fuel : Nat) (s : Surroundings) :
    silent.EvalFollows (calls fuel s) (calls fuel s) := by
  refine Discipline.evalFollows_of_not_invokes silent_laws ?_ fuel s
  rintro ⟨callee, args, quiet⟩
  exact quiet (.call callee args)

/-- **Expressions that do not act are pure.** However the evaluation of one ends, with a
value or not, every container that was there is as it was, and so is the rest of the
state: names and what they are bound to, the receiver, the signals, the line, what has
been printed, read, slept and drawn. -/
theorem eval_of_not_acts (fuel : Nat) (s : Surroundings) (m : Machine) {e : Node}
    (quiet : ¬e.Acts) :
    ∃ store, m.store.Extends store ∧
      ((∃ v, (calls fuel s).eval e m = .ok v { m with store }) ∨
        ∃ stop, (calls fuel s).eval e m = .error stop { m with store }) := by
  have follows := silent_eval fuel s e m quiet trivial
  obtain ⟨-, grown, only⟩ := follows.last_leads silent_laws
  refine ⟨_, grown, ?_⟩
  cases ran : (calls fuel s).eval e m with
  | ok v n =>
      rw [Run.last_of_ok ran] at only ⊢
      rw [← only]
      exact .inl ⟨v, rfl⟩
  | error stop n =>
      rw [Run.last_of_error ran] at only ⊢
      rw [← only]
      exact .inr ⟨stop, rfl⟩

/-- A literal that holds a function with a call in its body, and a copy of a container, is
made and counted before the division fails: two containers more, and nothing else. -/
theorem eval_of_not_acts_division :
    let m := (Block.run 9 {} [⟨1, .bind "a" (.container .object ⟨[(.string "k",
      some (.container .object ⟨[(.string "n", some (.text "s"))]⟩))]⟩)⟩]).last
        (Machine.start "rest")
    let e := Node.arithmetic (.length (.container .array ⟨[
      (.number 0, some (.function 7 [] [⟨1, .call (.name "f") []⟩])),
      (.number 1, some (.index (.name "a") [.text "k"]))]⟩)) .divide (.literal (.number 0))
    ¬e.Acts ∧ ∃ store, m.store.Extends store ∧ store.cells.size = m.store.cells.size + 2 ∧
      (calls 9 {}).eval e m = .error (.fault ⟨1, .divisionByZero⟩) { m with store } := by
  intro m e
  have quiet : ¬e.Acts := by
    have leaf {e : Node} (own : e.form ≠ .call ∧ e.form ≠ .native) (none : e.exprs = []) :
        ¬e.Acts := Node.not_acts own (by simp [none])
    refine Node.not_acts (by decide) ?_
    rintro _ (_ | ⟨_, _ | ⟨_, ⟨⟩⟩⟩)
    · refine Node.not_acts (by decide) ?_
      rintro _ (_ | ⟨_, ⟨⟩⟩)
      refine Node.not_acts (by decide) ?_
      rintro _ (_ | ⟨_, _ | ⟨_, ⟨⟩⟩⟩)
      · exact leaf (by decide) rfl
      · refine Node.not_acts (by decide) ?_
        rintro _ (_ | ⟨_, _ | ⟨_, ⟨⟩⟩⟩)
        · exact leaf (by decide) rfl
        · exact leaf (by decide) rfl
    · exact leaf (by decide) rfl
  obtain ⟨store, grown, ended⟩ := eval_of_not_acts 9 {} m quiet
  obtain ⟨n, ran, longer⟩ : ∃ n, (calls 9 {}).eval e m = .error (.fault ⟨1, .divisionByZero⟩) n ∧
      n.store.cells.size = m.store.cells.size + 2 := ⟨_, rfl, rfl⟩
  rcases ended with ⟨v, ok⟩ | ⟨stop, failed⟩
  · cases ran.symm.trans ok
  · cases ran.symm.trans failed
    exact ⟨quiet, store, grown, longer, failed⟩

end EplLang
