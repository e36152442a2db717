import EplLang.Proofs.Discipline

/-!
# Expressions keep to a discipline

If the parts of an expression keep to a discipline with `Laws`, and so does the
body of every function that is called, then the expression does. There is one
statement for each definition of the evaluator, in the order of the evaluator.

Operators and built-in functions only ever give scalars. Their failures are
causes of run time, unless an operator is not of the table that its node asks for.
-/

set_option autoImplicit false

namespace EplLang

/-! ## Operators -/

namespace Operator

/-- An operator gave a scalar, or failed by a cause of run time. It may fail
otherwise only if it is odd, not being one of its table. -/
def Regular (odd : Prop) : Except Cause Value → Prop
  | .ok v => ∃ x, v = .scalar x
  | .error cause => cause.Proper ∨ odd

theorem arithmetic_regular (store : Store) (a : Value) (op : Kind) (b : Value) :
    Regular (op ∉ Node.arithmeticOps) (arithmetic store a op b) := by
  unfold arithmetic
  split
  · split
    · exact ⟨_, rfl⟩
    · exact .inl trivial
  · split
    · unfold calculate
      split
      case h_4 =>
        split
        · exact .inl trivial
        · exact ⟨_, rfl⟩
      case h_6 => exact .inr (by simp only [Node.arithmeticOps, List.mem_cons]; grind)
      all_goals exact ⟨_, rfl⟩
    · exact .inl trivial
    · exact .inl trivial

theorem unary_regular (op : Kind) (a : Value) :
    Regular (¬(op = .minus ∨ op = .not)) (unary op a) := by
  unfold unary
  split
  · exact ⟨_, rfl⟩
  · exact .inl trivial
  · exact ⟨_, rfl⟩
  · exact .inl trivial
  · refine .inr ?_
    rintro (rfl | rfl) <;> simp_all

theorem alike_error {same : Bool} {op : Kind} {otherwise cause : Cause}
    (failed : alike same op otherwise = .error cause) : cause = otherwise := by
  unfold alike at failed
  split at failed <;> cases failed
  rfl

theorem compare_error {a b : Value} {op : Kind} {cause : Cause}
    (failed : compare a op b = .error cause) : cause.Proper := by
  unfold compare at failed
  split at failed
  case h_1 => cases failed
  case h_4 =>
    split at failed
    · cases failed
    · rw [alike_error failed]
      trivial
  all_goals
    rw [alike_error failed]
    trivial

theorem condition_regular (a : Value) (op : Kind) (b : Value) :
    Regular (op ∉ Node.conditionOps) (condition a op b) := by
  unfold condition
  split
  · exact ⟨_, rfl⟩
  · exact ⟨_, rfl⟩
  · split
    · cases compared : compare a op b with
      | ok holds => exact ⟨_, rfl⟩
      | error cause => exact .inl (compare_error compared)
    · rename_i other
      cases op <;> simp_all [Regular, compares, Node.conditionOps, Cause.Proper]

theorem length_scalar (store : Store) (v : Value) : ∃ x, length store v = .scalar x := by
  unfold length
  split <;> exact ⟨_, rfl⟩

theorem characterAt_regular (t : Text) (x : Float) : Regular False (characterAt t x) := by
  unfold characterAt
  dsimp only
  split
  · split
    · exact .inl trivial
    · split
      · exact ⟨_, rfl⟩
      · exact .inl trivial
  · exact .inl trivial

end Operator

theorem Native.numberOf_regular (v : Value) : Operator.Regular False (Native.numberOf v) := by
  unfold Native.numberOf
  split
  · exact ⟨_, rfl⟩
  · exact ⟨_, rfl⟩
  · split
    · exact ⟨_, rfl⟩
    · exact .inl trivial
  · exact .inl trivial

theorem Random.bound_error {low high : Int64} {cause : Cause}
    (failed : Random.bound low high = .error cause) : cause.Proper := by
  unfold Random.bound at failed
  split at failed
  · cases failed
    trivial
  · dsimp only at failed
    split at failed
    · cases failed
      trivial
    · cases failed

namespace Discipline

variable {d : Discipline}

/-- The evaluation of expressions keeps to the discipline. -/
def EvalFollows (d : Discipline) (c c' : Calls) : Prop :=
  ∀ n m, d.expr n → d.state m → d.Follows .expression d.value (c.eval n) (c'.eval n) m

/-- Calling functions keeps to the discipline. -/
def InvokeFollows (d : Discipline) (c c' : Calls) : Prop :=
  ∀ site params body args receiver m, d.value m.store (.function site params body) →
    (∀ v ∈ args, d.value m.store v) → (∀ v ∈ receiver, d.value m.store v) → d.state m →
    d.Follows .expression d.value (Eval.invoke c params body args receiver)
      (Eval.invoke c' params body args receiver) m

section Actions

variable (laws : d.Laws) {g : Grain} {m : Machine} (state : d.state m)
include laws state

theorem follows_regular {odd : Prop} {r : Except Cause Value} (regular : Operator.Regular odd r)
    (allowed : odd → ∀ e, d.stop e) :
    d.Follows g d.value (Run.ofExcept r) (Run.ofExcept r) m := by
  cases r with
  | ok v =>
      obtain ⟨x, rfl⟩ := regular
      exact .pure laws state (laws.scalar _ x)
  | error cause =>
      rcases regular with proper | strange
      · exact .fail laws state proper
      · exact .of_error laws rfl state (allowed strange _)

theorem follows_lookup (n : Text) : d.Follows g d.value (Run.lookup n) (Run.lookup n) m := by
  unfold Run.lookup
  refine .get ?_
  dsimp only
  split
  · rename_i v found
    refine .pure laws state (laws.named state ?_)
    split at found
    · exact .receiver found
    · exact .bound found
  · exact .fail laws state trivial

theorem follows_copy {v : Value} (value : d.value m.store v) :
    d.Follows g d.value (Run.copy v) (Run.copy v) m := by
  obtain ⟨leads, copied⟩ := laws.copied state value
  exact .of_ok (n := m.copied v) rfl (leads.coarsen laws) copied

theorem follows_fresh (shape : Shape) {c : Container Value}
    (values : ∀ v ∈ c.values, d.value m.store v) :
    d.Follows g d.value (Run.fresh shape c) (Run.fresh shape c) m := by
  obtain ⟨leads, made⟩ := laws.pushed shape state values
  exact .of_ok (n := m.pushed shape c) rfl (leads.coarsen laws) made

theorem follows_print (performs : d.Performs) (t : Text) :
    d.Follows g (fun _ _ => True) (Run.print t) (Run.print t) m :=
  .of_ok rfl ((laws.world (t :: m.printed) m.input m.slept m.drawn performs state).coarsen laws)
    trivial

theorem follows_view (v : Value) : d.Follows g (fun _ _ => True) (Run.view v) (Run.view v) m :=
  .of_ok rfl (.refl laws state) trivial

end Actions

/-! ## Built-in functions -/

section Natives

variable (laws : d.Laws) {g : Grain} {m : Machine} (state : d.state m)
include laws state

theorem follows_numberParam (n : Text) :
    d.Follows g (fun _ _ => True) (Native.numberParam n) (Native.numberParam n) m := by
  unfold Native.numberParam
  refine (follows_lookup laws state n).bind laws fun v k reached _ => ?_
  split
  · exact .pure laws reached.1 trivial
  · exact .fail laws reached.1 trivial

theorem follows_draw (performs : d.Performs) (s : Surroundings) (low high : Int64) :
    d.Follows g d.value (Native.draw s low high) (Native.draw s low high) m := by
  unfold Native.draw
  refine Follows.bind laws (P := fun _ _ => True) ?_ fun bound k reached _ => ?_
  · exact .ofExcept laws state (fun _ _ => trivial)
      fun _ failed => laws.fault _ (Random.bound_error failed)
  · exact .of_ok rfl
      ((laws.world k.printed k.input k.slept (k.drawn + 1) performs reached.1).coarsen laws)
      (laws.scalar _ _)

theorem follows_native (performs : d.Performs) (s : Surroundings) (operation : Native) :
    d.Follows g d.value (operation.run s) (operation.run s) m := by
  cases operation with
  | log =>
      refine (follows_lookup laws state _).bind laws fun v k reached _ => ?_
      refine (follows_view laws reached.1 v).bind laws fun shown k reached _ => ?_
      refine (follows_print laws reached.1 performs _).bind laws fun _ k reached _ => ?_
      exact .pure laws reached.1 (laws.scalar _ _)
  | sleep =>
      refine (follows_numberParam laws state _).bind laws fun seconds k reached _ => ?_
      dsimp only
      split
      · have slept :=
          laws.world k.printed k.input (Native.pause seconds :: k.slept) k.drawn performs reached.1
        exact .of_ok rfl (slept.coarsen laws) (laws.scalar _ _)
      · exact .pure laws reached.1 (laws.scalar _ _)
  | time => exact .pure laws state (laws.scalar _ _)
  | input =>
      refine (follows_lookup laws state _).bind laws fun v k reached _ => ?_
      refine (follows_view laws reached.1 v).bind laws fun shown k reached _ => ?_
      refine (follows_print laws reached.1 performs _).bind laws fun _ k reached _ => ?_
      have read :=
        laws.world k.printed (Native.splitLine k.input).2 k.slept k.drawn performs reached.1
      exact .of_ok rfl (read.coarsen laws) (laws.scalar _ _)
  | random =>
      refine (follows_numberParam laws state _).bind laws fun a k reached _ => ?_
      refine (follows_numberParam laws reached.1 _).bind laws fun b k reached _ => ?_
      split
      · exact follows_draw laws reached.1 performs s _ _
      · exact .fail laws reached.1 trivial
  | toNumber =>
      refine (follows_lookup laws state _).bind laws fun v k reached _ => ?_
      exact follows_regular laws reached.1 (Native.numberOf_regular v) False.elim
  | toText =>
      refine (follows_lookup laws state _).bind laws fun v k reached _ => ?_
      refine (follows_view laws reached.1 v).bind laws fun shown k reached _ => ?_
      exact .pure laws reached.1 (laws.scalar _ _)

end Natives

/-! ## The forms of expressions -/

section Expressions

variable (laws : d.Laws) {c c' : Calls} (eval : d.EvalFollows c c')
include laws eval

theorem follows_all {args : List Node} {m : Machine} (state : d.state m)
    (exprs : ∀ n ∈ args, d.expr n) :
    d.Follows .expression (fun s vs => ∀ v ∈ vs, d.value s v) (Eval.all c args)
      (Eval.all c' args) m := by
  induction args generalizing m with
  | nil => exact .pure laws state (by simp)
  | cons n rest ih =>
      obtain ⟨first, others⟩ := List.forall_mem_cons.mp exprs
      refine (eval n m first state).bind laws fun v k reached value => ?_
      refine (ih reached.1 others).bind laws fun vs k reached values => ?_
      exact .pure laws reached.1 (List.forall_mem_cons.mpr ⟨reached.value laws value, values⟩)

theorem follows_items {entries : List (Scalar × Option Node)} {done : Container Value} {m : Machine}
    (state : d.state m) (values : ∀ v ∈ done.values, d.value m.store v)
    (exprs : ∀ n ∈ (Items.mk entries).values, d.expr n)
    (complete : (∀ entry ∈ entries, entry.2.isSome) ∨ ∀ e, d.stop e) :
    d.Follows .expression (fun s made => ∀ v ∈ made.values, d.value s v)
      (Eval.items c done entries) (Eval.items c' done entries) m := by
  induction entries generalizing m done with
  | nil => exact .pure laws state values
  | cons entry rest ih =>
      obtain ⟨k, expression⟩ := entry
      cases expression with
      | none =>
          rcases complete with present | stops
          · cases present (k, none) List.mem_cons_self
          · exact .throw laws state (stops _)
      | some n =>
          have first : d.expr n := exprs n (Items.mem_values.mpr ⟨k, List.mem_cons_self⟩)
          refine (eval n m first state).bind laws fun v l reached value => ?_
          refine ih reached.1 (fun w member => ?_) (fun e member => ?_)
            (complete.imp_left fun present entry member =>
              present entry (List.mem_cons_of_mem _ member))
          · rcases OrderedMap.mem_values_set member with rfl | old
            · exact value
            · exact reached.value laws (values w old)
          · obtain ⟨key, inside⟩ := Items.mem_values.mp member
            exact exprs e (Items.mem_values.mpr ⟨key, List.mem_cons_of_mem _ inside⟩)

theorem follows_key {n : Node} {m : Machine} (state : d.state m) (expr : d.expr n) :
    d.Follows .expression (fun _ _ => True) (Eval.key c n) (Eval.key c' n) m := by
  unfold Eval.key
  refine (eval n m expr state).bind laws fun v k reached _ => ?_
  split
  · exact .pure laws reached.1 trivial
  · exact .fail laws reached.1 trivial

theorem follows_walk {path : List Node} {v : Value} {parent : Option Value} {m : Machine}
    (state : d.state m) (value : d.value m.store v)
    (above : ∀ w ∈ parent, d.value m.store w) (exprs : ∀ n ∈ path, d.expr n) :
    d.Follows .expression (fun s r => d.value s r.1 ∧ ∀ w ∈ r.2, d.value s w)
      (Eval.walk c v parent path) (Eval.walk c' v parent path) m := by
  induction path generalizing v parent m with
  | nil => exact .pure laws state ⟨value, above⟩
  | cons n rest ih =>
      obtain ⟨first, others⟩ := List.forall_mem_cons.mp exprs
      cases v with
      | container shape ref =>
          refine (follows_key laws eval state first).bind laws fun k l reached _ => ?_
          refine .get ?_
          split
          · rename_i next found
            obtain ⟨key, member, -⟩ := OrderedMap.exists_mem_entries _ found
            have container := reached.value laws value
            refine ih reached.1 (laws.entry reached.1 container member) (fun w same => ?_) others
            cases same
            exact container
          · exact .fail laws reached.1 trivial
      | scalar x => exact .fail laws state trivial
      | function site params body => exact .fail laws state trivial

omit laws eval in
theorem value_receiverOf {s : Store} {v : Value} {parent : Option Value}
    (above : ∀ w ∈ parent, d.value s w) : ∀ w ∈ Eval.receiverOf v parent, d.value s w := by
  intro w same
  unfold Eval.receiverOf at same
  split at same
  · cases same
    exact above _ rfl
  · cases same

theorem follows_index {base : Node} {path : List Node} {m : Machine} (state : d.state m)
    (baseExpr : d.expr base) (exprs : ∀ n ∈ path, d.expr n)
    (leads : path ≠ [] ∨ ∀ e, d.stop e) :
    d.Follows .expression (fun s r => d.value s r.1 ∧ ∀ w ∈ r.2, d.value s w)
      (Eval.index c base path) (Eval.index c' base path) m := by
  unfold Eval.index
  refine (eval base m baseExpr state).bind laws fun v k reached value => ?_
  split
  · rcases leads with somewhere | stops
    · exact absurd rfl somewhere
    · exact .throw laws reached.1 (stops _)
  · rename_i t n
    refine (eval n k (exprs n (by simp)) reached.1).bind laws fun w l reached _ => ?_
    split
    · refine (follows_regular laws reached.1 (Operator.characterAt_regular t _) False.elim).bind
        laws fun character k reached value => ?_
      exact .pure laws reached.1 ⟨value, by simp⟩
    · exact .fail laws reached.1 trivial
  · exact .pure laws reached.1 ⟨laws.scalar _ _, by simp⟩
  · refine (follows_walk laws eval reached.1 value (by simp) exprs).bind laws
      fun found l reached values => ?_
    refine (follows_copy laws reached.1 values.1).bind laws fun copied k reached value => ?_
    have above := value_receiverOf (v := found.1) values.2
    exact .pure laws reached.1 ⟨value, fun w same => reached.value laws (above w same)⟩

theorem follows_resolve {callee : Node} {m : Machine} (state : d.state m) (expr : d.expr callee) :
    d.Follows .expression (fun s r => d.value s r.1 ∧ ∀ w ∈ r.2, d.value s w)
      (Eval.resolve c callee) (Eval.resolve c' callee) m := by
  unfold Eval.resolve
  split
  · rename_i base path
    exact follows_index laws eval state (laws.parts expr List.mem_cons_self)
      (fun n member => laws.parts expr (List.mem_cons_of_mem _ member)) (laws.meaning expr)
  · refine (eval callee m expr state).bind laws fun v k reached value => ?_
    exact .pure laws reached.1 ⟨value, by simp⟩

theorem follows_call (invoke : d.InvokeFollows c c') {callee : Node} {args : List Node}
    {m : Machine} (state : d.state m) (expr : d.expr callee)
    (exprs : ∀ n ∈ args, d.expr n) :
    d.Follows .expression d.value (Eval.call c callee args) (Eval.call c' callee args) m := by
  unfold Eval.call
  refine (follows_resolve laws eval state expr).bind laws fun r k reached values => ?_
  obtain ⟨f, receiver⟩ := r
  dsimp only at values ⊢
  split
  · rename_i site params body
    split
    · refine (follows_all laws eval reached.1 exprs).bind laws fun vs l reached args => ?_
      exact invoke site params body vs receiver l (reached.value laws values.1) args
        (fun w member => reached.value laws (values.2 w member)) reached.1
    · exact .fail laws reached.1 trivial
  · exact .fail laws reached.1 trivial

/-- **Expressions keep to a discipline.** -/
theorem follows_expression (invoke : d.Invokes → d.InvokeFollows c c') (s : Surroundings) {n : Node}
    {m : Machine} (state : d.state m) (expr : d.expr n) :
    d.Follows .expression d.value (Eval.expression s c n) (Eval.expression s c' n) m := by
  have parts : ∀ e ∈ n.exprs, d.expr e := fun e member => laws.parts expr member
  have meaning := laws.meaning expr
  unfold Eval.expression
  split
  · exact .pure laws state (laws.scalar _ _)
  · exact .pure laws state (laws.function _ expr)
  · refine (follows_items laws eval state
      (fun _ member => by cases member) parts meaning).bind laws fun made k reached values => ?_
    exact follows_fresh laws reached.1 _ values
  · exact follows_lookup laws state _
  · refine (follows_index laws eval state (parts _ List.mem_cons_self)
      (fun e member => parts e (List.mem_cons_of_mem _ member)) meaning).bind laws
      fun r k reached values => ?_
    exact .pure laws reached.1 values.1
  · exact follows_call laws eval (invoke ⟨_, _, expr⟩) state (parts _ List.mem_cons_self)
      fun e member => parts e (List.mem_cons_of_mem _ member)
  · exact follows_native laws state (.inl ⟨_, expr⟩) s _
  · refine (eval _ m (parts _ (by simp [Node.exprs])) state).bind laws fun a k reached _ => ?_
    refine (eval _ k (parts _ (by simp [Node.exprs])) reached.1).bind laws fun b k reached _ => ?_
    exact .get (follows_regular laws reached.1 (Operator.arithmetic_regular _ _ _ _)
      meaning.resolve_left)
  · refine (eval _ m (parts _ List.mem_cons_self) state).bind laws fun a k reached _ => ?_
    exact follows_regular laws reached.1 (Operator.unary_regular _ _) meaning.resolve_left
  · refine (eval _ m (parts _ (by simp [Node.exprs])) state).bind laws fun a k reached _ => ?_
    refine (eval _ k (parts _ (by simp [Node.exprs])) reached.1).bind laws fun b k reached _ => ?_
    exact follows_regular laws reached.1 (Operator.condition_regular _ _ _) meaning.resolve_left
  · refine (eval _ m (parts _ List.mem_cons_self) state).bind laws fun a k reached _ => ?_
    refine .get (.pure laws reached.1 ?_)
    obtain ⟨x, scalar⟩ := Operator.length_scalar k.store a
    rw [scalar]
    exact laws.scalar _ x
  · refine .of_error laws rfl state (meaning.resolve_left ?_ _)
    cases n with
    | container shape items =>
        obtain ⟨entries⟩ := items
        simp_all
    | _ => simp_all [Node.IsExpression]

end Expressions

end Discipline

end EplLang
