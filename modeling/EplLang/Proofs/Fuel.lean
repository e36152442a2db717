import EplLang.Proofs.Moment

/-!
# More fuel

The evaluator is given fuel, since a program need not end. Fuel decides only whether there is an
outcome: a computation that is given more of it either ran out before, or does the same as before
(`Run.Below`). There is one statement for each definition that is told how the parts of a program
are carried out, and the induction is on the fuel (`calls_below`).

So a program has at most one outcome that is not an end of the fuel, and `Evaluates`, `Executes`
and `RunsTo` speak of it without fuel. What a sequence of two computations comes to is what the
second comes to where the first one ends (`reaches_bind`).
-/

set_option autoImplicit false

namespace EplLang

/-! ## Computations that go further -/

/-- From every state, a computation runs out of fuel or has the outcome of another. -/
def Run.Below {α : Type} (x y : Run α) : Prop :=
  ∀ m, (∃ n, x m = .error .outOfFuel n) ∨ y m = x m

/-- Everything is carried out further in one way than in another. -/
structure Calls.Below (c c' : Calls) : Prop where
  eval (e : Node) : (c.eval e).Below (c'.eval e)
  exec (st : Stmt) : (c.exec st).Below (c'.exec st)

namespace Run.Below

variable {α β : Type}

theorem refl (x : Run α) : x.Below x := fun _ => .inr rfl

theorem outOfFuel (y : Run α) : Run.Below (throw .outOfFuel) y := fun m => .inl ⟨m, rfl⟩

theorem bind {x y : Run α} {f h : α → Run β} (first : x.Below y)
    (next : ∀ a, (f a).Below (h a)) : (x >>= f).Below (y >>= h) := by
  intro m
  rcases first m with ⟨n, out⟩ | same
  · exact .inl ⟨n, bind_of_error out⟩
  · cases ran : x m with
    | ok a n =>
        rw [bind_of_ok ran, bind_of_ok (same.trans ran)]
        exact next a n
    | error e n =>
        rw [bind_of_error ran, bind_of_error (same.trans ran)]
        exact .inr rfl

theorem after (x : Run α) {f h : α → Run β} (next : ∀ a, (f a).Below (h a)) :
    (x >>= f).Below (x >>= h) :=
  .bind (.refl x) next

theorem ite {p : Prop} [Decidable p] {x x' y y' : Run α} (yes : x.Below x') (no : y.Below y') :
    (if p then x else y).Below (if p then x' else y') := by
  split
  · exact yes
  · exact no

theorem withReceiver (receiver : Option Value) {x y : Run α} (body : x.Below y) :
    (Run.withReceiver receiver x).Below (Run.withReceiver receiver y) := by
  intro m
  rcases body { m with receiver := receiver.or m.receiver } with ⟨n, out⟩ | same
  · refine .inl ⟨{ n with receiver := m.receiver }, ?_⟩
    simp only [Run.withReceiver, out]
  · refine .inr ?_
    simp only [Run.withReceiver, same]

theorem inNewFrame {x y : Run Unit} (body : x.Below y) :
    (Eval.inNewFrame x).Below (Eval.inNewFrame y) := by
  intro m
  rcases body m.importing with ⟨n, out⟩ | same
  · exact .inl ⟨_, inNewFrame_of_error out⟩
  · refine .inr ?_
    unfold Machine.importing at same
    simp only [Eval.inNewFrame, same]

end Run.Below

/-! ## The evaluator -/

namespace Eval

open Run (Below)

section Definitions

variable {c c' : Calls} (below : c.Below c')
include below

theorem block_below (body : Block) : (block c body).Below (block c' body) := by
  induction body with
  | nil => exact .refl _
  | cons st rest ih => exact .after _ fun m => .ite (.refl _) (.bind (below.exec st) fun _ => ih)

theorem all_below (es : List Node) : (all c es).Below (all c' es) := by
  induction es with
  | nil => exact .refl _
  | cons e rest ih => exact .bind (below.eval e) fun v => .bind ih fun _ => .refl _

theorem items_below (done : Container Value) (entries : List (Scalar × Option Node)) :
    (items c done entries).Below (items c' done entries) := by
  induction entries generalizing done with
  | nil => exact .refl _
  | cons entry rest ih =>
      obtain ⟨k, value⟩ := entry
      cases value with
      | none => exact .refl _
      | some e => exact .bind (below.eval e) fun v => ih _

theorem key_below (e : Node) : (key c e).Below (key c' e) :=
  .bind (below.eval e) fun _ => .refl _

theorem walk_below (v : Value) (parent : Option Value) (path : List Node) :
    (walk c v parent path).Below (walk c' v parent path) := by
  induction path generalizing v parent with
  | nil => exact .refl _
  | cons e rest ih =>
      unfold walk
      split
      · refine .bind (key_below below e) fun k => .after _ fun m => ?_
        split
        · exact ih _ _
        · exact .refl _
      · exact .refl _

theorem index_below (base : Node) (path : List Node) :
    (index c base path).Below (index c' base path) := by
  refine .bind (below.eval base) fun v => ?_
  split
  · exact .refl _
  · exact .bind (below.eval _) fun _ => .refl _
  · exact .refl _
  · exact .bind (walk_below below _ _ _) fun _ => .refl _

theorem invoke_below (params : List Text) (body : Block) (args : List Value)
    (receiver : Option Value) :
    (invoke c params body args receiver).Below (invoke c' params body args receiver) :=
  .after _ fun _ => .after _ fun _ => .after _ fun _ =>
    .bind (.withReceiver receiver (block_below below body)) fun _ => .refl _

theorem resolve_below (callee : Node) : (resolve c callee).Below (resolve c' callee) := by
  unfold resolve
  split
  · exact index_below below _ _
  · exact .bind (below.eval _) fun _ => .refl _

theorem call_below (callee : Node) (args : List Node) :
    (call c callee args).Below (call c' callee args) := by
  refine .bind (resolve_below below callee) fun found => ?_
  obtain ⟨f, receiver⟩ := found
  dsimp only
  split
  · refine .ite (.bind (all_below below args) fun values => ?_) (.refl _)
    exact invoke_below below _ _ values receiver
  · exact .refl _

theorem expression_below (s : Surroundings) (e : Node) :
    (expression s c e).Below (expression s c' e) := by
  cases e with
  | container shape items =>
      exact .bind (items_below below _ items.entries) fun _ => .refl _
  | index base path => exact .bind (index_below below base path) fun _ => .refl _
  | call callee args => exact call_below below callee args
  | arithmetic left op right =>
      exact .bind (below.eval left) fun _ => .bind (below.eval right) fun _ => .refl _
  | condition left op right =>
      exact .bind (below.eval left) fun _ => .bind (below.eval right) fun _ => .refl _
  | unary op operand => exact .bind (below.eval operand) fun _ => .refl _
  | length operand => exact .bind (below.eval operand) fun _ => .refl _
  | _ => exact .refl _

theorem assign_below (base : Node) (path : List Node) (value : Node) :
    (assign c base path value).Below (assign c' base path value) := by
  refine .bind (below.eval base) fun v => ?_
  split
  · exact .refl _
  · refine .bind (walk_below below _ _ _) fun found => ?_
    split
    · refine .bind (key_below below _) fun k => .ite (.refl _) ?_
      exact .bind (below.eval value) fun _ => .refl _
    · exact .refl _

theorem test_below (condition : Node) : (test c condition).Below (test c' condition) :=
  .bind (below.eval condition) fun _ => .refl _

theorem elifs_below (otherwise : Option Block) (guards : List (Node × Block)) :
    (elifs c otherwise guards).Below (elifs c' otherwise guards) := by
  induction guards with
  | nil =>
      cases otherwise with
      | none => exact .refl _
      | some body => exact block_below below body
  | cons guard rest ih =>
      obtain ⟨condition, body⟩ := guard
      exact .bind (test_below below condition) fun _ => .ite (block_below below body) ih

theorem branch_below (condition : Node) (body : Block) (more : List (Node × Block))
    (otherwise : Option Block) :
    (branch c condition body more otherwise).Below (branch c' condition body more otherwise) :=
  .bind (test_below below condition) fun _ => .after _ fun _ =>
    .ite (.bind (block_below below body) fun _ => .refl _)
      (.bind (elifs_below below otherwise more) fun _ => .refl _)

omit below in
theorem loopRegion_below {rounds rounds' : Depth → Run Unit}
    (further : ∀ d, (rounds d).Below (rounds' d)) :
    (loopRegion rounds).Below (loopRegion rounds') :=
  .after _ fun _ => .after _ fun d => .bind (further d) fun _ => .refl _

theorem whileRounds_below (condition : Node) (body : Block) (d : Depth) {bound bound' : Nat}
    (more : bound ≤ bound') :
    (whileRounds c condition body d bound).Below (whileRounds c' condition body d bound') := by
  induction bound generalizing bound' with
  | zero => exact .outOfFuel _
  | succ bound ih =>
      obtain ⟨bound', rfl⟩ := Nat.exists_eq_add_of_le' more
      refine .bind (test_below below condition) fun _ => .ite ?_ (.refl _)
      refine .bind (block_below below body) fun _ => .after _ fun _ => .ite (.refl _) ?_
      exact ih (Nat.le_add_left ..)

theorem rangeRounds_below (n : Text) (body : Block) (d : Depth) (count : Nat) (i : Int) :
    (rangeRounds c n body d count i).Below (rangeRounds c' n body d count i) := by
  induction count generalizing i with
  | zero => exact .refl _
  | succ count ih =>
      exact .after _ fun _ => .bind (block_below below body) fun _ => .after _ fun _ =>
        .ite (.refl _) (ih _)

theorem range_below (n : Text) (first last : Node) (body : Block) :
    (range c n first last body).Below (range c' n first last body) := by
  refine .bind (below.eval first) fun a => .bind (below.eval last) fun b => ?_
  split
  · refine .ite (.refl _) ?_
    split
    · exact loopRegion_below fun d => rangeRounds_below below n body d _ _
    · exact .refl _
  · exact .refl _
  · exact .refl _

theorem eachRounds_below (n : Text) (ref : Nat) (body : Block) (d : Depth) (keys : List Scalar) :
    (eachRounds c n ref body d keys).Below (eachRounds c' n ref body d keys) := by
  induction keys with
  | nil => exact .refl _
  | cons k rest ih =>
      exact .after _ fun _ => .after _ fun _ => .after _ fun _ => .after _ fun _ =>
        .bind (block_below below body) fun _ => .after _ fun _ => .ite (.refl _) ih

theorem each_below (n : Text) (collection : Node) (body : Block) :
    (each c n collection body).Below (each c' n collection body) := by
  refine .bind (below.eval collection) fun v => ?_
  split
  · exact .after _ fun _ => loopRegion_below fun d => eachRounds_below below n _ body d _
  · exact .refl _

section Statements

variable {inside inside' : Surroundings → Calls} (nested : ∀ s, (inside s).Below (inside' s))
include nested

theorem importFile_below (s : Surroundings) (path : Node) :
    (importFile s c inside path).Below (importFile s c' inside' path) := by
  refine .bind (below.eval path) fun v => ?_
  split
  · dsimp only
    split
    · exact .refl _
    · split
      · exact .refl _
      · refine .after _ fun body => .bind (.inNewFrame ?_) fun _ => .refl _
        exact block_below (nested _) body
  · exact .refl _

theorem statement_below (s : Surroundings) {bound bound' : Nat} (more : bound ≤ bound')
    (st : Stmt) :
    (statement s c inside bound st).Below (statement s c' inside' bound' st) := by
  obtain ⟨line, node⟩ := st
  cases node with
  | bind n value => exact .bind (below.eval value) fun _ => .refl _
  | assign base path value => exact assign_below below base path value
  | give value => exact .bind (below.eval value) fun _ => .refl _
  | load path => exact importFile_below below nested s path
  | call callee args => exact .bind (call_below below callee args) fun _ => .refl _
  | branch condition body elifs otherwise =>
      exact branch_below below condition body elifs otherwise
  | loop condition body =>
      exact loopRegion_below fun d => whileRounds_below below condition body d more
  | range n first last body => exact range_below below n first last body
  | each n collection body => exact each_below below n collection body
  | _ => exact .refl _

end Statements

end Definitions

end Eval

/-- **More fuel does no harm**: it changes no outcome but the end of the fuel. -/
theorem calls_below {fuel fuel' : Nat} (more : fuel ≤ fuel') (s : Surroundings) :
    (calls fuel s).Below (calls fuel' s) := by
  induction fuel generalizing fuel' s with
  | zero => exact ⟨fun _ => .outOfFuel _, fun _ => .outOfFuel _⟩
  | succ fuel ih =>
      obtain ⟨fuel', rfl⟩ := Nat.exists_eq_add_of_le' more
      have inner (s : Surroundings) : (calls fuel s).Below (calls (fuel' + fuel) s) :=
        ih (Nat.le_add_left ..) s
      exact ⟨fun e => Eval.expression_below (inner s) s e,
        fun st => Eval.statement_below (inner s) inner s (Nat.le_add_left ..) st⟩

/-! ## Outcomes -/

/-- A computation for each amount of fuel that goes further with more. -/
structure Clocked (α : Type) where
  run : Nat → Run α
  rising {fuel fuel' : Nat} : fuel ≤ fuel' → (run fuel).Below (run fuel')

namespace Clocked

variable {α β γ : Type}

/-- A computation that needs no fuel. -/
def lift (x : Run α) : Clocked α := ⟨fun _ => x, fun _ => .refl x⟩

/-- One computation after another. -/
def bind (x : Clocked α) (f : α → Clocked β) : Clocked β where
  run fuel := x.run fuel >>= fun a => (f a).run fuel
  rising more := .bind (x.rising more) fun a => (f a).rising more

/-- With enough fuel a computation has an outcome, which is not the end of the fuel. -/
def Reaches (x : Clocked α) (m : Machine) (r : EStateM.Result Stop Machine α) : Prop :=
  (∀ n, r ≠ .error .outOfFuel n) ∧ ∃ fuel, x.run fuel m = r

/-- From a state, two computations have the same outcomes: both complete with the same result and
the same state, both stop in the same way and the same state, or neither ends. -/
def Same (x y : Clocked α) (m : Machine) : Prop := ∀ r, x.Reaches m r ↔ y.Reaches m r

theorem Reaches.later {x : Clocked α} {m : Machine} {r : EStateM.Result Stop Machine α}
    (reaches : x.Reaches m r) : ∃ fuel, ∀ fuel', fuel ≤ fuel' → x.run fuel' m = r := by
  obtain ⟨settled, fuel, ran⟩ := reaches
  refine ⟨fuel, fun fuel' more => ?_⟩
  rcases x.rising more m with ⟨n, out⟩ | same
  · exact absurd (ran.symm.trans out) (settled n)
  · exact same.trans ran

theorem Reaches.unique {x : Clocked α} {m : Machine} {r r' : EStateM.Result Stop Machine α}
    (first : x.Reaches m r) (second : x.Reaches m r') : r = r' := by
  obtain ⟨fuel, always⟩ := first.later
  obtain ⟨fuel', always'⟩ := second.later
  exact (always _ (Nat.le_max_left fuel fuel')).symm.trans (always' _ (Nat.le_max_right fuel fuel'))

theorem reaches_lift {x : Run α} {m : Machine} {r : EStateM.Result Stop Machine α} :
    (lift x).Reaches m r ↔ x m = r ∧ ∀ n, r ≠ .error .outOfFuel n :=
  ⟨fun ⟨settled, _, ran⟩ => ⟨ran, settled⟩, fun ⟨ran, settled⟩ => ⟨settled, 0, ran⟩⟩

/-- A sequence stops where its first part stops, or comes to what its second part comes to where
the first one ends. -/
theorem reaches_bind {x : Clocked α} {f : α → Clocked β} {m : Machine}
    {r : EStateM.Result Stop Machine β} :
    (x.bind f).Reaches m r ↔
      (∃ e n, x.Reaches m (.error e n) ∧ r = .error e n) ∨
      ∃ a n, x.Reaches m (.ok a n) ∧ (f a).Reaches n r := by
  constructor
  · rintro ⟨settled, fuel, ran⟩
    cases first : x.run fuel m with
    | error e n =>
        obtain rfl := (Run.bind_of_error first).symm.trans ran
        refine .inl ⟨e, n, ⟨fun k same => settled k ?_, fuel, first⟩, rfl⟩
        cases same
        rfl
    | ok a n =>
        have next : (f a).run fuel n = r := (Run.bind_of_ok first).symm.trans ran
        exact .inr ⟨a, n, ⟨nofun, fuel, first⟩, settled, fuel, next⟩
  · rintro (⟨e, n, ⟨settled, fuel, first⟩, rfl⟩ | ⟨a, n, first, second⟩)
    · refine ⟨fun k same => settled k ?_, fuel, Run.bind_of_error first⟩
      cases same
      rfl
    · obtain ⟨fuel, always⟩ := first.later
      obtain ⟨fuel', always'⟩ := second.later
      refine ⟨second.1, max fuel fuel', ?_⟩
      exact (Run.bind_of_ok (always _ (Nat.le_max_left ..))).trans (always' _ (Nat.le_max_right ..))

namespace Same

variable {x y z : Clocked α} {m : Machine}

theorem refl (x : Clocked α) (m : Machine) : Same x x m := fun _ => .rfl

theorem symm (same : Same x y m) : Same y x m := fun r => (same r).symm

theorem trans (first : Same x y m) (second : Same y z m) : Same x z m :=
  fun r => (first r).trans (second r)

theorem of_eq (same : ∀ fuel, x.run fuel m = y.run fuel m) : Same x y m := by
  intro r
  simp only [Reaches, same]

/-- Computations each of which goes as far as the other, if it is given more fuel. -/
theorem of_below (there : ∀ fuel, ∃ fuel', (x.run fuel).Below (y.run fuel'))
    (back : ∀ fuel, ∃ fuel', (y.run fuel).Below (x.run fuel')) : Same x y m := by
  have one {x y : Clocked α} (there : ∀ fuel, ∃ fuel', (x.run fuel).Below (y.run fuel'))
      {r : EStateM.Result Stop Machine α} (reaches : x.Reaches m r) : y.Reaches m r := by
    obtain ⟨settled, fuel, ran⟩ := reaches
    obtain ⟨fuel', below⟩ := there fuel
    rcases below m with ⟨n, out⟩ | same
    · exact absurd (ran.symm.trans out) (settled n)
    · exact ⟨settled, fuel', same.trans ran⟩
  exact fun r => ⟨one there, one back⟩

theorem bind {f h : α → Clocked β} (first : Same x y m)
    (next : ∀ a n, x.Reaches m (.ok a n) → Same (f a) (h a) n) :
    Same (x.bind f) (y.bind h) m := by
  intro r
  rw [reaches_bind, reaches_bind]
  simp only [← first _]
  refine or_congr_right (exists_congr fun a => exists_congr fun n => and_congr_right fun ran => ?_)
  exact next a n ran r

theorem assoc (x : Clocked α) (f : α → Clocked β) (h : β → Clocked γ) (m : Machine) :
    Same ((x.bind f).bind h) (x.bind fun a => (f a).bind h) m :=
  .of_eq fun fuel => congrFun (bind_assoc (x.run fuel) _ _) m

/-- A computation without fuel is over at once. -/
theorem lifted {x : Run α} {f : α → Clocked β} {a : α} {n : Machine} (ran : x m = .ok a n)
    (r : EStateM.Result Stop Machine β) :
    ((lift x).bind f).Reaches m r ↔ (f a).Reaches n r := by
  unfold Reaches
  have step (fuel : Nat) : ((lift x).bind f).run fuel m = (f a).run fuel n := Run.bind_of_ok ran
  simp only [step]

end Same

end Clocked

/-! ## Programs without fuel -/

section Programs

variable (s : Surroundings)

namespace Clocked

/-- The evaluation of an expression. -/
def eval (e : Node) : Clocked Value :=
  ⟨fun fuel => (calls fuel s).eval e, fun more => (calls_below more s).eval e⟩

/-- The execution of a statement. -/
def exec (st : Stmt) : Clocked Unit :=
  ⟨fun fuel => (calls fuel s).exec st, fun more => (calls_below more s).exec st⟩

/-- The run of a block. -/
def block (body : Block) : Clocked Unit :=
  ⟨fun fuel => body.run fuel s, fun more => Eval.block_below (calls_below more s) body⟩

/-- The execution of a statement by its rule. -/
def rule (st : Stmt) : Clocked Unit :=
  ⟨fun fuel => Eval.statement s (calls fuel s) (calls fuel) fuel st,
    fun more => Eval.statement_below (calls_below more s) (calls_below more) s more st⟩

theorem exec_same_rule (st : Stmt) (m : Machine) : Same (exec s st) (rule s st) m := by
  refine .of_below (fun fuel => ?_) fun fuel => ⟨fuel + 1, .refl _⟩
  cases fuel with
  | zero => exact ⟨0, .outOfFuel _⟩
  | succ fuel => exact ⟨fuel, .refl _⟩

end Clocked

/-- Evaluating an expression comes to an outcome. -/
def Evaluates (e : Node) : Machine → EStateM.Result Stop Machine Value → Prop :=
  (Clocked.eval s e).Reaches

/-- Executing a statement comes to an outcome. -/
def Executes (st : Stmt) : Machine → EStateM.Result Stop Machine Unit → Prop :=
  (Clocked.exec s st).Reaches

/-- Running a block comes to an outcome. -/
def RunsTo (body : Block) : Machine → EStateM.Result Stop Machine Unit → Prop :=
  (Clocked.block s body).Reaches

end Programs

end EplLang
