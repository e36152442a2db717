import EplLang.Proofs.Moment

/-!
# The receiver

The receiver, which a program sees as `self`, is one place of the frame that all calls
share: a method call puts its object there and puts back what it found, also when the
method stops half-way. So nothing that is evaluated or executed changes the receiver
(`kept`), whatever calls are made on the way.

What a method sees while it is under way is said with a watch, as in
`EplLang.Proofs.Moment`, but on its own statements only: those of its body and of the
branches and loops in it, not those of the functions that it calls. A call meets a
state when a statement of the body of the called function starts in it (`CallMeets`).
From the start of the body on the receiver is the object of the call, and each
statement leaves it as it finds it, so it is that object whenever a statement starts
(`follows_bodyCalls`).
-/

set_option autoImplicit false

namespace EplLang

/-! ## Nothing changes the receiver -/

/-- Work leaves the receiver as it was. -/
def kept : Discipline where
  state _ := True
  value _ _ := True
  expr _ := True
  stmt _ := True
  stop _ := True
  moves _ m n := n.receiver = m.receiver

theorem kept_leads {g : Grain} {m n : Machine} (same : n.receiver = m.receiver) :
    kept.Leads g m n := ⟨trivial, same⟩

theorem kept_laws : kept.RegionLaws where
  refl _ _ := rfl
  trans first second := Eq.trans second first
  coarsen same := same
  widen same := same
  scalar _ _ := trivial
  named _ _ := trivial
  entry _ _ _ := trivial
  stays _ _ := trivial
  fault _ _ _ := trivial
  outOfFuel := trivial
  parts _ _ := trivial
  function _ _ := trivial
  meaning _ := .inr fun _ => trivial
  copied _ _ := ⟨kept_leads rfl, trivial⟩
  pushed _ _ _ _ := ⟨kept_leads rfl, trivial⟩
  stored _ _ _ _ _ _ := kept_leads rfl
  world _ _ _ _ _ _ := kept_leads rfl
  stmtParts _ _ := trivial
  stmtBlocks _ _ _ := trivial
  stmtMeaning _ := .inr fun _ => trivial
  bound _ _ _ _ _ := kept_leads rfl
  boundEntry _ _ _ _ _ _ := kept_leads rfl
  prompt _ _ := trivial
  closed _ leads := kept_leads leads.2
  given _ leads _ := kept_leads leads.2
  broken _ _ := kept_leads rfl
  ended _ := kept_leads rfl
  marked _ _ _ := kept_leads rfl
  body _ _ := trivial
  returned {m n k v} _ leads taken := by
    have same : k.receiver = n.receiver := by
      rcases takeReturn_cases taken with ⟨_, _, rfl⟩ | ⟨rest, _, rfl⟩ <;> rfl
    exact ⟨kept_leads (same.trans leads.2), trivial⟩
  entered _ _ := trivial
  left _ _ := kept_leads rfl
  importing _ _ := trivial
  resuming _ _ _ := kept_leads rfl

theorem kept_admits (files : Text → Option Text) : kept.Admits files :=
  fun _ _ _ _ => ⟨fun _ _ _ _ _ _ => trivial, fun _ _ _ => trivial⟩

section Kept

variable (fuel : Nat) (s : Surroundings)

theorem kept_eval : kept.EvalFollows (calls fuel s) (calls fuel s) :=
  fun _ _ _ _ => Discipline.eval_follows kept_laws (kept_admits s.files) trivial trivial

theorem kept_exec : kept.ExecFollows (calls fuel s) (calls fuel s) :=
  fun _ _ _ _ _ =>
    Discipline.exec_follows kept_laws (kept_admits s.files) trivial trivial trivial

end Kept

theorem Discipline.Follows.receiver_last {α : Type} {g : Grain} {m : Machine}
    {P : Store → α → Prop} {x y : Run α} (follows : kept.Follows g P x y m) :
    (x.last m).receiver = m.receiver :=
  (follows.last_leads kept_laws.toLaws).2

/-! ## A watch on the body of a function -/

/-- A computation that raises an alarm if it starts in a state that is not wanted. -/
noncomputable def Run.heeded {α : Type} (wanted : Machine → Prop) (alarm : Stop) (x : Run α) :
    Run α := fun m =>
  open Classical in
  if wanted m then x m else .error alarm m

theorem Run.heeded_of_wanted {α : Type} {wanted : Machine → Prop} {m : Machine} (holds : wanted m)
    (alarm : Stop) (x : Run α) : Run.heeded wanted alarm x m = x m := if_pos holds

theorem Run.heeded_of_not {α : Type} {wanted : Machine → Prop} {m : Machine} (fails : ¬wanted m)
    (alarm : Stop) (x : Run α) : Run.heeded wanted alarm x m = .error alarm m := if_neg fails

/-- The evaluator with a watch on the statements that it is given and on those of the
blocks in them. Expressions, and with them the functions that are called, and imported
programs are not watched. -/
noncomputable def bodyCalls (wanted : Machine → Prop) (alarm : Stop) :
    Nat → Surroundings → Calls
  | 0, s =>
    { eval := (calls 0 s).eval
      exec := fun st => Run.heeded wanted alarm ((calls 0 s).exec st) }
  | fuel + 1, s =>
    let inner := bodyCalls wanted alarm fuel s
    { eval := (calls (fuel + 1) s).eval
      exec := fun st => Run.heeded wanted alarm
        (if st.node.blocks.isEmpty then (calls (fuel + 1) s).exec st
        else Eval.statement s inner (calls fuel) fuel st) }

/-- A call from the state `m` meets the state `n`: a statement of the body of the
called function starts in it. -/
def CallMeets (fuel : Nat) (s : Surroundings) (callee : Node) (args : List Node)
    (m n : Machine) : Prop :=
  ∃ alarm, Eval.call (bodyCalls (· ≠ n) alarm fuel s) callee args m ≠
    Eval.call (calls fuel s) callee args m

variable {fuel : Nat} {s : Surroundings} {wanted : Machine → Prop} {alarm : Stop}

theorem bodyCalls_eval : (bodyCalls wanted alarm fuel s).eval = (calls fuel s).eval := by
  cases fuel with
  | zero => rfl
  | succ fuel => rfl

/-- The parts of a call that are expressions are not watched. -/
theorem kept_bodyCalls_eval :
    kept.EvalFollows (calls fuel s) (bodyCalls wanted alarm fuel s) := by
  intro n m expr state
  rw [bodyCalls_eval]
  exact kept_eval fuel s n m expr state

/-! ## The receiver stays while a body is run -/

/-- The receiver is the same all the time. -/
def steady (r : Option Value) : Discipline :=
  { kept with
    state := fun m => m.receiver = r
    moves := fun _ _ _ => True }

section Steady

variable {r : Option Value}

theorem steady_leads {g : Grain} {m n : Machine} (same : n.receiver = r) :
    (steady r).Leads g m n := ⟨same, trivial⟩

/-- What a block does leaves the receiver alone, if expressions do. Calls are not
among the actions here, since they put another receiver in place for a while. -/
theorem steady_laws (r : Option Value) : (steady r).BlockLaws where
  refl _ _ := trivial
  trans _ _ := trivial
  coarsen _ := trivial
  widen _ := trivial
  scalar _ _ := trivial
  named _ _ := trivial
  entry _ _ _ := trivial
  stays _ _ := trivial
  fault _ _ _ := trivial
  outOfFuel := trivial
  parts _ _ := trivial
  function _ _ := trivial
  meaning _ := .inr fun _ => trivial
  copied state _ := ⟨steady_leads state, trivial⟩
  pushed _ _ state _ := ⟨steady_leads state, trivial⟩
  stored _ _ _ state _ _ := steady_leads state
  world _ _ _ _ _ state := steady_leads state
  stmtParts _ _ := trivial
  stmtBlocks _ _ _ := trivial
  stmtMeaning _ := .inr fun _ => trivial
  bound _ _ _ state _ := steady_leads state
  boundEntry _ _ _ _ state _ := steady_leads state
  prompt _ _ := trivial
  closed _ leads := steady_leads leads.1
  given _ leads _ := steady_leads leads.1
  broken state _ := steady_leads state
  ended state := steady_leads state
  marked _ _ state := steady_leads state

/-- Work that leaves the receiver as it was keeps a steady receiver. -/
theorem Discipline.Follows.steady {α : Type} {g g' : Grain} {m : Machine} {P : Store → α → Prop}
    {x y : Run α} (follows : kept.Follows g P x y m) (state : m.receiver = r) :
    (EplLang.steady r).Follows g' (fun _ _ => True) x y m := by
  apply FollowsFrom.consequence follows
  · intro a n _ leads _
    exact ⟨steady_leads (leads.2.trans state), trivial⟩
  · intro e n leads _
    exact ⟨steady_leads (leads.2.trans state), trivial⟩

theorem steady_bodyCalls_eval :
    (steady r).EvalFollows (calls fuel s) (bodyCalls wanted alarm fuel s) :=
  fun n m _ state => (kept_bodyCalls_eval n m trivial trivial).steady state

/-- A watch that wants no more than the receiver sees nothing. -/
theorem Discipline.Follows.heeded {α : Type} {g : Grain} {m : Machine} {P : Store → α → Prop}
    {x y : Run α} (gives : ∀ k, k.receiver = r → wanted k) (alarm : Stop) (state : m.receiver = r)
    (follows : (EplLang.steady r).Follows g P x y m) :
    (EplLang.steady r).Follows g P x (Run.heeded wanted alarm y) m :=
  ⟨(Run.heeded_of_wanted (gives m state) alarm y).trans follows.1, follows.2⟩

/-- A statement with blocks in it, if the statements in the blocks keep the receiver
and are seen to. -/
theorem follows_compound
    (exec : (steady r).ExecFollows (calls fuel s) (bodyCalls wanted alarm fuel s)) {st : Stmt}
    (compound : st.node.blocks ≠ []) {m : Machine} (state : m.receiver = r) :
    (steady r).Follows st.grain (fun _ _ => True)
      (Eval.statement s (calls fuel s) (calls fuel) fuel st)
      (Eval.statement s (bodyCalls wanted alarm fuel s) (calls fuel) fuel st) m := by
  have laws := steady_laws r
  have eval : (steady r).EvalFollows (calls fuel s) (bodyCalls wanted alarm fuel s) :=
    steady_bodyCalls_eval
  have free : ∀ body : Block, ∀ st ∈ body, (steady r).stmt st := fun _ _ _ => trivial
  obtain ⟨line, node⟩ := st
  cases node with
  | branch test body elifs otherwise =>
      exact Discipline.follows_branch laws eval exec state trivial (free body)
        (fun _ _ => trivial) (fun elif _ => free elif.2) fun body _ => free body
  | loop test body =>
      exact Discipline.follows_loopRegion laws state fun depth =>
        Discipline.follows_whileRounds laws eval exec fuel state trivial (free body)
  | range n first last body =>
      exact Discipline.follows_range laws eval exec trivial state trivial trivial (free body)
  | each n collection body =>
      exact Discipline.follows_each laws eval exec trivial state trivial (free body)
  | _ => exact absurd rfl compound

/-- **The receiver is the same whenever a statement of a body starts.** The induction
is on the fuel: the statements in a block are carried out with less of it. -/
theorem follows_bodyCalls (gives : ∀ k : Machine, k.receiver = r → wanted k) (fuel : Nat) :
    (steady r).ExecFollows (calls fuel s) (bodyCalls wanted alarm fuel s) := by
  induction fuel with
  | zero =>
      intro st m _ state _
      exact ((kept_exec 0 s st m trivial trivial trivial).steady state).heeded gives alarm state
  | succ fuel ih =>
      intro st m _ state _
      apply Discipline.Follows.heeded gives alarm state
      by_cases simple : st.node.blocks.isEmpty
      · rw [if_pos simple]
        exact (kept_exec (fuel + 1) s st m trivial trivial trivial).steady state
      · rw [if_neg simple]
        exact follows_compound ih (fun none => simple (List.isEmpty_iff.mpr none)) state

end Steady

/-! ## Calls -/

section Calls

variable {r : Option Value} (gives : ∀ k : Machine, k.receiver = r → wanted k)
include gives

/-- A watch on the body of a function sees nothing, if it wants no more than the
receiver of the call. -/
theorem invoke_bodyCalls {params : List Text} {body : Block} {args : List Value}
    {receiver : Option Value} {m : Machine} (same : receiver.or m.receiver = r) :
    Eval.invoke (bodyCalls wanted alarm fuel s) params body args receiver m =
      Eval.invoke (calls fuel s) params body args receiver m := by
  have binding : kept.Follows .statement (fun _ _ => True) (Eval.bindParams [] (params.zip args))
      (Eval.bindParams [] (params.zip args)) m :=
    Discipline.follows_bindParams kept_laws.toBlockLaws trivial (fun _ _ => trivial)
      fun _ _ => trivial
  unfold Eval.invoke
  refine Run.bind_congr fun outer n reading => ?_
  cases reading
  refine Run.bind_congr fun here n reading => ?_
  cases reading
  refine Run.bind_congr fun _ k bound => ?_
  refine Run.bind_of_eq ?_
  -- binding the parameters has not touched the receiver that the call found
  have unchanged : k.receiver = m.receiver := (binding.of_ran bound).1.2
  have inside : (steady r).Follows .statement (fun _ _ => True) (Eval.block (calls fuel s) body)
      (Eval.block (bodyCalls wanted alarm fuel s) body)
      { k with receiver := receiver.or k.receiver } :=
    Discipline.follows_block (steady_laws r) (follows_bodyCalls gives fuel)
      (by rw [unchanged]; exact same) fun _ _ => trivial
  unfold Run.withReceiver
  rw [inside.1]

theorem call_bodyCalls {callee : Node} {args : List Node} {m : Machine}
    (resolved : ∀ f receiver k, Eval.resolve (calls fuel s) callee m = .ok (f, receiver) k →
      receiver.or m.receiver = r) :
    Eval.call (bodyCalls wanted alarm fuel s) callee args m =
      Eval.call (calls fuel s) callee args m := by
  have laws := kept_laws.toLaws
  have eval : kept.EvalFollows (calls fuel s) (bodyCalls wanted alarm fuel s) :=
    kept_bodyCalls_eval
  have resolving : kept.Follows .expression _ (Eval.resolve (calls fuel s) callee)
      (Eval.resolve (bodyCalls wanted alarm fuel s) callee) m :=
    Discipline.follows_resolve laws eval trivial trivial
  unfold Eval.call
  rw [Run.bind_of_eq resolving.1]
  refine Run.bind_congr fun found k ran => ?_
  obtain ⟨f, receiver⟩ := found
  have unchanged : k.receiver = m.receiver := (resolving.of_ran ran).1.2
  dsimp only
  split
  next site params body =>
    split
    next =>
      have arguments : kept.Follows .expression _ (Eval.all (calls fuel s) args)
          (Eval.all (bodyCalls wanted alarm fuel s) args) k :=
        Discipline.follows_all laws eval trivial fun _ _ => trivial
      rw [Run.bind_of_eq arguments.1]
      refine Run.bind_congr fun vs l evaluated => ?_
      apply invoke_bodyCalls gives
      rw [(arguments.of_ran evaluated).1.2, unchanged]
      exact resolved _ _ _ ran
    next => rfl
  next => rfl

end Calls

/-- The receiver in every state that a call meets is the one that its callee gives. -/
theorem CallMeets.receiver {callee : Node} {args : List Node} {m n : Machine} {r : Option Value}
    (meets : CallMeets fuel s callee args m n)
    (resolved : ∀ f receiver k, Eval.resolve (calls fuel s) callee m = .ok (f, receiver) k →
      receiver.or m.receiver = r) : n.receiver = r := by
  obtain ⟨alarm, differs⟩ := meets
  by_contra other
  have gives : ∀ k : Machine, k.receiver = r → k ≠ n := by
    rintro k same rfl
    exact other same
  exact differs (call_bodyCalls gives resolved)

/-! ## The object that a method is called on -/

/-- A path leads from a value to another: each of its keys is evaluated, and has an
entry in the container that was reached before it. -/
inductive Eval.Leads (c : Calls) : Machine → Value → List Node → Machine → Value → Prop where
  | here {m : Machine} {v : Value} : Leads c m v [] m v
  | step {m k n : Machine} {shape : Shape} {ref : Nat} {e : Node} {key : Scalar} {v w : Value}
      {path : List Node} : c.eval e m = .ok (.scalar key) k →
      (k.store.get ref).get? key = some v → Leads c k v path n w →
      Leads c m (.container shape ref) (e :: path) n w

section Methods

variable {c : Calls} {m k : Machine} {shape : Shape} {ref : Nat} {e : Node} {key : Scalar}
  {v : Value}

theorem walk_step (evaluated : c.eval e m = .ok (.scalar key) k)
    (found : (k.store.get ref).get? key = some v) (parent : Option Value) (rest : List Node) :
    Eval.walk c (.container shape ref) parent (e :: rest) m =
      Eval.walk c v (some (.container shape ref)) rest k := by
  have keyed : Eval.key c e m = .ok key k := Run.bind_of_ok evaluated
  rw [Eval.walk, Run.bind_of_ok keyed, Run.get_bind, found]

theorem Eval.Leads.walk {n : Machine} {w : Value} {path : List Node} (leads : Leads c m v path n w)
    (parent : Option Value) (rest : List Node) : ∃ parent',
      Eval.walk c v parent (path ++ rest) m = Eval.walk c w parent' rest n := by
  induction leads generalizing parent with
  | here => exact ⟨parent, rfl⟩
  | @step m k n shape ref e key v w path evaluated found _ ih =>
      obtain ⟨parent', walked⟩ := ih (some (.container shape ref))
      exact ⟨parent', (walk_step evaluated found parent (path ++ rest)).trans walked⟩

/-- A path that leads somewhere, and on, starts at a container. -/
theorem Eval.Leads.isContainer {n : Machine} {path : List Node}
    (leads : Leads c m v path n (.container shape ref)) :
    ∃ shape ref, v = .container shape ref := by
  cases leads with
  | here => exact ⟨_, _, rfl⟩
  | step => exact ⟨_, _, rfl⟩

/-- A callee that is a function in an object is called on the object. -/
theorem resolve_method {n : Text} {site : Nat} {params : List Text} {body : Block}
    {before after : Machine} {path : List Node} (named : c.eval (.name n) m = .ok v m)
    (leads : Eval.Leads c m v path before (.container .object ref))
    (evaluated : c.eval e before = .ok (.scalar key) after)
    (found : (after.store.get ref).get? key = some (.function site params body)) :
    ∃ f k, Eval.resolve c (.index (.name n) (path ++ [e])) m =
      .ok (f, some (.container .object ref)) k := by
  obtain ⟨shape', ref', rfl⟩ := leads.isContainer
  obtain ⟨parent, walked⟩ := leads.walk none [e]
  have reached : Eval.walk c (.container shape' ref') none (path ++ [e]) m =
      .ok (.function site params body, some (.container .object ref)) after := by
    rw [walked, walk_step evaluated found]
    rfl
  rw [Eval.resolve, Eval.index, Run.bind_of_ok named]
  dsimp only
  rw [Run.bind_of_ok reached]
  exact ⟨_, _, rfl⟩

end Methods

/-- A callee that is no path is called on nothing. -/
theorem receiver_of_resolve {c : Calls} {callee : Node} {m k : Machine} {f : Value}
    {receiver : Option Value} (plain : ∀ base path, callee ≠ .index base path)
    (resolved : Eval.resolve c callee m = .ok (f, receiver) k) : receiver = none := by
  unfold Eval.resolve at resolved
  split at resolved
  next base path => exact absurd rfl (plain base path)
  next =>
    obtain ⟨v, n, _, done⟩ := Run.bind_eq_ok.mp resolved
    cases done
    rfl

/-- An evaluator that gives any value at all gives names their values. -/
theorem eval_name {n : Text} {e : Node} {m before after : Machine} {v w : Value}
    (named : Run.lookup n m = .ok v m) (evaluated : (calls fuel s).eval e before = .ok w after) :
    (calls fuel s).eval (.name n) m = .ok v m := by
  cases fuel with
  | zero => cases evaluated
  | succ fuel => exact named

theorem lookup_self {m : Machine} {v : Value} (receiver : m.receiver = some v) :
    Run.lookup "self" m = .ok v m := by
  rw [Run.lookup, Run.get_bind, if_pos rfl, receiver]
  rfl

theorem receiver_of_lookup {m : Machine} {v : Value} (named : Run.lookup "self" m = .ok v m) :
    m.receiver = some v := by
  rw [Run.lookup, Run.get_bind, if_pos rfl] at named
  cases receiver : m.receiver with
  | none =>
      rw [receiver] at named
      cases named
  | some w =>
      rw [receiver] at named
      cases named
      rfl

/-! ## How a call meets a state -/

section Stopping

variable {c : Calls} {m k n : Machine} {e : Stop}

theorem Eval.block_of_error {st : Stmt} {rest : Block} (free : m.pending = false)
    (ran : c.exec st m = .error e n) : Eval.block c (st :: rest) m = .error e n := by
  rw [Eval.block, Run.get_bind, free, if_neg Bool.false_ne_true, Run.bind_of_error ran]

theorem Eval.branch_of_error {test : Node} {body : Block} {elifs : List (Node × Block)}
    {otherwise : Option Block} (holds : Eval.test c test m = .ok true k)
    (ran : Eval.block c body k = .error e n) :
    Eval.branch c test body elifs otherwise m = .error e n := by
  rw [Eval.branch, Run.bind_of_ok holds]
  show (Eval.block c body >>= fun _ => Run.close k.bindings.names) k = _
  exact Run.bind_of_error ran

theorem Eval.call_of_error {callee : Node} {site : Nat} {body : Block} {receiver : Option Value}
    (resolved : Eval.resolve c callee m = .ok (.function site [] body, receiver) k)
    (ran : Eval.block c body { k with receiver := receiver.or k.receiver } = .error e n) :
    Eval.call c callee [] m = .error e { n with receiver := k.receiver } := by
  have received : Run.withReceiver receiver (Eval.block c body) k =
      .error e { n with receiver := k.receiver } := by
    rw [Run.withReceiver, ran]
  rw [Eval.call, Run.bind_of_ok resolved]
  show (Run.withReceiver receiver (Eval.block c body) >>= fun _ => do
    let v ← Run.copy (← Eval.takeReturn k.returns.length)
    Run.close k.bindings.names
    return v) k = _
  exact Run.bind_of_error received

end Stopping

/-- A watch does not see a statement that starts on another line. -/
theorem Run.heeded_of_line {α : Type} {m n : Machine} (differ : m.line ≠ n.line) (alarm : Stop)
    (x : Run α) : Run.heeded (· ≠ n) alarm x m = x m :=
  Run.heeded_of_wanted (fun same => differ (congrArg (fun k => k.line) same)) alarm x

/-! ## The law of the receiver -/

/-- **The receiver is disciplined.** In any state, evaluating an expression or executing
a statement leaves the receiver as it was, whether it succeeds or stops. Let a name be
bound to a value from which a path leads to an object, and let the object hold a function
under one more key. Then whenever a statement of the body of that function starts, in a
call by this path, `self` is the object that the path has reached. And in a call of
anything but a path `self` is, whenever a statement of the body starts, what it was
before the call. -/
theorem receiver_discipline (fuel : Nat) (s : Surroundings) (m : Machine) :
    (∀ e, (((calls fuel s).eval e).last m).receiver = m.receiver) ∧
    (∀ st, (((calls fuel s).exec st).last m).receiver = m.receiver) ∧
    (∀ (name : Text) (path : List Node) (method : Node) (args : List Node) (v : Value)
      (before after n : Machine) (ref : Nat) (key : Scalar) (site : Nat) (params : List Text)
      (body : Block),
      Run.lookup name m = .ok v m →
      Eval.Leads (calls fuel s) m v path before (.container .object ref) →
      (calls fuel s).eval method before = .ok (.scalar key) after →
      (after.store.get ref).get? key = some (.function site params body) →
      CallMeets fuel s (.index (.name name) (path ++ [method])) args m n →
        Run.lookup "self" n = .ok (.container .object ref) n) ∧
    ∀ (callee : Node) (args : List Node) (n : Machine),
      (∀ base path, callee ≠ .index base path) → CallMeets fuel s callee args m n →
        n.receiver = m.receiver ∧ ∀ v, Run.lookup "self" m = .ok v m →
          Run.lookup "self" n = .ok v n := by
  refine ⟨fun e => ?_, fun st => ?_, ?_, ?_⟩
  · exact (kept_eval fuel s e m trivial trivial).receiver_last
  · exact (kept_exec fuel s st m trivial trivial trivial).receiver_last
  · intro name path method args v before after n ref key site params body named leads evaluated
      found meets
    obtain ⟨f, k, called⟩ := resolve_method (eval_name named evaluated) leads evaluated found
    apply lookup_self
    apply meets.receiver
    intro f' receiver k' resolved
    cases called.symm.trans resolved
    rfl
  · intro callee args n plain meets
    have same : n.receiver = m.receiver := by
      apply meets.receiver
      intro f receiver k resolved
      rw [receiver_of_resolve plain resolved]
      rfl
    exact ⟨same, fun v named => lookup_self (same.trans (receiver_of_lookup named))⟩

/-- A method of an object in an object calls a method of another object and then, in a
branch, binds a name: there `self` is the object that the path has reached. -/
theorem receiver_discipline_after_other_method :
    let inner : Block := [⟨4, .newLine⟩, ⟨4, .bind "y" (.name "self")⟩]
    let body : Block :=
      [⟨3, .newLine⟩, ⟨3, .call (.index (.name "p") [.text "m"]) []⟩,
        ⟨3, .branch (.literal (.boolean true)) inner [] none⟩]
    let m : Machine :=
      { bindings := .ofList [("o", .container .object 0), ("p", .container .object 2)]
        store := ⟨#[.ofList [(.string "q", .container .object 1)],
          .ofList [(.string "m", .function 7 [] body)],
          .ofList [(.string "m", .function 8 [] [])]]⟩ }
    let n : Machine := { m with receiver := some (.container .object 1), line := 4 }
    CallMeets 9 {} (.index (.name "o") [.text "q", .text "m"]) [] m n ∧
      Run.lookup "self" n = .ok (.container .object 1) n := by
  intro inner body m n
  have meets : CallMeets 9 {} (.index (.name "o") [.text "q", .text "m"]) [] m n := by
    obtain ⟨alarm, differs⟩ := Meets.exists_alarm
      (Eval.call (calls 9 {}) (.index (.name "o") [.text "q", .text "m"]) []) m
    let c (fuel : Nat) := bodyCalls (· ≠ n) alarm fuel {}
    let k : Machine := { n with line := 3 }
    have marked : (c 8).exec ⟨4, .newLine⟩ k = .ok () n := Run.heeded_of_line (by decide) _ _
    have nested : Eval.block (c 8) inner k = .error alarm n := by
      rw [Eval.block_of_ok rfl marked]
      exact Eval.block_of_error rfl (Run.heeded_of_not (fun other => other rfl) _ _)
    have branched : (c 9).exec ⟨3, .branch (.literal (.boolean true)) inner [] none⟩ k =
        .error alarm n :=
      (Run.heeded_of_line (by decide) _ _).trans (Eval.branch_of_error rfl nested)
    have called : (c 9).exec ⟨3, .call (.index (.name "p") [.text "m"]) []⟩ k = .ok () k :=
      Run.heeded_of_line (by decide) _ _
    have ran : Eval.block (c 9) body { n with line := 1 } = .error alarm n := by
      have started : (c 9).exec ⟨3, .newLine⟩ { n with line := 1 } = .ok () k :=
        Run.heeded_of_line (by decide) _ _
      rw [Eval.block_of_ok rfl started, Eval.block_of_ok rfl called]
      exact Eval.block_of_error rfl branched
    have stopped : Eval.call (c 9) (.index (.name "o") [.text "q", .text "m"]) [] m =
        .error alarm { n with receiver := none } := Eval.call_of_error (k := m) rfl ran
    exact ⟨alarm, fun same => differs _ (stopped.symm.trans same)⟩
  exact ⟨meets, (receiver_discipline 9 {} m).2.2.1 "o" [.text "q"] (.text "m") [] _ m m n 1
    (.string "m") 7 [] body rfl (.step rfl rfl .here) rfl rfl meets⟩

end EplLang
