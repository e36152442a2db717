import EplLang.Proofs.Store
import EplLang.Proofs.Syntax

/-!
# Disciplines

A discipline is something that evaluation keeps to at every step: a property of
states, of values in a store and of the nodes that may be carried out, together
with a relation between the state at which a piece of work starts and the state at
which it ends. Work has three grains, each coarser than the one before: a completed
expression or call; a completed statement that binds nothing, which may leave a signal;
and everything else, such as binding a name, importing a file and stopping half-way.

`Laws` lists what the single actions of the evaluator have to respect in expressions,
`BlockLaws` adds those of statements and `RegionLaws` those of calls and imports. The
modules below this one prove that a discipline with these laws is kept by every
expression and every statement. An invariant of the evaluator is then a matter of
its actions only.

The judgement `Follows` is about two computations at once: they give the same
outcome, and the outcome keeps to the discipline. Where both are the same
computation this is a plain invariant. Where one of them is watched (see
`EplLang.Proofs.Moment`) it says that the watch never sees anything.
-/

set_option autoImplicit false

namespace EplLang

namespace Run

variable {α β : Type} {x : Run α} {f : α → Run β} {m n : Machine}

theorem bind_of_ok {a : α} (ran : x m = .ok a n) : (x >>= f) m = f a n := by
  simp only [Bind.bind, EStateM.bind, ran]

theorem bind_of_error {e : Stop} (ran : x m = .error e n) : (x >>= f) m = .error e n := by
  simp only [Bind.bind, EStateM.bind, ran]

theorem bind_of_eq {y : Run α} (same : x m = y m) : (x >>= f) m = (y >>= f) m := by
  simp only [Bind.bind, EStateM.bind, same]

theorem bind_congr {h : α → Run β} (next : ∀ a n, x m = .ok a n → f a n = h a n) :
    (x >>= f) m = (x >>= h) m := by
  cases ran : x m with
  | ok a n => rw [bind_of_ok ran, bind_of_ok ran, next a n ran]
  | error e n => rw [bind_of_error ran, bind_of_error ran]

theorem get_bind {f : Machine → Run α} : (get >>= f) m = f m m := rfl

end Run

/-! ## Single actions -/

theorem takeReturn_none {depth : Nat} {m : Machine} (none : m.returns.length ≤ depth) :
    Eval.takeReturn depth m = .ok .null m := by
  rw [Eval.takeReturn, Run.get_bind]
  cases pending : m.returns with
  | nil => rfl
  | cons v rest =>
      rw [pending] at none
      dsimp only
      rw [if_neg (Nat.not_lt_of_le none)]
      rfl

theorem takeReturn_some {depth : Nat} {m : Machine} {v : Value} {rest : List Value}
    (pending : m.returns = v :: rest) (more : depth < m.returns.length) :
    Eval.takeReturn depth m = .ok v { m with returns := rest } := by
  rw [pending] at more
  rw [Eval.takeReturn, Run.get_bind, pending]
  dsimp only
  rw [if_pos more]
  rfl

/-- What a call takes is on its way or null, and nothing else changes. -/
theorem takeReturn_cases {depth : Nat} {m n : Machine} {v : Value}
    (taken : Eval.takeReturn depth m = .ok v n) :
    m.returns.length ≤ depth ∧ v = .null ∧ n = m ∨
      ∃ rest, m.returns = v :: rest ∧ n = { m with returns := rest } := by
  by_cases none : m.returns.length ≤ depth
  · rw [takeReturn_none none] at taken
    cases taken
    exact .inl ⟨none, rfl, rfl⟩
  · cases pending : m.returns with
    | nil => simp [pending] at none
    | cons w rest =>
        rw [takeReturn_some pending (by omega)] at taken
        cases taken
        exact .inr ⟨rest, rfl, rfl⟩

theorem takeReturn_ok (depth : Nat) (m : Machine) :
    ∃ v n, Eval.takeReturn depth m = .ok v n := by
  by_cases none : m.returns.length ≤ depth
  · exact ⟨_, _, takeReturn_none none⟩
  · cases pending : m.returns with
    | nil => simp [pending] at none
    | cons v rest => exact ⟨_, _, takeReturn_some pending (by omega)⟩

/-- A loop takes a break that is pending, and nothing else changes. -/
theorem roundEnds_cases {depth : Eval.Depth} {m n : Machine} {ends : Bool}
    (ran : Eval.roundEnds depth m = .ok ends n) :
    n = m ∨ 0 < m.breaks ∧ n = { m with breaks := m.breaks - 1 } := by
  rw [Eval.roundEnds, Run.get_bind] at ran
  split at ran
  next above =>
    cases ran
    exact .inr ⟨Nat.zero_lt_of_lt above, rfl⟩
  next =>
    cases ran
    exact .inl rfl

/-- A text that is a program is loaded by taking numbers for its function literals. -/
theorem load_of_parsed {m : Machine} {source : Text} {body : Block} {site : Nat}
    (parsed : parseSource m.site source = .ok (body, site)) :
    Eval.load source m = .ok body { m with site } := by
  rw [Eval.load, Run.get_bind, parsed]
  rfl

/-- A block goes on after a statement if no signal was pending before it. -/
theorem Eval.block_of_ok {c : Calls} {st : Stmt} {rest : Block} {m n : Machine}
    (free : m.pending = false) (ran : c.exec st m = .ok () n) :
    Eval.block c (st :: rest) m = Eval.block c rest n := by
  rw [Eval.block, Run.get_bind, free, if_neg Bool.false_ne_true, Run.bind_of_ok ran]

/-! ## Disciplines -/

/-- How much a piece of work may do. -/
inductive Grain where
  | expression
  | region
  | statement

/-- The values that a program can name: those bound to names, and the receiver. -/
inductive Frame.Names (f : Frame) : Value → Prop where
  | bound {n : Text} {v : Value} : (n, v) ∈ f.bindings → Names f v
  | receiver {v : Value} : f.receiver = some v → Names f v

/-- The values in a frame: those that can be named, and those on their way out of
calls. -/
inductive Frame.Holds (f : Frame) : Value → Prop where
  | bound {n : Text} {v : Value} : (n, v) ∈ f.bindings → Holds f v
  | receiver {v : Value} : f.receiver = some v → Holds f v
  | returned {v : Value} : v ∈ f.returns → Holds f v

theorem Frame.Names.holds {f : Frame} {v : Value} (named : f.Names v) : f.Holds v := by
  cases named with
  | bound member => exact .bound member
  | receiver same => exact .receiver same

namespace Machine

/-- The values a machine has in its hands: bound to names, as the receiver, on
their way out of calls, and inside containers. -/
inductive Holds (m : Machine) : Value → Prop where
  | bound {n : Text} {v : Value} : (n, v) ∈ m.bindings → Holds m v
  | receiver {v : Value} : m.receiver = some v → Holds m v
  | returned {v : Value} : v ∈ m.returns → Holds m v
  | entry {ref : Nat} {k : Scalar} {v : Value} :
      (k, some v) ∈ (m.store.get ref).entries → Holds m v

/-- The state after copying a value. -/
def copied (m : Machine) (v : Value) : Machine := { m with store := (m.store.copy v).2 }

/-- The state after making a container. -/
def pushed (m : Machine) (shape : Shape) (c : Container Value) : Machine :=
  { m with store := (m.store.push shape c).2 }

/-- The state after binding a name to a copy of a value. -/
def boundTo (m : Machine) (n : Text) (v : Value) : Machine :=
  { m.copied v with bindings := m.bindings.set n (m.store.copy v).1 }

/-- The state after binding a name to the description of an entry. -/
def boundToEntry (m : Machine) (n : Text) (k : Scalar) (v : Value) : Machine :=
  let made := (m.copied v).store.push .object (Eval.entryObject k (m.store.copy v).1)
  { m with store := made.2, bindings := m.bindings.set n made.1 }

/-- The state after setting an entry of a container to a copy of a value. -/
def storedAt (m : Machine) (ref : Nat) (k : Scalar) (v : Value) : Machine :=
  let store := (m.copied v).store
  { m with store := store.put ref ((store.get ref).set k (m.store.copy v).1) }

/-- The state after closing a region that started with the given names. -/
def closedTo (m : Machine) (outer : List Text) : Machine :=
  { m with bindings := m.bindings.close outer }

/-- The state in which an imported program starts. -/
def importing (m : Machine) : Machine :=
  { toFrame := Eval.newFrame m.site
    toWorld := { m.toWorld with site := m.site + Native.all.length } }

/-- The state after an imported program: the frame of the importer and the world
that the program left. -/
def resuming (m after : Machine) : Machine := { toFrame := m.toFrame, toWorld := after.toWorld }

end Machine

section NewFrame

variable {x : Run Unit} {m n : Machine}

theorem inNewFrame_of_ok (ran : x m.importing = .ok () n) :
    Eval.inNewFrame x m = .ok n.bindings (m.resuming n) := by
  unfold Machine.importing at ran
  simp only [Eval.inNewFrame, ran]
  rfl

theorem inNewFrame_of_error {e : Stop} (ran : x m.importing = .error e n) :
    Eval.inNewFrame x m = .error e (m.resuming n) := by
  unfold Machine.importing at ran
  simp only [Eval.inNewFrame, ran]
  rfl

end NewFrame

/-- Causes that a program can have at run time: none of them concerns the form of
its text or of its tree. Joining by `and` and `or` fails on values that are not
truth values. -/
def Cause.Proper : Cause → Prop
  | .unexpectedCharacter _ | .illegalToken .. | .notStatement _ | .notExpression _
  | .unknownOperator _ | .unknownUnary _ => False
  | .conditionOperator op => op = .and ∨ op = .or
  | _ => True

/-- Something that evaluation keeps to. -/
structure Discipline where
  /-- What holds of the state before and after every piece of work. -/
  state : Machine → Prop
  /-- What holds of every value, given the contents of the containers. -/
  value : Store → Value → Prop
  /-- The nodes that may be evaluated. -/
  expr : Node → Prop
  /-- The statements that may be executed. -/
  stmt : Stmt → Prop
  /-- The ways in which work may stop. -/
  stop : Stop → Prop
  /-- What a piece of work does to the state. -/
  moves : Grain → Machine → Machine → Prop
  /-- The states in which a statement may be executed. -/
  ready : Machine → Prop := fun _ => True
  /-- The names that may be bound. -/
  name : Text → Prop := fun _ => True

namespace Discipline

variable (d : Discipline)

/-- A piece of work may lead from one state to another. -/
def Leads (g : Grain) (m n : Machine) : Prop := d.state n ∧ d.moves g m n

/-- Two computations give the same outcome from a state, and the outcome keeps to
the discipline in work that started at a base. -/
def FollowsFrom {α : Type} (base : Machine) (g : Grain) (post : Store → α → Prop)
    (x y : Run α) (m : Machine) : Prop :=
  y m = x m ∧
    match x m with
    | .ok a n => d.Leads g base n ∧ post n.store a
    | .error e n => d.Leads .statement base n ∧ d.stop e

/-- Two computations give the same outcome from a state, and the outcome keeps to
the discipline. -/
def Follows {α : Type} (g : Grain) (post : Store → α → Prop) (x y : Run α) (m : Machine) :
    Prop :=
  d.FollowsFrom m g post x y m

/-- Calls may be evaluated. -/
def Invokes : Prop := ∃ callee args, d.expr (.call callee args)

/-- Built-in operations may be carried out, for their value or for their effect. -/
def Performs : Prop :=
  (∃ operation, d.expr (.native operation)) ∨ ∃ line operation, d.stmt ⟨line, .native operation⟩

/-- Statements that assign into containers may be executed. -/
def Assigns : Prop := ∃ line base path value, d.stmt ⟨line, .assign base path value⟩

/-- Statements that import files may be executed. -/
def Imports : Prop := ∃ line path, d.stmt ⟨line, .load path⟩

/-- The laws of the actions that leave names and signals alone: those of expressions
and of assignment into a container. -/
structure Laws : Prop where
  refl (g : Grain) (m : Machine) : d.moves g m m
  trans {g : Grain} {m n k : Machine} : d.moves g m n → d.moves g n k → d.moves g m k
  coarsen {m n : Machine} : d.moves .expression m n → d.moves .region m n
  widen {m n : Machine} : d.moves .region m n → d.moves .statement m n
  scalar (s : Store) (x : Scalar) : d.value s (.scalar x)
  named {m : Machine} {v : Value} : d.state m → m.toFrame.Names v → d.value m.store v
  entry {m : Machine} {shape : Shape} {ref : Nat} {k : Scalar} {v : Value} :
    d.state m → d.value m.store (.container shape ref) →
      (k, some v) ∈ (m.store.get ref).entries → d.value m.store v
  /-- A value stays one whatever happens. -/
  stays {m n : Machine} {v : Value} :
    d.moves .statement m n → d.value m.store v → d.value n.store v
  fault (line : Int) {cause : Cause} : cause.Proper → d.stop (.fault ⟨line, cause⟩)
  outOfFuel : d.stop .outOfFuel
  parts {n e : Node} : d.expr n → e ∈ n.exprs → d.expr e
  function {site : Nat} {params : List Text} {body : Block} (s : Store) :
    d.expr (.function site params body) → d.value s (.function site params body)
  meaning {n : Node} : d.expr n → n.IsExpression ∨ ∀ e, d.stop e
  copied {m : Machine} {v : Value} : d.state m → d.value m.store v →
    d.Leads .expression m (m.copied v) ∧ d.value (m.copied v).store (m.store.copy v).1
  pushed {m : Machine} (shape : Shape) {c : Container Value} :
    d.state m → (∀ v ∈ c.values, d.value m.store v) →
      d.Leads .expression m (m.pushed shape c) ∧
      d.value (m.pushed shape c).store (m.store.push shape c).1
  stored {m : Machine} {shape : Shape} {ref : Nat} (k : Scalar) {v : Value} :
    d.Assigns → d.state m → d.value m.store (.container shape ref) → d.value m.store v →
      d.Leads .expression m (m.storedAt ref k v)
  /-- Nothing depends on what is printed, read, slept and drawn. -/
  world {m : Machine} (printed : List Text) (input : Text) (slept : List Int) (drawn : Nat) :
    d.Performs → d.state m → d.Leads .expression m
      { m with printed := printed, input := input, slept := slept, drawn := drawn }

/-- The laws of the actions of blocks, branches and loops, which bind names and leave
and take signals. -/
structure BlockLaws : Prop extends d.Laws where
  stmtParts {st : Stmt} {e : Node} : d.stmt st → e ∈ st.node.exprs → d.expr e
  stmtBlocks {st inner : Stmt} {body : Block} :
    d.stmt st → body ∈ st.node.blocks → inner ∈ body → d.stmt inner
  stmtMeaning {st : Stmt} : d.stmt st → st.node.IsStatement ∨ ∀ e, d.stop e
  stmtName {st : Stmt} {n : Text} : d.stmt st → n ∈ st.node.binds → d.name n := by
    intros; trivial
  bound {m : Machine} (n : Text) {v : Value} :
    d.name n → d.state m → d.value m.store v → d.Leads .statement m (m.boundTo n v)
  boundEntry {m : Machine} (n : Text) (k : Scalar) {v : Value} :
    d.name n → d.state m → d.value m.store v → d.Leads .statement m (m.boundToEntry n k v)
  /-- Blocks execute a statement only while no signal is pending. -/
  prompt {m : Machine} : d.state m → m.pending = false → d.ready m
  closed {m n : Machine} :
    d.state m → d.Leads .statement m n → d.Leads .region m (n.closedTo m.bindings.names)
  given {m n : Machine} {v : Value} : d.ready m → d.Leads .expression m n → d.value n.store v →
    d.Leads .region m { n with returns := v :: n.returns }
  broken {m : Machine} :
    d.state m → d.ready m → d.Leads .region m { m with breaks := m.breaks + 1 }
  /-- A loop takes a break. -/
  ended {m : Machine} : d.state m → d.Leads .region m { m with breaks := m.breaks - 1 }
  /-- Nothing depends on the line and the supply of numbers. -/
  marked {m : Machine} (line : Int) (site : Nat) :
    d.state m → d.Leads .expression m { m with line := line, site := site }

/-- The laws of all actions. -/
structure RegionLaws : Prop extends d.BlockLaws where
  body {s : Store} {site : Nat} {params : List Text} {body : Block} {st : Stmt} :
    d.value s (.function site params body) → st ∈ body → d.stmt st
  param {s : Store} {site : Nat} {params : List Text} {body : Block} {n : Text} :
    d.value s (.function site params body) → n ∈ params → d.name n := by
    intros; trivial
  /-- A call takes the value that is returned to it. -/
  returned {m n k : Machine} {v : Value} : d.state m → d.Leads .statement m n →
    Eval.takeReturn m.returns.length n = .ok v k →
      d.Leads .expression m ((k.copied v).closedTo m.bindings.names) ∧
      d.value (k.copied v).store (k.store.copy v).1
  entered {m : Machine} {receiver : Option Value} :
    d.state m → (∀ v ∈ receiver, d.value m.store v) →
      d.state { m with receiver := receiver.or m.receiver }
  left {m n : Machine} {receiver : Option Value} :
    d.state m → d.Leads .statement { m with receiver := receiver } n →
      d.Leads .statement m { n with receiver := m.receiver }
  /-- An import brings the names that the imported program has bound and the importer has not. -/
  imported {m n k : Machine} {name : Text} : d.Imports → d.Leads .statement m.importing n →
    name ∈ n.bindings.names → d.state k → name ∉ k.bindings.names → d.name name := by
    intros; trivial
  importing {m : Machine} : d.Imports → d.state m → d.state m.importing
  resuming {m n : Machine} :
    d.Imports → d.state m → d.Leads .statement m.importing n → d.Leads .expression m (m.resuming n)

/-- The files that may be imported hold programs that may be run, or stop in a way
that is allowed. -/
def Admits (files : Text → Option Text) : Prop :=
  d.Imports → ∀ path source, files path = some source →
    (∀ site body next st, parseSource site source = .ok (body, next) → st ∈ body → d.stmt st) ∧
    ∀ site e, parseSource site source = .error e → d.stop e

variable {d}

/-! ## Rules of the judgement -/

section Rules

variable {α β : Type} {g : Grain} {m : Machine}

theorem Leads.coarsen (laws : d.Laws) {n : Machine} (leads : d.Leads .expression m n) :
    d.Leads g m n := by
  cases g with
  | expression => exact leads
  | region => exact ⟨leads.1, laws.coarsen leads.2⟩
  | statement => exact ⟨leads.1, laws.widen (laws.coarsen leads.2)⟩

theorem Leads.toStatement (laws : d.Laws) {n : Machine} (leads : d.Leads g m n) :
    d.Leads .statement m n := by
  cases g with
  | expression => exact leads.coarsen laws
  | region => exact ⟨leads.1, laws.widen leads.2⟩
  | statement => exact leads

theorem Leads.trans (laws : d.Laws) {n k : Machine} (first : d.Leads g m n)
    (second : d.Leads g n k) : d.Leads g m k :=
  ⟨second.1, laws.trans first.2 second.2⟩

theorem Leads.value (laws : d.Laws) {n : Machine} (leads : d.Leads g m n) {v : Value}
    (value : d.value m.store v) : d.value n.store v :=
  laws.stays (leads.toStatement laws).2 value

theorem Leads.refl (laws : d.Laws) (state : d.state m) : d.Leads g m m :=
  ⟨state, laws.refl g m⟩

/-- What follows one discipline follows another one that asks no more of the outcome. -/
theorem FollowsFrom.consequence {d' : Discipline} {base base' : Machine} {g' : Grain}
    {P Q : Store → α → Prop} {x y : Run α} (follows : d.FollowsFrom base g P x y m)
    (ended : ∀ a n, x m = .ok a n → d.Leads g base n → P n.store a →
      d'.Leads g' base' n ∧ Q n.store a)
    (stopped : ∀ e n, d.Leads .statement base n → d.stop e →
      d'.Leads .statement base' n ∧ d'.stop e) :
    d'.FollowsFrom base' g' Q x y m := by
  obtain ⟨same, outcome⟩ := follows
  refine ⟨same, ?_⟩
  cases ran : x m with
  | ok a n =>
      rw [ran] at outcome
      exact ended a n ran outcome.1 outcome.2
  | error e n =>
      rw [ran] at outcome
      exact stopped e n outcome.1 outcome.2

namespace Follows

theorem congr {P : Store → α → Prop} {x x' y y' : Run α} (first : x m = x' m)
    (second : y m = y' m) (follows : d.Follows g P x' y' m) : d.Follows g P x y m := by
  unfold Follows FollowsFrom at *
  rwa [first, second]

/-- A computation that ends in a given outcome. -/
theorem of_ok {P : Store → α → Prop} {x : Run α} {a : α} {n : Machine} (outcome : x m = .ok a n)
    (leads : d.Leads g m n) (holds : P n.store a) : d.Follows g P x x m := by
  refine ⟨rfl, ?_⟩
  rw [outcome]
  exact ⟨leads, holds⟩

theorem of_error (laws : d.Laws) {P : Store → α → Prop} {x : Run α} {e : Stop}
    (outcome : x m = .error e m) (state : d.state m) (stops : d.stop e) :
    d.Follows g P x x m := by
  refine ⟨rfl, ?_⟩
  rw [outcome]
  exact ⟨.refl laws state, stops⟩

theorem pure (laws : d.Laws) {P : Store → α → Prop} {a : α} (state : d.state m)
    (holds : P m.store a) :
    d.Follows g P (pure a) (pure a) m :=
  .of_ok rfl (.refl laws state) holds

theorem throw (laws : d.Laws) {P : Store → α → Prop} {e : Stop} (state : d.state m)
    (stops : d.stop e) : d.Follows g P (throw e : Run α) (throw e) m :=
  .of_error laws rfl state stops

theorem fail (laws : d.Laws) {P : Store → α → Prop} {cause : Cause} (state : d.state m)
    (proper : cause.Proper) : d.Follows g P (Run.fail cause : Run α) (Run.fail cause) m :=
  .of_error laws rfl state (laws.fault m.line proper)

theorem coarsen (laws : d.Laws) {P : Store → α → Prop} {x y : Run α}
    (follows : d.Follows .expression P x y m) : d.Follows g P x y m := by
  apply FollowsFrom.consequence follows
  · intro a n _ leads holds
    exact ⟨leads.coarsen laws, holds⟩
  · intro e n leads stops
    exact ⟨leads, stops⟩

theorem toStatement (laws : d.Laws) {P : Store → α → Prop} {x y : Run α}
    (follows : d.Follows g P x y m) : d.Follows .statement P x y m := by
  apply FollowsFrom.consequence follows
  · intro a n _ leads holds
    exact ⟨leads.toStatement laws, holds⟩
  · intro e n leads stops
    exact ⟨leads, stops⟩

/-- A computation after work of the same grain. -/
theorem after (laws : d.Laws) {base : Machine} {P : Store → α → Prop} {x y : Run α}
    (leads : d.Leads g base m) (follows : d.Follows g P x y m) :
    d.FollowsFrom base g P x y m := by
  apply FollowsFrom.consequence follows
  · intro a n _ onward holds
    exact ⟨leads.trans laws onward, holds⟩
  · intro e n onward stops
    exact ⟨(leads.toStatement laws).trans laws onward, stops⟩

/-- What follows a computation may be of another grain, seen from a base. -/
theorem bindFrom {base : Machine} {g' : Grain} {P : Store → α → Prop} {Q : Store → β → Prop}
    {x y : Run α} {f h : α → Run β} (first : d.FollowsFrom base g P x y m)
    (next : ∀ a n, d.Leads g base n → P n.store a → d.FollowsFrom base g' Q (f a) (h a) n) :
    d.FollowsFrom base g' Q (x >>= f) (y >>= h) m := by
  have outcome := first.2
  have same := first.1
  unfold FollowsFrom
  cases ran : x m with
  | ok a n =>
      rw [ran] at outcome same
      rw [Run.bind_of_ok ran, Run.bind_of_ok same]
      exact next a n outcome.1 outcome.2
  | error e n =>
      rw [ran] at outcome same
      rw [Run.bind_of_error ran, Run.bind_of_error same]
      exact ⟨rfl, outcome⟩

theorem bind (laws : d.Laws) {P : Store → α → Prop} {Q : Store → β → Prop} {x y : Run α}
    {f h : α → Run β}
    (first : d.Follows g P x y m)
    (next : ∀ a n, d.Leads g m n → P n.store a → d.Follows g Q (f a) (h a) n) :
    d.Follows g Q (x >>= f) (y >>= h) m :=
  bindFrom first fun a n leads holds => (next a n leads holds).after laws leads

/-- Reading the state and going on with it. -/
theorem get {P : Store → α → Prop} {f h : Machine → Run α}
    (next : d.Follows g P (f m) (h m) m) :
    d.Follows g P (get >>= f) (get >>= h) m := next

/-- Reading the names and going on with them. -/
theorem names {P : Store → α → Prop} {f h : List Text → Run α}
    (next : d.Follows g P (f m.bindings.names) (h m.bindings.names) m) :
    d.Follows g P (Run.names >>= f) (Run.names >>= h) m := next

/-- The result of a computation without effects that may fail. -/
theorem ofExcept (laws : d.Laws) {P : Store → α → Prop} {r : Except Cause α} (state : d.state m)
    (result : ∀ a, r = .ok a → P m.store a)
    (failure : ∀ cause, r = .error cause → d.stop (.fault ⟨m.line, cause⟩)) :
    d.Follows g P (Run.ofExcept r) (Run.ofExcept r) m := by
  cases r with
  | ok a => exact .pure laws state (result a rfl)
  | error cause => exact .of_error laws rfl state (failure cause rfl)

end Follows

end Rules

end Discipline

end EplLang
