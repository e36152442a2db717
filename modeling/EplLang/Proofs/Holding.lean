import EplLang.Proofs.Moment

/-!
# What a machine holds

A function value is a piece of program text that travels: it is bound, stored in
containers, copied, passed, returned and imported, and may be called long after.
So a property of the text that is run is also one of all values that a machine
holds, at every depth.

A `Grammar` says which nodes may be evaluated and which statements executed, and
in which ways work may stop. A value fits a grammar when it is a function that may
be evaluated, a scalar, or a container of the store. Evaluating nodes that a
grammar allows keeps every value in the machine fit (`holding_laws`): copying
writes down what was read, and nothing else makes values.
-/

set_option autoImplicit false

namespace EplLang

/-- Which nodes may stand where, and how work may stop. -/
structure Grammar where
  expr : Node → Prop
  stmt : Stmt → Prop
  stop : Stop → Prop

/-- What a grammar allows, it allows part by part. -/
structure Grammar.Laws (g : Grammar) : Prop where
  fault (line : Int) {cause : Cause} : cause.Proper → g.stop (.fault ⟨line, cause⟩)
  outOfFuel : g.stop .outOfFuel
  parts {n e : Node} : g.expr n → e ∈ n.exprs → g.expr e
  meaning {n : Node} : g.expr n → n.IsExpression ∨ ∀ e, g.stop e
  body {site : Nat} {params : List Text} {body : Block} {st : Stmt} :
    g.expr (.function site params body) → st ∈ body → g.stmt st
  stmtParts {st : Stmt} {e : Node} : g.stmt st → e ∈ st.node.exprs → g.expr e
  stmtBlocks {st inner : Stmt} {body : Block} :
    g.stmt st → body ∈ st.node.blocks → inner ∈ body → g.stmt inner
  stmtMeaning {st : Stmt} : g.stmt st → st.node.IsStatement ∨ ∀ e, g.stop e
  native (site : Nat) (operation : Native) :
    g.expr (.function site operation.params operation.body)

/-! ## Fit values, data and stores -/

section Fits

variable (g : Grammar)

/-- A value that may occur with a store. -/
def Value.Fits (s : Store) : Value → Prop
  | .scalar _ => True
  | .function site params body => g.expr (.function site params body)
  | .container _ ref => ref < s.cells.size

/-- Data whose functions are allowed, at every depth. -/
inductive Data.Fits : Data → Prop where
  | scalar (x : Scalar) : Fits (.scalar x)
  | function {site : Nat} {params : List Text} {body : Block} :
      g.expr (.function site params body) → Fits (.function site params body)
  | container {shape : Shape} {entries : List (Scalar × Option Data)} :
      (∀ k d, (k, some d) ∈ entries → Fits d) → Fits (.container shape ⟨entries⟩)

/-- A container that holds fit values only. -/
structure Container.Fits (s : Store) (c : Container Value) : Prop where
  value {k : Scalar} {v : Value} : (k, some v) ∈ c.entries → v.Fits g s

/-- A store of fit containers. -/
def Store.Fits (s : Store) : Prop := ∀ ref, (s.get ref).Fits g s

/-- A machine that holds fit values only. -/
structure Machine.Fits (m : Machine) : Prop where
  bound {n : Text} {v : Value} : (n, v) ∈ m.bindings → v.Fits g m.store
  receiver {v : Value} : m.receiver = some v → v.Fits g m.store
  returned {v : Value} : v ∈ m.returns → v.Fits g m.store
  store : m.store.Fits g

end Fits

variable {g : Grammar}

theorem Value.Fits.mono {s s' : Store} (longer : s.cells.size ≤ s'.cells.size) {v : Value}
    (fits : v.Fits g s) : v.Fits g s' := by
  cases v with
  | scalar x => trivial
  | function site params body => exact fits
  | container shape ref => exact Nat.lt_of_lt_of_le fits longer

theorem Container.Fits.mono {s s' : Store} (longer : s.cells.size ≤ s'.cells.size)
    {c : Container Value} (fits : c.Fits g s) : c.Fits g s' :=
  ⟨fun member => (fits.value member).mono longer⟩

theorem Container.Fits.set {s : Store} {c : Container Value} (fits : c.Fits g s) (k : Scalar)
    {v : Value} (value : v.Fits g s) : Container.Fits g s (c.set k v) := by
  refine ⟨fun {key w} member => ?_⟩
  rcases OrderedMap.mem_set member with rfl | old
  · exact value
  · exact fits.value old

theorem Container.empty_fits (s : Store) : Container.Fits g s .empty :=
  ⟨fun member => by cases member⟩

namespace Store.Fits

variable {s : Store}

theorem push (fits : s.Fits g) (shape : Shape) {c : Container Value} (container : c.Fits g s) :
    (s.push shape c).2.Fits g := by
  have longer : s.cells.size ≤ (s.push shape c).2.cells.size := by
    rw [size_push]
    exact Nat.le_succ _
  intro ref
  by_cases old : ref < s.cells.size
  · rw [get_push_of_lt old]
    exact (fits ref).mono longer
  · by_cases new : ref = s.cells.size
    · rw [new, get_push_self]
      exact container.mono longer
    · have outside : (s.push shape c).2.cells.size ≤ ref := by
        rw [size_push]
        omega
      rw [get_of_size_le outside]
      exact Container.empty_fits _

theorem put (fits : s.Fits g) (ref : Nat) {c : Container Value} (container : c.Fits g s) :
    (s.put ref c).Fits g := by
  have same : s.cells.size ≤ (s.put ref c).cells.size := Nat.le_of_eq (size_put s ref c).symm
  intro other
  rw [get_put]
  split
  · exact container.mono same
  · exact (fits other).mono same

end Store.Fits

namespace Store

/-- A value that is read out fits if the functions in it are allowed. The property of values that
says so is passed on to entries. -/
theorem viewTo_fits {s : Store} {P : Value → Prop}
    (function : ∀ {site params body}, P (.function site params body) →
      g.expr (.function site params body))
    (entry : ∀ {shape ref k v}, P (.container shape ref) → (k, some v) ∈ (s.get ref).entries → P v)
    (depth : Nat) {v : Value} (holds : P v) : (s.viewTo depth v).Fits g := by
  induction depth generalizing v with
  | zero =>
      cases v with
      | scalar x => exact .scalar x
      | function site params body => exact .function (function holds)
      | container shape ref => exact .container fun k d member => by cases member
  | succ depth ih =>
      cases v with
      | scalar x => exact .scalar x
      | function site params body => exact .function (function holds)
      | container shape ref =>
          refine .container fun k d member => ?_
          obtain ⟨⟨key, found⟩, inside, same⟩ := List.mem_map.mp member
          cases found with
          | none => cases same
          | some w =>
              cases same
              exact ih (entry holds inside)

mutual

/-- Writing fit data gives a fit value in a fit store. -/
theorem write_fits : ∀ (d : Data) (s : Store), d.Fits g → s.Fits g →
    (write d s).2.Fits g ∧ (write d s).1.Fits g (write d s).2
  | .scalar _, s, _, fits => ⟨fits, trivial⟩
  | .function .., s, .function allowed, fits => ⟨fits, allowed⟩
  | .container shape ⟨entries⟩, s, .container inner, fits => by
      obtain ⟨written, values⟩ := writeEntries_fits entries s inner fits
      refine ⟨written.push shape ⟨fun {k v} member => ?_⟩, by simp [write, push, Value.Fits]⟩
      rcases mem_ofEntries member with rfl | ⟨key, there⟩
      · trivial
      · exact values key v there

theorem writeEntries_fits : ∀ (entries : List (Scalar × Option Data)) (s : Store),
    (∀ k d, (k, some d) ∈ entries → d.Fits g) → s.Fits g →
    (writeEntries entries s).2.Fits g ∧
    ∀ k v, (k, some v) ∈ (writeEntries entries s).1 → v.Fits g (writeEntries entries s).2
  | [], s, _, fits => ⟨fits, fun k v member => by cases member⟩
  | (key, none) :: rest, s, data, fits => by
      obtain ⟨written, values⟩ := writeEntries_fits rest s
        (fun k d member => data k d (List.mem_cons_of_mem _ member)) fits
      refine ⟨written, fun k v member => ?_⟩
      rcases List.mem_cons.mp member with here | there
      · cases here
      · exact values k v there
  | (key, some d) :: rest, s, data, fits => by
      obtain ⟨first, value⟩ := write_fits d s (data key d List.mem_cons_self) fits
      obtain ⟨written, values⟩ := writeEntries_fits rest (write d s).2
        (fun k d member => data k d (List.mem_cons_of_mem _ member)) first
      refine ⟨written, fun k v member => ?_⟩
      rcases List.mem_cons.mp member with here | there
      · cases here
        exact value.mono (writeEntries_extends rest (write d s).2).1
      · exact values k v there

end

theorem Fits.copy {s : Store} (fits : s.Fits g) {v : Value} (value : v.Fits g s) :
    (s.copy v).2.Fits g ∧ (s.copy v).1.Fits g (s.copy v).2 := by
  rw [copy_eq_write]
  exact write_fits _ s (viewTo_fits id (fun {_ ref _ _} _ member => (fits ref).value member) _ value)
    fits

end Store

/-! ## The discipline -/

/-- Every value fits. Work only ever adds containers to the store. -/
def holding (g : Grammar) : Discipline where
  state := Machine.Fits g
  value := Value.Fits g
  expr := g.expr
  stmt := g.stmt
  stop := g.stop
  moves _ m n := m.store.cells.size ≤ n.store.cells.size

namespace Machine.Fits

variable {m n : Machine}

/-- The values in the frame fit. -/
theorem framed (fits : m.Fits g) {v : Value} (holds : m.toFrame.Holds v) : v.Fits g m.store := by
  cases holds with
  | bound member => exact fits.bound member
  | receiver same => exact fits.receiver same
  | returned member => exact fits.returned member

/-- A change of the store that keeps the values in it fit. -/
theorem withStore (fits : m.Fits g) {s : Store} (longer : m.store.cells.size ≤ s.cells.size)
    (store : s.Fits g) : Fits g { m with store := s } where
  bound member := (fits.bound member).mono longer
  receiver same := (fits.receiver same).mono longer
  returned member := (fits.returned member).mono longer
  store := store

theorem withBinding (fits : m.Fits g) (n : Text) {v : Value} (value : v.Fits g m.store) :
    Fits g { m with bindings := m.bindings.set n v } where
  bound member := by
    rcases Bindings.mem_set member with ⟨_, same⟩ | old
    · rw [same]
      exact value
    · exact fits.bound old
  receiver same := fits.receiver same
  returned member := fits.returned member
  store := fits.store

theorem withReceiver (fits : m.Fits g) {receiver : Option Value}
    (values : ∀ v, receiver = some v → v.Fits g m.store) :
    Fits g { m with receiver := receiver } where
  bound member := fits.bound member
  receiver same := values _ same
  returned member := fits.returned member
  store := fits.store

theorem withReturns (fits : m.Fits g) {returns : List Value}
    (values : ∀ v ∈ returns, v.Fits g m.store) : Fits g { m with returns := returns } where
  bound member := fits.bound member
  receiver same := fits.receiver same
  returned member := values _ member
  store := fits.store

theorem closedTo (fits : m.Fits g) (outer : List Text) : (m.closedTo outer).Fits g where
  bound member := fits.bound (Bindings.mem_of_mem_close member)
  receiver same := fits.receiver same
  returned member := fits.returned member
  store := fits.store

/-- A change of what holds no values. -/
theorem same (fits : m.Fits g) (bindings : n.bindings = m.bindings)
    (receiver : n.receiver = m.receiver) (returns : n.returns = m.returns)
    (store : n.store = m.store) : n.Fits g where
  bound member := store ▸ fits.bound (bindings ▸ member)
  receiver same := store ▸ fits.receiver (receiver ▸ same)
  returned member := store ▸ fits.returned (returns ▸ member)
  store := store ▸ fits.store

theorem copied (fits : m.Fits g) {v : Value} (value : v.Fits g m.store) :
    (m.copied v).Fits g ∧ (m.store.copy v).1.Fits g (m.copied v).store := by
  obtain ⟨store, copy⟩ := fits.store.copy value
  exact ⟨fits.withStore (m.store.size_le_copy v) store, copy⟩

theorem pushed (fits : m.Fits g) (shape : Shape) {c : Container Value}
    (container : c.Fits g m.store) :
    (m.pushed shape c).Fits g ∧ (m.store.push shape c).1.Fits g (m.pushed shape c).store := by
  have longer : m.store.cells.size ≤ (m.store.push shape c).2.cells.size := by
    rw [Store.size_push]
    exact Nat.le_succ _
  refine ⟨fits.withStore longer (fits.store.push shape container), ?_⟩
  simp [Machine.pushed, Store.push, Value.Fits]

theorem boundTo (fits : m.Fits g) (n : Text) {v : Value} (value : v.Fits g m.store) :
    (m.boundTo n v).Fits g := by
  obtain ⟨copied, copy⟩ := fits.copied value
  exact copied.withBinding n copy

theorem entryObject_fits {s : Store} (k : Scalar) {v : Value} (value : v.Fits g s) :
    (Eval.entryObject k v).Fits g s := by
  have key : (Value.scalar k).Fits g s := trivial
  exact ((Container.empty_fits s).set _ key).set _ value

theorem boundToEntry (fits : m.Fits g) (n : Text) (k : Scalar) {v : Value}
    (value : v.Fits g m.store) : (m.boundToEntry n k v).Fits g := by
  obtain ⟨copied, copy⟩ := fits.copied value
  obtain ⟨pushed, made⟩ := copied.pushed .object (entryObject_fits k copy)
  exact pushed.withBinding n made

theorem storedAt (fits : m.Fits g) (ref : Nat) (k : Scalar) {v : Value}
    (value : v.Fits g m.store) : (m.storedAt ref k v).Fits g := by
  obtain ⟨copied, copy⟩ := fits.copied value
  exact copied.withStore (Nat.le_of_eq (Store.size_put _ ref _).symm)
    (copied.store.put ref ((copied.store ref).set k copy))

theorem newFrame_bound (laws : g.Laws) {site : Nat} {n : Text} {v : Value} {s : Store}
    (member : (n, v) ∈ Native.bindings site) : v.Fits g s := by
  obtain ⟨⟨operation, i⟩, _, same⟩ := List.mem_map.mp (Bindings.mem_of_mem_ofList member)
  cases same
  exact laws.native _ operation

/-- A program that starts in a fit store holds nothing but built-in functions. -/
theorem importing (laws : g.Laws) (fits : m.Fits g) : m.importing.Fits g where
  bound member := newFrame_bound laws member
  receiver same := by cases same
  returned member := by cases member
  store := fits.store

theorem resuming (fits : m.Fits g) (longer : m.store.cells.size ≤ n.store.cells.size)
    (after : n.Fits g) : (m.resuming n).Fits g where
  bound member := (fits.bound member).mono longer
  receiver same := (fits.receiver same).mono longer
  returned member := (fits.returned member).mono longer
  store := after.store

/-- Values fit another grammar if it allows the functions that are held. -/
theorem imp {g' : Grammar} (fits : m.Fits g)
    (held : ∀ site params body, m.Holds (.function site params body) →
      g.expr (.function site params body) → g'.expr (.function site params body)) :
    m.Fits g' := by
  have values : ∀ v, m.Holds v → v.Fits g m.store → v.Fits g' m.store := by
    intro v holds fit
    cases v with
    | scalar x => trivial
    | function site params body => exact held site params body holds fit
    | container shape ref => exact fit
  exact ⟨fun member => values _ (.bound member) (fits.bound member),
    fun same => values _ (.receiver same) (fits.receiver same),
    fun member => values _ (.returned member) (fits.returned member),
    fun ref => ⟨fun member => values _ (.entry member) ((fits.store ref).value member)⟩⟩

/-- What a call takes fits. -/
theorem taken (fits : m.Fits g) {depth : Nat} {v : Value}
    (taken : Eval.takeReturn depth m = .ok v n) : n.Fits g ∧ v.Fits g n.store := by
  rcases takeReturn_cases taken with ⟨_, rfl, rfl⟩ | ⟨rest, pending, rfl⟩
  · exact ⟨fits, trivial⟩
  · refine ⟨fits.withReturns fun w member => fits.returned ?_, fits.returned ?_⟩
    · rw [pending]
      exact List.mem_cons_of_mem _ member
    · rw [pending]
      exact List.mem_cons_self

/-- Nothing but built-in functions is held at the start. -/
theorem start (laws : g.Laws) (input : Text) : (Machine.start input).Fits g where
  bound member := newFrame_bound laws member
  receiver same := by cases same
  returned member := by cases member
  store _ := Container.empty_fits _

end Machine.Fits

namespace Machine

theorem size_le_boundToEntry (m : Machine) (n : Text) (k : Scalar) (v : Value) :
    m.store.cells.size ≤ (m.boundToEntry n k v).store.cells.size := by
  have copied := m.store.size_le_copy v
  simp only [boundToEntry, Store.size_push]
  exact Nat.le_succ_of_le copied

theorem size_le_storedAt (m : Machine) (ref : Nat) (k : Scalar) (v : Value) :
    m.store.cells.size ≤ (m.storedAt ref k v).store.cells.size := by
  simp only [storedAt, Store.size_put]
  exact m.store.size_le_copy v

end Machine

theorem holding_laws (laws : g.Laws) : (holding g).RegionLaws where
  refl _ m := Nat.le_refl _
  trans first second := Nat.le_trans first second
  coarsen longer := longer
  widen longer := longer
  scalar _ _ := trivial
  named fits named := Machine.Fits.framed fits named.holds
  entry fits _ member := (Machine.Fits.store fits _).value member
  stays longer fits := Value.Fits.mono longer fits
  fault := laws.fault
  outOfFuel := laws.outOfFuel
  parts := laws.parts
  function _ allowed := allowed
  meaning := laws.meaning
  copied {m v} fits value := by
    obtain ⟨copied, copy⟩ := Machine.Fits.copied fits value
    exact ⟨⟨copied, m.store.size_le_copy v⟩, copy⟩
  pushed {m} shape {c} fits values := by
    have container : c.Fits g m.store :=
      ⟨fun {k v} member => values v (c.mem_values.mpr ⟨k, member⟩)⟩
    obtain ⟨pushed, made⟩ := Machine.Fits.pushed fits shape container
    refine ⟨⟨pushed, ?_⟩, made⟩
    exact Nat.le_trans (Nat.le_succ _) (Nat.le_of_eq (m.store.size_push shape c).symm)
  world _ _ _ _ _ fits := ⟨Machine.Fits.same fits rfl rfl rfl rfl, Nat.le_refl _⟩
  body allowed member := laws.body allowed member
  stmtParts := laws.stmtParts
  stmtBlocks := laws.stmtBlocks
  stmtMeaning := laws.stmtMeaning
  bound {m} n {v} _ fits value := ⟨Machine.Fits.boundTo fits n value, m.store.size_le_copy v⟩
  boundEntry {m} n k {v} _ fits value :=
    ⟨Machine.Fits.boundToEntry fits n k value, m.size_le_boundToEntry n k v⟩
  stored {m shape ref} k {v} _ fits _ value :=
    ⟨Machine.Fits.storedAt fits ref k value, m.size_le_storedAt ref k v⟩
  prompt _ _ := trivial
  closed fits leads := ⟨Machine.Fits.closedTo leads.1 _, leads.2⟩
  given _ leads value := by
    refine ⟨Machine.Fits.withReturns leads.1 fun w member => ?_, leads.2⟩
    rcases List.mem_cons.mp member with rfl | old
    · exact value
    · exact Machine.Fits.returned leads.1 old
  broken fits _ := ⟨Machine.Fits.same fits rfl rfl rfl rfl, Nat.le_refl _⟩
  ended fits := ⟨Machine.Fits.same fits rfl rfl rfl rfl, Nat.le_refl _⟩
  returned {m n k v} _ leads taken := by
    have longer : m.store.cells.size ≤ (k.copied v).store.cells.size := by
      rcases takeReturn_cases taken with ⟨_, _, rfl⟩ | ⟨rest, _, rfl⟩ <;>
        exact Nat.le_trans leads.2 (Store.size_le_copy _ _)
    obtain ⟨fits, value⟩ := Machine.Fits.taken leads.1 taken
    obtain ⟨copied, copy⟩ := fits.copied value
    exact ⟨⟨copied.closedTo _, longer⟩, copy⟩
  marked _ _ fits := ⟨Machine.Fits.same fits rfl rfl rfl rfl, Nat.le_refl _⟩
  entered {m receiver} fits values := by
    refine Machine.Fits.withReceiver fits fun w same => ?_
    cases receiver with
    | none => exact Machine.Fits.receiver fits same
    | some v => exact values w same
  left fits leads := by
    refine ⟨Machine.Fits.withReceiver leads.1 fun w same => ?_, leads.2⟩
    exact (Machine.Fits.receiver fits same).mono leads.2
  importing _ fits := Machine.Fits.importing laws fits
  resuming _ fits leads := ⟨Machine.Fits.resuming fits leads.2 leads.1, leads.2⟩

/-- Every value that is held fits, also those in containers that are not reached. -/
theorem Discipline.RegionLaws.held (_ : (holding g).RegionLaws) {m : Machine} {v : Value}
    (fits : (holding g).state m) (holds : m.Holds v) : (holding g).value m.store v := by
  cases holds with
  | bound member => exact Machine.Fits.framed fits (.bound member)
  | receiver same => exact Machine.Fits.framed fits (.receiver same)
  | returned member => exact Machine.Fits.framed fits (.returned member)
  | entry member => exact (Machine.Fits.store fits _).value member

/-! ## Function literals -/

/-- All function literals that occur in a node are as wanted. -/
def Node.Literals (P : Nat → List Text → Block → Prop) (n : Node) : Prop :=
  ∀ site params body, Occurs (.function site params body) n → P site params body

/-- The function literals in a node are those in its parts, and the node itself if it
is one. -/
theorem Node.Literals.of_parts {P : Nat → List Text → Block → Prop} {n : Node}
    (exprs : ∀ e ∈ n.exprs, e.Literals P)
    (blocks : ∀ body ∈ n.blocks, ∀ st ∈ body, st.node.Literals P)
    (own : ∀ site params body, n = .function site params body →
      P site params body ∧ ∀ st ∈ body, st.node.Literals P) : n.Literals P := by
  intro site params body occurs
  cases occurs with
  | self => exact (own site params body rfl).1
  | expr inside occurs => exact exprs _ inside site params body occurs
  | block inside member occurs => exact blocks _ inside _ member site params body occurs
  | function member occurs => exact (own _ _ _ rfl).2 _ member site params body occurs

/-- Any node may stand anywhere, if the function literals in it are as wanted. -/
def Grammar.literals (P : Nat → List Text → Block → Prop) : Grammar where
  expr := Node.Literals P
  stmt st := st.node.Literals P
  stop _ := True

/-- No function literal occurs in the statements of a built-in function. -/
theorem Native.not_occurs {operation : Native} {st : Stmt} (member : st ∈ operation.body)
    {site : Nat} {params : List Text} {body : Block} :
    ¬Node.Occurs (.function site params body) st.node := by
  have leaf : ∀ operation, ¬Node.Occurs (.function site params body) (.native operation) := by
    rintro operation (_ | ⟨inside, _⟩ | ⟨inside, _⟩) <;> cases inside
  have given : ∀ operation,
      ¬Node.Occurs (.function site params body) (.give (.native operation)) := by
    rintro operation (_ | ⟨inside, occurs⟩ | ⟨inside, _⟩)
    · rw [List.mem_singleton.mp inside] at occurs
      exact leaf operation occurs
    · cases inside
  cases operation <;> (rw [List.mem_singleton.mp member]; first | exact leaf _ | exact given _)

theorem Grammar.literals_laws {P : Nat → List Text → Block → Prop}
    (native : ∀ site (operation : Native), P site operation.params operation.body) :
    (Grammar.literals P).Laws where
  fault _ _ _ := trivial
  outOfFuel := trivial
  parts allowed inside site params body occurs := allowed site params body (.expr inside occurs)
  meaning _ := .inr fun _ => trivial
  body allowed inside site params body occurs :=
    allowed site params body (.function inside occurs)
  stmtParts allowed inside site params body occurs := allowed site params body (.expr inside occurs)
  stmtBlocks allowed inside member site params body occurs :=
    allowed site params body (.block inside member occurs)
  stmtMeaning _ := .inr fun _ => trivial
  native site operation := by
    intro site' params body occurs
    cases occurs with
    | self => exact native site operation
    | expr inside _ => cases inside
    | block inside _ _ => cases inside
    | function inside occurs => exact absurd occurs (Native.not_occurs inside)

/-- The grammar of all nodes. -/
abbrev Grammar.any : Grammar := .literals fun _ _ _ => True

theorem Grammar.any_laws : Grammar.any.Laws := literals_laws fun _ _ => trivial

theorem Grammar.any_expr (e : Node) : Grammar.any.expr e := fun _ _ _ _ => trivial

end EplLang
