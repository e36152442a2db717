import EplLang.Proofs.Moment

/-!
# Names live as long as their region

There are no frames: one list of bindings serves a whole program, and a region
drops what was bound inside it by comparing names. That this amounts to scopes
rests on an order. Names are only ever added at the end, so the names bound when a
region starts are the first ones when it ends, whatever calls, loops and imports
happened in between, and dropping all others leaves exactly them.

`Machine.WellScoped` is the invariant: no name occurs twice, and the built-in
functions come first. Work of the coarsest grain only adds names at the end; work
of a finer grain leaves the names as they were. The rest is a matter of single
actions (`scope_laws`), and `scope_law` says it of every node in every reachable
state.
-/

set_option autoImplicit false

namespace EplLang

/-! ## Names of bindings -/

namespace Bindings

/-- Closing a region to the names that come first leaves exactly them. -/
theorem names_close_of_first {outer : List Text} {b : Bindings} (first : outer <+: b.names)
    (distinct : b.names.Nodup) (builtins : builtinNames <+: outer) :
    (b.close outer).names = outer := by
  obtain ⟨added, split⟩ := first
  rw [names_close, ← split, List.filter_append]
  have kept : outer.filter (fun n => outer.contains n || builtinNames.contains n) = outer := by
    refine List.filter_eq_self.mpr fun n member => ?_
    simp [member]
  have dropped : added.filter (fun n => outer.contains n || builtinNames.contains n) = [] := by
    refine List.filter_eq_nil_iff.mpr fun n member => ?_
    rw [← split] at distinct
    have fresh : n ∉ outer := fun old =>
      (List.nodup_append.mp distinct).2.2 n old n member rfl
    have ordinary : n ∉ builtinNames := fun builtin => fresh (builtins.subset builtin)
    simp [fresh, ordinary]
  rw [kept, dropped, List.append_nil]

theorem builtinNames_nodup : builtinNames.Nodup := by decide

end Bindings

/-! ## The discipline -/

/-- The names bound in a state are as they have to be: none of them twice, those
of the built-in functions first, and exactly those that can be looked up. -/
structure Machine.WellScoped (m : Machine) : Prop where
  distinct : m.bindings.names.Nodup
  builtins : Bindings.builtinNames <+: m.bindings.names
  bound (n : Text) : (m.bindings.find? n).isSome ↔ n ∈ m.bindings.names

/-- Names are added at the end, and by finished work of a finer grain not at all.
Nothing is asked of values and of programs. -/
def scope : Discipline where
  state := Machine.WellScoped
  value _ _ := True
  expr _ := True
  stmt _ := True
  stop _ := True
  moves
    | .statement, m, n => m.bindings.names <+: n.bindings.names
    | _, m, n => n.bindings.names = m.bindings.names

namespace Machine.WellScoped

variable {m n : Machine}

theorem of_names (state : m.WellScoped) (same : n.bindings.names = m.bindings.names) :
    n.WellScoped where
  distinct := same ▸ state.distinct
  builtins := same ▸ state.builtins
  bound name := n.bindings.find?_isSome_iff name

theorem of_native {site : Nat} (same : n.bindings = Native.bindings site) : n.WellScoped where
  distinct := by rw [same]; exact Bindings.builtinNames_nodup
  builtins := by rw [same]; exact List.prefix_rfl
  bound name := n.bindings.find?_isSome_iff name

/-- Work that leaves the names alone. -/
theorem leads (state : m.WellScoped) (same : n.bindings.names = m.bindings.names) :
    scope.Leads .expression m n :=
  ⟨state.of_names same, same⟩

/-- Work that binds a name. -/
theorem leads_set (state : m.WellScoped) {name : Text} {v : Value}
    (set : n.bindings = m.bindings.set name v) : scope.Leads .statement m n := by
  have names := m.bindings.names_set name v
  rw [← set] at names
  by_cases old : name ∈ m.bindings.names
  · rw [if_pos old] at names
    have first : m.bindings.names <+: n.bindings.names := names ▸ List.prefix_rfl
    exact ⟨state.of_names names, first⟩
  · rw [if_neg old] at names
    have first : m.bindings.names <+: n.bindings.names := ⟨[name], names.symm⟩
    refine ⟨⟨?_, state.builtins.trans first, fun k => Bindings.find?_isSome_iff _ k⟩, first⟩
    rw [names]
    exact List.nodup_append.mpr ⟨state.distinct, List.nodup_cons.mpr ⟨by simp, List.nodup_nil⟩,
      fun a member b single same => old (by simp_all)⟩

/-- Closing a region brings back the names it started with. -/
theorem leads_closed (state : m.WellScoped) (leads : scope.Leads .statement m n) :
    scope.Leads .expression m (n.closedTo m.bindings.names) :=
  state.leads (Bindings.names_close_of_first leads.2 leads.1.distinct state.builtins)

end Machine.WellScoped

theorem scope_laws : scope.RegionLaws where
  refl g m := by
    cases g with
    | expression | region => exact rfl
    | statement => exact List.prefix_rfl
  trans {g m n k} first second := by
    cases g with
    | expression | region => exact Eq.trans second first
    | statement => exact List.IsPrefix.trans first second
  coarsen same := same
  widen {m n} same := by
    have names : n.bindings.names = m.bindings.names := same
    have first : m.bindings.names <+: n.bindings.names := names ▸ List.prefix_rfl
    exact first
  scalar _ _ := trivial
  named _ _ := trivial
  entry _ _ _ := trivial
  stays _ _ := trivial
  fault _ _ _ := trivial
  outOfFuel := trivial
  parts _ _ := trivial
  function _ _ := trivial
  meaning _ := .inr fun _ => trivial
  copied state _ := ⟨Machine.WellScoped.leads state rfl, trivial⟩
  pushed _ _ state _ := ⟨Machine.WellScoped.leads state rfl, trivial⟩
  world _ _ _ _ _ state := Machine.WellScoped.leads state rfl
  body _ _ := trivial
  stmtParts _ _ := trivial
  stmtBlocks _ _ _ := trivial
  stmtMeaning _ := .inr fun _ => trivial
  bound _ _ _ state _ := Machine.WellScoped.leads_set state rfl
  boundEntry _ _ _ _ state _ := Machine.WellScoped.leads_set state rfl
  stored _ _ _ state _ _ := Machine.WellScoped.leads state rfl
  prompt _ _ := trivial
  closed state leads := Machine.WellScoped.leads_closed state leads
  given _ leads _ := ⟨Machine.WellScoped.of_names leads.1 rfl, leads.2⟩
  broken state _ := Machine.WellScoped.leads state rfl
  ended state := Machine.WellScoped.leads state rfl
  returned {m n k v} state leads taken := by
    have names : (k.copied v).bindings.names = n.bindings.names := by
      rcases takeReturn_cases taken with ⟨_, _, rfl⟩ | ⟨rest, _, rfl⟩ <;> rfl
    have first : m.bindings.names <+: (k.copied v).bindings.names := names ▸ leads.2
    exact ⟨Machine.WellScoped.leads_closed state
      ⟨Machine.WellScoped.of_names leads.1 names, first⟩, trivial⟩
  marked _ _ state := Machine.WellScoped.leads state rfl
  entered state _ := Machine.WellScoped.of_names state rfl
  left _ leads := ⟨Machine.WellScoped.of_names leads.1 rfl, leads.2⟩
  importing _ _ := Machine.WellScoped.of_native rfl
  resuming _ state _ := Machine.WellScoped.leads state rfl

theorem scope_admits (files : Text → Option Text) : scope.Admits files :=
  fun _ _ _ _ => ⟨fun _ _ _ _ _ _ => trivial, fun _ _ _ => trivial⟩

/-! ## What a statement adds -/

namespace Node

/-- How a completed statement changes the list of names: binding adds at most the
name that is bound, an import may add several, and no other statement adds any. -/
def Adds (before after : List Text) : Node → Prop
  | .bind n _ => after = before ∨ n ∉ before ∧ after = before ++ [n]
  | .load _ => before <+: after
  | _ => after = before

end Node

section Runs

variable (fuel : Nat) (s : Surroundings) {m : Machine} (state : m.WellScoped)
include state

theorem scope_eval (e : Node) :
    scope.Follows .expression (fun _ _ => True) ((calls fuel s).eval e) ((calls fuel s).eval e) m :=
  Discipline.eval_follows scope_laws (scope_admits s.files) state trivial

theorem scope_exec (st : Stmt) :
    scope.Follows st.grain (fun _ _ => True) ((calls fuel s).exec st) ((calls fuel s).exec st) m :=
  Discipline.exec_follows scope_laws (scope_admits s.files) state trivial trivial

/-- A completed binding adds the bound name, if it is new. Its value is evaluated
first and adds nothing. -/
theorem adds_bind {n : Text} {value : Node} {line : Int} {k : Machine}
    (ran : (calls fuel s).exec ⟨line, .bind n value⟩ m = .ok () k) :
    Node.Adds m.bindings.names k.bindings.names (.bind n value) := by
  cases fuel with
  | zero => cases ran
  | succ fuel =>
      obtain ⟨v, m₁, evaluated, rest⟩ := Run.bind_eq_ok.mp ran
      have names : m₁.bindings.names = m.bindings.names :=
        ((scope_eval fuel s state value).of_ran evaluated).1.2
      cases rest
      have after := m₁.bindings.names_set n (m₁.store.copy v).1
      rw [names] at after
      by_cases old : n ∈ m.bindings.names
      · rw [if_pos old] at after
        exact .inl after
      · rw [if_neg old] at after
        exact .inr ⟨old, after⟩

theorem adds_exec {st : Stmt} {k : Machine} (ran : (calls fuel s).exec st m = .ok () k) :
    st.node.Adds m.bindings.names k.bindings.names := by
  have moves := ((scope_exec fuel s state st).of_ran ran).1.2
  obtain ⟨line, node⟩ := st
  cases node with
  | bind n value => exact adds_bind fuel s state ran
  | load path => exact moves
  | _ => exact moves

end Runs

theorem Reachable.wellScoped {m : Machine} (reachable : Reachable m) : m.WellScoped := by
  induction reachable with
  | start input => exact .of_native rfl
  | @run fuel s body m n _ meets ih =>
      exact meets.state scope_laws (scope_admits s.files) (fun _ _ => trivial) ih

/-- **Names live as long as their region.** In every reachable state, the names
bound are distinct, start with the built-in functions and are those that can be
looked up. Whatever is evaluated or executed there, and whether it succeeds or
fails, these names stay the first ones and the names after are again so. A
completed expression leaves the list of names as it was, and a completed statement
adds to it what `Node.Adds` says. -/
theorem scope_law {m : Machine} (reachable : Reachable m) (fuel : Nat) (s : Surroundings) :
    m.WellScoped ∧
    (∀ e : Node,
      (((calls fuel s).eval e).last m).WellScoped ∧
      m.bindings.names <+: (((calls fuel s).eval e).last m).bindings.names ∧
      ∀ v k, (calls fuel s).eval e m = .ok v k → k.bindings.names = m.bindings.names) ∧
    (∀ st : Stmt,
      (((calls fuel s).exec st).last m).WellScoped ∧
      m.bindings.names <+: (((calls fuel s).exec st).last m).bindings.names ∧
      ∀ k, (calls fuel s).exec st m = .ok () k →
        st.node.Adds m.bindings.names k.bindings.names) := by
  have state := reachable.wellScoped
  refine ⟨state, fun e => ?_, fun st => ?_⟩
  · have follows := scope_eval fuel s state e
    have last := follows.last_leads scope_laws.toLaws
    exact ⟨last.1, last.2, fun v k ran => (follows.of_ran ran).1.2⟩
  · have last := (scope_exec fuel s state st).last_leads scope_laws.toLaws
    exact ⟨last.1, last.2, fun k ran => adds_exec fuel s state ran⟩

/-- A program that stops inside a call leaves the parameter of the function bound.
A branch in the state it leaves drops the name it binds and keeps that one. -/
theorem scope_law_inside_call :
    let body : Block :=
      [⟨1, .bind "f" (.function 7 ["x"] [⟨1, .give (.name "missing")⟩])⟩,
        ⟨2, .call (.name "f") [.literal .null]⟩]
    let m := (Block.run 9 {} body).last (Machine.start [])
    let st : Stmt := ⟨3, .branch (.literal (.boolean true)) [⟨3, .bind "y" (.name "x")⟩] [] none⟩
    m.bindings.names = Bindings.builtinNames ++ (["f", "x"] : List Text) ∧ m.WellScoped ∧
      ∃ k, (calls 9 {}).exec st m = .ok () k ∧ k.bindings.names = m.bindings.names := by
  intro body m st
  have law := scope_law (.run (.start []) (.last 9 {} body _)) 9 {}
  exact ⟨rfl, law.1, _, rfl, (law.2.2 st).2.2 _ rfl⟩

end EplLang
