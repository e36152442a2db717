import EplLang.Proofs.Rounds
import EplLang.Proofs.Update

/-!
# Loops over collections

A loop over a collection goes through the keys that the collection has when the loop starts, and
its rounds are those of `Eval.Rounds` for these keys. The body may do with the collection what it
likes: add entries, overwrite them, bind its name to something else. Two things are left to say.

**Keys stay.** No work takes a key out of a container. So what a round looks up is still there,
whatever the rounds before it did.

**The loop object is apart from the collection.** It is made of new containers in every round. Let
some containers be closed, so that their entries lead to none but them, and let others be closed
that the loop name is bound to, without any in common (`Machine.Sides`). Since only copies are
bound and stored, this stays so, with the new containers of a copy on the side where the copy is
put (`Onward`). So an assignment into what the loop name is bound to does not change the
collection (`view_of_sides`).
-/

set_option autoImplicit false

namespace EplLang

/-! ## Closed sets of containers -/

namespace Store

/-- Some containers of a store whose entries lead to none but them. -/
structure Closed (s : Store) (refs : Nat → Prop) : Prop where
  inside {ref : Nat} : refs ref → ref < s.cells.size
  entry {ref inner : Nat} {k : Scalar} {shape : Shape} : refs ref →
    (k, some (.container shape inner)) ∈ (s.get ref).entries → refs inner

/-- A copy of a container is one of the new ones. -/
theorem copy_new {s : Store} {v : Value} {shape : Shape} {ref : Nat}
    (copied : (s.copy v).1 = .container shape ref) :
    s.cells.size ≤ ref ∧ ref < (s.copy v).2.cells.size :=
  (copy_entry s v).2 shape ref copied

namespace Closed

variable {s s' : Store} {refs refs' : Nat → Prop}

theorem later (closed : s.Closed refs) (grown : s.Extends s') : s'.Closed refs where
  inside held := Nat.lt_of_lt_of_le (closed.inside held) grown.longer
  entry held member := closed.entry held (grown.same (closed.inside held) ▸ member)

theorem union (first : s.Closed refs) (second : s.Closed refs') :
    s.Closed fun ref => refs ref ∨ refs' ref where
  inside held := held.elim first.inside second.inside
  entry held member := held.imp (first.entry · member) (second.entry · member)

/-- All containers of a store whose containers are ranked. -/
theorem all (ranked : s.Ranked) : s.Closed (· < s.cells.size) := by
  obtain ⟨rank, ranked⟩ := ranked
  exact ⟨id, fun _ member => (ranked.entry member).1⟩

theorem route (closed : s.Closed refs) {start ref : Nat} {path : List (Nat × Scalar)}
    (held : refs start) (route : s.Route start path ref) : refs ref := by
  induction route with
  | here => exact held
  | step _ entry ih => exact closed.entry ih (List.mem_of_getElem? entry)

/-- The containers of a copy. -/
theorem copy (s : Store) (v : Value) : (s.copy v).2.Closed fun ref =>
    s.cells.size ≤ ref ∧ ref < (s.copy v).2.cells.size where
  inside held := held.2
  entry held member := by
    obtain ⟨new, before⟩ := (copy_entry s v).1 _ _ _ _ held.1 member
    exact ⟨new, Nat.lt_trans before held.2⟩

/-- Setting an entry to a copy adds the copy to the containers that the changed one is among. -/
theorem putCopy (closed : s.Closed refs) (ref : Nat) (k : Scalar) (v : Value) :
    ((s.copy v).2.put ref (((s.copy v).2.get ref).set k (s.copy v).1)).Closed fun other =>
      refs other ∨ refs ref ∧ s.cells.size ≤ other ∧ other < (s.copy v).2.cells.size := by
  have grown := closed.later (Extends.copy s v)
  have copied := Closed.copy s v
  constructor
  · intro other held
    rw [size_put]
    exact held.elim grown.inside fun both => both.2.2
  · intro other inner key shape held member
    rw [get_put] at member
    split at member
    next changed =>
      obtain ⟨rfl, here⟩ := changed
      have old : refs other := held.elim id fun both => both.1
      rcases OrderedMap.mem_set member with same | before
      · exact .inr ⟨old, copy_new same.symm⟩
      · exact .inl (grown.entry old before)
    next =>
      exact held.imp (grown.entry · member) fun both => ⟨both.1, copied.entry both.2 member⟩

end Closed

end Store

/-! ## The loop object -/

/-- The container that describes an entry to the body of a loop, after a copy was made. -/
def Machine.loopObject (m : Machine) (v : Value) : Nat := (m.store.copy v).2.cells.size

section LoopObject

variable (m : Machine) (n : Text) (k : Scalar) (v : Value)

theorem Machine.loopObject_new : m.store.cells.size ≤ m.loopObject v ∧
    m.loopObject v < (m.boundToEntry n k v).store.cells.size := by
  refine ⟨m.store.size_le_copy v, ?_⟩
  simp only [boundToEntry, Store.size_push]
  exact Nat.lt_succ_self _

theorem get_loopObject : (m.boundToEntry n k v).store.get (m.loopObject v) =
    Eval.entryObject k (m.store.copy v).1 :=
  Store.get_push_self (m.store.copy v).2 .object _

theorem find?_loopObject : (m.boundToEntry n k v).bindings.find? n =
    some (.container .object (m.loopObject v)) :=
  Bindings.find?_set _ n _

theorem Store.Extends.loopObject :
    (m.store.copy v).2.Extends (m.boundToEntry n k v).store :=
  .push (m.store.copy v).2 .object _

theorem Store.Extends.boundToEntry : m.store.Extends (m.boundToEntry n k v).store :=
  (copy m.store v).trans (.loopObject m n k v)

/-- The containers of the loop object. -/
theorem Store.Closed.boundToEntry : (m.boundToEntry n k v).store.Closed fun ref =>
    m.store.cells.size ≤ ref ∧ ref < (m.boundToEntry n k v).store.cells.size where
  inside held := held.2
  entry {ref inner key shape} held member := by
    have last := m.loopObject_new n k v
    by_cases before : ref < m.loopObject v
    · have same := (Store.Extends.loopObject m n k v).same before
      obtain ⟨new, made⟩ := (Store.Closed.copy m.store v).entry ⟨held.1, before⟩ (same ▸ member)
      exact ⟨new, Nat.lt_trans made last.2⟩
    · have here : ref = m.loopObject v := by
        have size : (m.boundToEntry n k v).store.cells.size = m.loopObject v + 1 :=
          Store.size_push _ .object _
        omega
      rw [here, get_loopObject] at member
      rcases Eval.mem_values_entryObject ((OrderedMap.mem_values _).mpr ⟨key, member⟩) with
        scalar | copied
      · cases scalar
      · obtain ⟨new, made⟩ := Store.copy_new copied.symm
        exact ⟨new, Nat.lt_trans made last.2⟩

/-- The loop object amounts to the key and to what was copied. -/
theorem view_loopObject (ranked : (m.boundToEntry n k v).store.Ranked) :
    (m.boundToEntry n k v).store.view (.container .object (m.loopObject v)) =
      .container .object ⟨[(.string "key", some (.scalar k)),
        (.string "value", some (m.store.view v))]⟩ := by
  have entries : (Eval.entryObject k (m.store.copy v).1).entries =
      [(.string "key", some (.scalar k)), (.string "value", some (m.store.copy v).1)] := rfl
  have key : (m.boundToEntry n k v).store.view (.scalar k) = .scalar k := by
    simp [Store.view, Store.viewTo]
  rw [ranked.view_container .object (m.loopObject_new n k v).2, get_loopObject, entries]
  simp only [Store.viewEntries, List.map_cons, List.map_nil, Option.map_some, key,
    Store.view_copy (.loopObject m n k v)]

end LoopObject

/-! ## Two sides -/

/-- Two closed sets of containers without any in common, one of them holding the container that a
name is bound to. -/
structure Machine.Sides (x : Text) (m : Machine) (kept given : Nat → Prop) : Prop where
  keptClosed : m.store.Closed kept
  givenClosed : m.store.Closed given
  apart {ref : Nat} : kept ref → ¬given ref
  bound {shape : Shape} {ref : Nat} :
    m.bindings.find? x = some (.container shape ref) → given ref

/-- From one state to another no key is taken out of a container, and what is on one of two sides
stays on that side. -/
structure Onward (x : Text) (m n : Machine) : Prop where
  longer : m.store.cells.size ≤ n.store.cells.size
  keys {ref : Nat} : ref < m.store.cells.size → (m.store.get ref).keys <+: (n.store.get ref).keys
  sides {kept given : Nat → Prop} : m.Sides x kept given → ∃ kept' given',
    (∀ ref, kept ref → kept' ref) ∧ (∀ ref, given ref → given' ref) ∧ n.Sides x kept' given'

namespace Machine.Sides

variable {x : Text} {m n : Machine} {kept given : Nat → Prop}

/-- Containers are added, and the name is bound to no other container than before. -/
theorem later (sides : m.Sides x kept given) (grown : m.store.Extends n.store)
    (bound : ∀ {shape ref}, n.bindings.find? x = some (.container shape ref) →
      m.bindings.find? x = some (.container shape ref)) :
    n.Sides x kept given where
  keptClosed := sides.keptClosed.later grown
  givenClosed := sides.givenClosed.later grown
  apart := sides.apart
  bound found := sides.bound (bound found)

end Machine.Sides

namespace Onward

variable {x : Text} {m n k : Machine}

theorem trans (first : Onward x m n) (second : Onward x n k) : Onward x m k where
  longer := Nat.le_trans first.longer second.longer
  keys old := (first.keys old).trans (second.keys (Nat.lt_of_lt_of_le old first.longer))
  sides sides := by
    obtain ⟨kept, given, stays, stays', sides⟩ := first.sides sides
    obtain ⟨kept', given', goes, goes', sides⟩ := second.sides sides
    exact ⟨kept', given', fun ref held => goes ref (stays ref held),
      fun ref held => goes' ref (stays' ref held), sides⟩

theorem of_grown (grown : m.store.Extends n.store)
    (bound : ∀ {shape ref}, n.bindings.find? x = some (.container shape ref) →
      m.bindings.find? x = some (.container shape ref)) : Onward x m n where
  longer := grown.longer
  keys old := by rw [grown.same old]
  sides {kept given} sides :=
    ⟨kept, given, fun _ => id, fun _ => id, sides.later grown bound⟩

/-- A change of what is neither bound nor in containers. -/
theorem of_same (bindings : n.bindings = m.bindings) (store : n.store = m.store) : Onward x m n :=
  of_grown (store ▸ .refl _) fun found => bindings ▸ found

theorem closedTo (m : Machine) (outer : List Text) : Onward x m (m.closedTo outer) :=
  of_grown (.refl _) fun found =>
    (Option.ite_none_right_eq_some.mp ((Bindings.find?_close ..).symm.trans found)).2

/-- A name is bound to one of some new containers. -/
theorem of_bound {y : Text} {v : Value} (grown : m.store.Extends n.store)
    (bindings : n.bindings = m.bindings.set y v)
    (closed : n.store.Closed fun ref => m.store.cells.size ≤ ref ∧ ref < n.store.cells.size)
    (new : ∀ shape ref, v = .container shape ref →
      m.store.cells.size ≤ ref ∧ ref < n.store.cells.size) : Onward x m n where
  longer := grown.longer
  keys old := by rw [grown.same old]
  sides {kept given} sides := by
    refine ⟨kept, _, fun _ => id, fun _ => .inl,
      ⟨sides.keptClosed.later grown, (sides.givenClosed.later grown).union closed, ?_, ?_⟩⟩
    · rintro ref held (other | ⟨beyond, _⟩)
      · exact sides.apart held other
      · exact Nat.not_lt_of_le beyond (sides.keptClosed.inside held)
    · intro shape ref found
      rw [bindings] at found
      by_cases same : x = y
      · subst same
        rw [Bindings.find?_set, Option.some.injEq] at found
        exact .inr (new shape ref found)
      · rw [Bindings.find?_set_of_ne _ same] at found
        exact .inl (sides.bound found)

theorem boundTo (m : Machine) (y : Text) (v : Value) : Onward x m (m.boundTo y v) :=
  of_bound (.copy m.store v) rfl (.copy m.store v) fun _ _ => Store.copy_new

theorem boundToEntry (m : Machine) (y : Text) (k : Scalar) (v : Value) :
    Onward x m (m.boundToEntry y k v) := by
  refine of_bound (.boundToEntry m y k v) rfl (.boundToEntry m y k v) fun shape ref same => ?_
  obtain ⟨_, rfl⟩ := Value.container.inj same
  exact m.loopObject_new y k v

/-- An entry is set to a copy, whose containers go where the changed container is. -/
theorem storedAt (m : Machine) (ref : Nat) (k : Scalar) (v : Value) :
    Onward x m (m.storedAt ref k v) where
  longer := m.size_le_storedAt ref k v
  keys {other} old := by
    rw [Machine.storedAt, Store.get_put]
    split
    next changed =>
      rw [← changed.1, ← Store.get_copy_of_lt v old]
      exact OrderedMap.keys_prefix_set _ k _
    next =>
      rw [← Store.get_copy_of_lt v old]
      exact List.prefix_refl _
  sides {kept given} sides := by
    refine ⟨_, _, fun _ => .inl, fun _ => .inl, ⟨sides.keptClosed.putCopy ref k v,
      sides.givenClosed.putCopy ref k v, ?_, fun found => .inl (sides.bound found)⟩⟩
    rintro other (held | ⟨held, beyond, _⟩) (held' | ⟨held', beyond', _⟩)
    · exact sides.apart held held'
    · exact Nat.not_lt_of_le beyond' (sides.keptClosed.inside held)
    · exact Nat.not_lt_of_le beyond (sides.givenClosed.inside held')
    · exact sides.apart held held'

/-- An imported program starts with built-in functions only. -/
theorem importing (m : Machine) : Onward x m m.importing :=
  of_grown (.refl _) fun found => absurd (found) Keeps.not_mem_native

theorem resuming (onward : Onward x m.importing n) : Onward x m (m.resuming n) where
  longer := onward.longer
  keys := onward.keys
  sides {kept given} sides := by
    obtain ⟨kept', given', stays, stays', ⟨keptClosed, givenClosed, apart, _⟩⟩ := onward.sides
      (sides.later (.refl _) fun found =>
        absurd (found) Keeps.not_mem_native)
    exact ⟨kept', given', stays, stays', keptClosed, givenClosed, apart,
      fun found => stays' _ (sides.bound found)⟩

end Onward

/-- Work goes on from a state. -/
def onward (x : Text) (start : Machine) : Discipline where
  state := Onward x start
  value _ _ := True
  expr _ := True
  stmt _ := True
  stop _ := True
  moves _ := Onward x

section Laws

variable {x : Text} {start m n : Machine}

theorem onward_leads {g : Grain} (state : Onward x start m) (moves : Onward x m n) :
    (onward x start).Leads g m n := ⟨state.trans moves, moves⟩

theorem onward_laws (x : Text) (start : Machine) : (onward x start).RegionLaws where
  refl _ _ := .of_same rfl rfl
  trans first second := Onward.trans first second
  coarsen := id
  widen := id
  scalar _ _ := trivial
  named _ _ := trivial
  entry _ _ _ := trivial
  stays _ _ := trivial
  fault _ _ _ := trivial
  outOfFuel := trivial
  parts _ _ := trivial
  function _ _ := trivial
  meaning _ := .inr fun _ => trivial
  copied {m v} state _ := ⟨onward_leads state (.of_grown (.copy m.store v) id), trivial⟩
  pushed {m} shape {c} state _ :=
    ⟨onward_leads state (.of_grown (.push m.store shape c) id), trivial⟩
  stored {m _ ref} k {v} _ state _ _ := onward_leads state (.storedAt m ref k v)
  world _ _ _ _ _ state := onward_leads state (.of_same rfl rfl)
  stmtParts _ _ := trivial
  stmtBlocks _ _ _ := trivial
  stmtMeaning _ := .inr fun _ => trivial
  bound {m} n {v} _ state _ := onward_leads state (.boundTo m n v)
  boundEntry {m} n k {v} _ state _ := onward_leads state (.boundToEntry m n k v)
  prompt _ _ := trivial
  closed {m n} state leads := onward_leads state (leads.2.trans (.closedTo n _))
  given {m n v} _ leads _ := ⟨leads.1.trans (.of_same rfl rfl), leads.2.trans (.of_same rfl rfl)⟩
  broken state _ := onward_leads state (.of_same rfl rfl)
  ended state := onward_leads state (.of_same rfl rfl)
  marked _ _ state := onward_leads state (.of_same rfl rfl)
  body _ _ := trivial
  returned {m n k v} state leads taken := by
    have popped : Onward x n k := by
      rcases takeReturn_cases taken with ⟨_, _, rfl⟩ | ⟨rest, _, rfl⟩
      · exact .of_same rfl rfl
      · exact .of_same rfl rfl
    have copied : Onward x k (k.copied v) := .of_grown (.copy k.store v) id
    refine ⟨onward_leads state ?_, trivial⟩
    exact ((leads.2.trans popped).trans copied).trans (.closedTo _ _)
  entered state _ := Onward.trans state (.of_same rfl rfl)
  left {m n receiver} state leads := by
    have entered : Onward x m { m with receiver := receiver } := .of_same rfl rfl
    exact onward_leads state ((entered.trans leads.2).trans (.of_same rfl rfl))
  importing _ state := Onward.trans state (.importing _)
  resuming _ state leads := onward_leads state (.resuming leads.2)

theorem onward_admits (x : Text) (start : Machine) (files : Text → Option Text) :
    (onward x start).Admits files :=
  fun _ _ _ _ => ⟨fun _ _ _ _ _ _ => trivial, fun _ _ _ => trivial⟩

variable {fuel : Nat} {s : Surroundings}

theorem Meets.onward {body : Block} (meets : Meets fuel s body m n) (x : Text) : Onward x m n :=
  meets.state (onward_laws x m) (onward_admits x m s.files) (fun _ _ => trivial) (.of_same rfl rfl)

theorem block_onward {body : Block} (ran : Eval.block (calls fuel s) body m = .ok () n) (x : Text) :
    Onward x m n :=
  ((Discipline.run_follows (onward_laws x m) (onward_admits x m s.files) (.of_same rfl rfl)
    fun _ _ => trivial).of_ran ran).1.1

theorem eval_onward {e : Node} {v : Value} (ran : (calls fuel s).eval e m = .ok v n) (x : Text) :
    Onward x m n :=
  ((Discipline.eval_follows (onward_laws x m) (onward_admits x m s.files) (.of_same rfl rfl)
    trivial).of_ran ran).1.1

end Laws

/-! ## Assignments into the loop object -/

section Assignments

variable {x : Text} {m n : Machine} {kept given : Nat → Prop} {fuel : Nat} {s : Surroundings}

/-- A change on one side is not seen from the other. -/
theorem view_of_sides (ranked : n.store.Ranked) (sides : n.Sides x kept given) {ref target : Nat}
    (held : kept ref) (changed : given target) (shape : Shape) (k : Scalar) (v : Value) :
    (n.storedAt target k v).store.view (.container shape ref) =
      n.store.view (.container shape ref) := by
  refine view_storedAt k v (sides.givenClosed.inside changed) ranked fun shape' root same => ?_
  obtain ⟨_, rfl⟩ := Value.container.inj same
  exact ⟨sides.keptClosed.inside held, fun path route =>
    sides.apart (sides.keptClosed.route held route) changed⟩

/-- The sides of a round: the containers that were there, and those of the loop object. -/
theorem sides_boundToEntry (ranked : m.store.Ranked) (n : Text) (k : Scalar) (v : Value) :
    (m.boundToEntry n k v).Sides n (· < m.store.cells.size) fun ref =>
      m.store.cells.size ≤ ref ∧ ref < (m.boundToEntry n k v).store.cells.size where
  keptClosed := (Store.Closed.all ranked).later (.boundToEntry m n k v)
  givenClosed := .boundToEntry m n k v
  apart before new := Nat.not_lt_of_le new.1 before
  bound {shape ref} found := by
    rw [find?_loopObject, Option.some.injEq] at found
    obtain ⟨_, rfl⟩ := Value.container.inj found
    exact m.loopObject_new n k v

/-- A walk that starts on one side stays on it. -/
theorem walk_sides {path : List Node} {v w : Value} {parent above : Option Value}
    (sides : m.Sides x kept given) (among : v.Among given)
    (ran : Eval.walk (calls fuel s) v parent path m = .ok (w, above) n) :
    ∃ kept' given', (∀ ref, kept ref → kept' ref) ∧ n.Sides x kept' given' ∧ w.Among given' := by
  induction path generalizing m v parent kept given with
  | nil =>
      cases ran
      exact ⟨kept, given, fun _ => id, sides, among⟩
  | cons e rest ih =>
      obtain ⟨shape, ref, k, next, m₁, rfl, evaluated, found, ran⟩ := Eval.walk_cons_eq_ok ran
      obtain ⟨kept₁, given₁, stays, stays', sides⟩ := (eval_onward evaluated x).sides sides
      obtain ⟨key, member, -⟩ := OrderedMap.exists_mem_entries _ found
      have inside : next.Among given₁ := by
        cases next with
        | container shape' inner => exact sides.givenClosed.entry (stays' ref among) member
        | _ => trivial
      obtain ⟨kept', given', goes, sides', among'⟩ := ih sides inside ran
      exact ⟨kept', given', fun ref held => goes ref (stays ref held), sides', among'⟩

/-- The container that an assignment to an entry of a name's value finds is on the side of the
name. -/
theorem target_sides {path : List Node} {value : Node} {ref : Nat} {k : Scalar} {v : Value}
    (named : x ≠ "self") (sides : m.Sides x kept given)
    (ran : Eval.target (calls fuel s) (.name x) path value m = .ok (ref, k, v) n) :
    ∃ kept' given', (∀ ref, kept ref → kept' ref) ∧ n.Sides x kept' given' ∧ given' ref := by
  obtain ⟨old, m₀, front, last, shape, above, m₁, m₂, rfl, looked, walked, keyed, evaluated⟩ :=
    Eval.target_eq_ok ran
  obtain ⟨rfl, bound⟩ := eval_name_eq_ok named looked
  have among : old.Among given := by
    cases old with
    | container shape' root => exact sides.bound bound
    | _ => trivial
  obtain ⟨kept₁, given₁, stays, sides, held⟩ := walk_sides sides among walked
  obtain ⟨kept', given', goes, goes', sides⟩ :=
    ((eval_onward (Eval.eval_of_key keyed) x).trans (eval_onward evaluated x)).sides sides
  exact ⟨kept', given', fun ref held => goes ref (stays ref held), sides, goes' ref held⟩

end Assignments

/-! ## Rounds over the keys of a container -/

theorem enterKey_apart {m : Machine} (state : m.Apart {}) (n : Text) (ref : Nat) (k : Scalar) :
    (Eval.enterKey n ref k m).Apart {} := by
  have value : (((m.store.get ref).get? k).getD .null).Fits .any m.store := by
    cases found : (m.store.get ref).get? k with
    | none => trivial
    | some v =>
        obtain ⟨key, member, -⟩ := OrderedMap.exists_mem_entries _ found
        exact (state.fits.store ref).value member
  exact ((apart_laws {}).boundEntry n k trivial state ⟨value, .of_empty _⟩).1

theorem each_eq {c : Calls} {n : Text} {collection : Node} {body : Block} {m l : Machine}
    {shape : Shape} {ref : Nat} (evaluated : c.eval collection m = .ok (.container shape ref) l) :
    Eval.each c n collection body m =
      Eval.loopRegion (fun d => Eval.rounds c body (Eval.enterKey n ref) d
        (l.store.get ref).keys) l := by
  rw [Eval.each, Run.bind_of_ok evaluated]
  dsimp only
  rw [Run.get_bind]
  simp only [Eval.eachRounds_eq]

/-- What a round finds at its key. -/
theorem get?_visited {m : Machine} {ref : Nat} {k : Scalar}
    (key : k ∈ (m.store.get ref).keys) :
    (k.isLost = false →
      (m.store.get ref).get? k = some (((m.store.get ref).get? k).getD .null)) ∧
    (k.isLost = true → ((m.store.get ref).get? k).getD .null = .null) := by
  constructor
  · intro findable
    obtain ⟨v, found⟩ := (m.store.get ref).get?_of_mem_keys key findable
    rw [found]
    rfl
  · intro lost
    rw [Container.get?_of_isLost _ lost]
    rfl

section Collections

variable {fuel : Nat} {s : Surroundings} {body : Block} {n : Text} {ref : Nat}

/-- The rounds of a loop over a container, each with a key that the container still has. -/
theorem exists_each_rounds (n : Text) (body : Block) {m l : Machine} {collection : Node}
    {shape : Shape} (state : m.Apart {})
    (evaluated : (calls fuel s).eval collection m = .ok (.container shape ref) l) :
    ∃ runs result,
      Eval.Rounds (calls fuel s) body (Eval.enterKey n ref) l (l.store.get ref).keys l runs
        result ∧
      Eval.each (calls fuel s) n collection body m = Eval.closed l.bindings.names result ∧
      ∀ k before, (k, before) ∈ runs → before.Apart {} ∧ ref < before.store.cells.size ∧
        k ∈ (before.store.get ref).keys := by
  obtain ⟨state, inside⟩ := eval_apart state evaluated
  obtain ⟨runs, result, rounds, same⟩ := Eval.loopRegion_rounds (calls fuel s) body
    (fun k m => ⟨rfl, rfl⟩ : ∀ k m, SameSignals m (Eval.enterKey n ref k m))
    (l.store.get ref).keys l
  have visited : ∀ run ∈ runs, run.2.Apart {} ∧ Onward n l run.2 := by
    refine rounds.invariant (P := fun k => k.Apart {} ∧ Onward n l k)
      ⟨state, .of_same rfl rfl⟩ ?_ ?_
    · rintro k m ⟨state, onward⟩
      exact ⟨enterKey_apart state n ref k, onward.trans (.boundToEntry m n k _)⟩
    · rintro m m' ⟨state, onward⟩ ran
      have last : (Block.run fuel s body).last m = m' := Run.last_of_ok ran
      exact ⟨last ▸ Discipline.run_last (apart_laws {}) (apart_admits {} s.files) state
        fun _ _ _ _ _ _ => trivial, onward.trans (block_onward ran n)⟩
  refine ⟨runs, result, rounds, (each_eq evaluated).trans same, fun k before run => ?_⟩
  obtain ⟨state', onward⟩ := visited _ run
  -- what the rounds before did to the container may have added keys but has taken none away
  have key : k ∈ (l.store.get ref).keys := rounds.items_first.subset (List.mem_map_of_mem run)
  exact ⟨state', Nat.lt_of_lt_of_le inside onward.longer, (onward.keys inside).subset key⟩

variable {before now : Machine} {k : Scalar} (state : before.Apart {})
  (held : ref < before.store.cells.size)
  (meets : Meets fuel s body (Eval.enterKey n ref k before) now)
include state held meets

/-- At any moment of a round, the container and the value of the loop name are on two sides. -/
theorem sides_of_meets : ∃ kept given, now.Sides n kept given ∧ kept ref := by
  obtain ⟨kept, given, stays, _, sides⟩ :=
    (meets.onward n).sides (sides_boundToEntry state.ranked n k _)
  exact ⟨kept, given, sides, stays ref held⟩

theorem disjoint_of_meets {shape : Shape} {root inner : Nat} {path route : List (Nat × Scalar)}
    (bound : now.bindings.find? n = some (.container shape root))
    (leads : now.store.Route root path inner) : ¬now.store.Route ref route inner := by
  intro other
  obtain ⟨kept, given, sides, there⟩ := sides_of_meets state held meets
  exact sides.apart (sides.keptClosed.route there other)
    (sides.givenClosed.route (sides.bound bound) leads)

theorem view_of_meets (shape : Shape) {fuel' : Nat} {s' : Surroundings} {path : List Node}
    {value : Node} {target : Nat} {key : Scalar} {w : Value} {later : Machine}
    (named : n ≠ "self")
    (found : Eval.target (calls fuel' s') (.name n) path value now = .ok (target, key, w) later) :
    (later.storedAt target key w).store.view (.container shape ref) =
      later.store.view (.container shape ref) := by
  obtain ⟨kept, given, sides, there⟩ := sides_of_meets state held meets
  have met : now.Apart {} := meets.state (apart_laws {}) (apart_admits {} s.files)
    (fun _ _ _ _ _ _ => trivial) (enterKey_apart state n ref k)
  obtain ⟨⟨_, ranked, _⟩, _⟩ := target_apart met found
  obtain ⟨kept', given', goes, sides, changed⟩ := target_sides named sides found
  exact view_of_sides ranked sides (goes ref there) changed shape key w

end Collections

/-- **Loops over collections.** Let the collection of a loop evaluate to a container in a reachable
state. The body is run for the keys that the container has then, in their order, until a run fails
or leaves a signal pending, and at the end the names bound inside are dropped. So there are at most
as many runs as the container had entries.

Each run starts with the name of the loop bound to a new object, which amounts to the key and to
what is at the key at that time; only a key that cannot be looked up is given null. At any moment
of the run, no container is both in the value of that name and in the collection, and an assignment
to an entry of the value of that name does not change what the collection amounts to. -/
theorem each_loop_visits {m l : Machine} (reachable : Reachable m) {fuel : Nat} {s : Surroundings}
    (line : Int) (n : Text) {collection : Node} (body : Block) {shape : Shape} {ref : Nat}
    (evaluated : (calls fuel s).eval collection m = .ok (.container shape ref) l) :
    ∃ runs result,
      Eval.Rounds (calls fuel s) body (Eval.enterKey n ref) l (l.store.get ref).keys l runs
        result ∧
      (calls (fuel + 1) s).exec ⟨line, .each n collection body⟩ m =
        Eval.closed l.bindings.names result ∧
      runs.map Prod.fst <+: (l.store.get ref).keys ∧
      runs.length ≤ (l.store.get ref).size ∧
      ∀ k before, (k, before) ∈ runs →
        ∃ v object,
          (k.isLost = false → (before.store.get ref).get? k = some v) ∧
          (k.isLost = true → v = .null) ∧
          before.store.cells.size ≤ object ∧
          (Eval.enterKey n ref k before).bindings.find? n = some (.container .object object) ∧
          (Eval.enterKey n ref k before).store.view (.container .object object) =
            .container .object ⟨[(.string "key", some (.scalar k)),
              (.string "value", some (before.store.view v))]⟩ ∧
          ∀ now, Meets fuel s body (Eval.enterKey n ref k before) now →
            (∀ shape' root path route inner,
              now.bindings.find? n = some (.container shape' root) →
              now.store.Route root path inner → ¬now.store.Route ref route inner) ∧
            ∀ fuel' s' path value target key w later, n ≠ "self" →
              Eval.target (calls fuel' s') (.name n) path value now = .ok (target, key, w) later →
              (later.storedAt target key w).store.view (.container shape ref) =
                later.store.view (.container shape ref) := by
  obtain ⟨runs, result, rounds, same, visited⟩ :=
    exists_each_rounds n body reachable.apart evaluated
  refine ⟨runs, result, rounds, same, rounds.items_first, ?_, fun k before run => ?_⟩
  · exact rounds.length_le
  · obtain ⟨state, held, key⟩ := visited k before run
    obtain ⟨found, lost⟩ := get?_visited key
    have started := enterKey_apart state n ref k
    refine ⟨_, before.loopObject _, found, lost, (before.loopObject_new n k _).1,
      find?_loopObject before n k _, view_loopObject before n k _ started.ranked,
      fun now meets => ⟨?_, ?_⟩⟩
    · intro shape' root path route inner bound leads
      exact disjoint_of_meets state held meets bound leads
    · intro fuel' s' path value target key w later named found
      exact view_of_meets state held meets shape named found

/-- The body adds an entry to the collection in each run and writes into the loop object. It is
still run for the two first keys only, and shares no container with the collection. -/
theorem each_loop_visits_growing :
    let m := (Block.run 9 {} [
      ⟨1, .bind "a" (.container .object ⟨[(.string "k", some (.container .object
        ⟨[(.string "n", some (.text "old"))]⟩)), (.string "j", some (.text "s"))]⟩)⟩]).last
      (Machine.start [])
    let body : Block := [
      ⟨2, .assign (.name "a")
        [.arithmetic (.index (.name "o") [.text "key"]) .plus (.text "2")] (.text "more")⟩,
      ⟨3, .assign (.name "o") [.text "value", .text "n"] (.text "new")⟩]
    Reachable m ∧ ∃ shape ref runs result,
      (calls 8 {}).eval (.name "a") m = .ok (.container shape ref) m ∧
      Eval.Rounds (calls 8 {}) body (Eval.enterKey "o" ref) m [.string "k", .string "j"] m runs
        result ∧
      (calls 9 {}).exec ⟨2, .each "o" (.name "a") body⟩ m =
        Eval.closed m.bindings.names result ∧
      runs.map Prod.fst <+: [.string "k", .string "j"] ∧
      ∀ k before now root path route inner, (k, before) ∈ runs →
        Meets 8 {} body (Eval.enterKey "o" ref k before) now →
        now.bindings.find? "o" = some (.container .object root) →
        now.store.Route root path inner → ¬now.store.Route ref route inner := by
  intro m body
  have reachable : Reachable m := .run (.start []) (.last 9 {} _ _)
  have evaluated : (calls 8 {}).eval (.name "a") m = .ok (.container .object 3) m := rfl
  obtain ⟨runs, result, rounds, same, order, _, each⟩ :=
    each_loop_visits reachable 2 "o" body evaluated
  refine ⟨reachable, _, _, runs, result, evaluated, rounds, same, order, ?_⟩
  intro k before now root path route inner run meets bound leads
  obtain ⟨_, _, _, _, _, _, _, moments⟩ := each k before run
  exact (moments now meets).1 _ root path route inner bound leads

/-- The entry at a nan has a round, but its value is not found: the loop object has null there. -/
theorem each_loop_visits_nan_key :
    let nan : Float := .ofBits 0x7FF8000000000001
    let m := (Block.run 9 {} [
      ⟨1, .bind "y" (.text "none")⟩, ⟨2, .bind "x" (.container .object ⟨[]⟩)⟩,
      ⟨3, .assign (.name "x") [.literal (.number nan)] (.text "v")⟩]).last (Machine.start [])
    let body : Block := [⟨4, .bind "y" (.index (.name "e") [.text "value"])⟩]
    Reachable m ∧ ∃ m', (calls 9 {}).exec ⟨4, .each "e" (.name "x") body⟩ m = .ok () m' ∧
      m'.bindings.find? "y" = some .null ∧ m'.bindings.find? "y" ≠ some (.text "v") := by
  exact ⟨.run (.start []) (.last 9 {} _ _), _, rfl, rfl, nofun⟩

end EplLang
