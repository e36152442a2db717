import EplLang.Proofs.Passing
import EplLang.Proofs.Sharing

/-!
# Assignment into a container

An indexed assignment looks for a container, a key and a value, and then sets one entry of
this container to a copy of the value. The search changes nothing that a name is bound to, as
long as it calls no function (`still`), and after it nothing can fail (`Eval.assign_eq`).

What the change amounts to is said of values written out (`Data.Updates`): along a path of keys
from the value of a name, the entries on the path are replaced and all others stay. The
container that is changed occurs once among all that names are bound to, since no container is
shared; so other entries and other names do not reach it, and a value that does not reach it
amounts to what it did (`view_storedAt`).
-/

set_option autoImplicit false

namespace EplLang

/-! ## Values written out -/

/-- One value is another with the entry at a path of keys set to a given value. An entry that is
there keeps its place and its key; a new one comes last. A key that cannot be looked up is always
new, and its entry has no value. -/
inductive Data.Updates (given : Data) : List Scalar → Data → Data → Prop where
  | replace {shape : Shape} {k key : Scalar} {old : Option Data}
      {before after : List (Scalar × Option Data)} :
      (∀ entry ∈ before, Scalar.same entry.1 k = false) → Scalar.same key k = true →
      Updates given [k] (.container shape ⟨before ++ (key, old) :: after⟩)
        (.container shape ⟨before ++ (key, some given) :: after⟩)
  | append {shape : Shape} {k : Scalar} {entries : List (Scalar × Option Data)} :
      (∀ entry ∈ entries, Scalar.same entry.1 k = false) →
      Updates given [k] (.container shape ⟨entries⟩)
        (.container shape ⟨entries ++ [(k, if k.isLost then none else some given)]⟩)
  | inside {shape : Shape} {k key : Scalar} {path : List Scalar} {inner inner' : Data}
      {before after : List (Scalar × Option Data)} :
      (∀ entry ∈ before, Scalar.same entry.1 k = false) → Scalar.same key k = true →
      Updates given path inner inner' →
      Updates given (k :: path) (.container shape ⟨before ++ (key, some inner) :: after⟩)
        (.container shape ⟨before ++ (key, some inner') :: after⟩)

namespace Store

variable {s : Store}

/-- The entries of a container written out. -/
def viewEntries (s : Store) (entries : List (Scalar × Option Value)) :
    List (Scalar × Option Data) := entries.map fun (k, v) => (k, v.map s.view)

/-- A container amounts to what its entries amount to. -/
theorem Ranked.view_container (ranked : s.Ranked) (shape : Shape) {ref : Nat}
    (inside : ref < s.cells.size) :
    s.view (.container shape ref) = .container shape ⟨s.viewEntries (s.get ref).entries⟩ := by
  obtain ⟨rank, ranked⟩ := ranked
  have agrees : s.Agrees (· < s.cells.size) s :=
    ⟨Nat.le_refl _, id, fun _ => rfl, fun _ member => (ranked.entry member).1⟩
  obtain ⟨depth, deep⟩ : ∃ depth, s.cells.size = depth + 1 := ⟨s.cells.size - 1, by omega⟩
  have entries : ∀ entry ∈ (s.get ref).entries,
      (entry.1, entry.2.map (s.viewTo depth)) = (entry.1, entry.2.map s.view) := by
    rintro ⟨k, found⟩ member
    cases found with
    | none => rfl
    | some v =>
        have same : s.viewTo depth v = s.view v := by
          refine agrees.viewTo_eq ranked _ _ fun shape' inner container => ?_
          obtain ⟨inner_inside, lower⟩ := ranked.entry (container ▸ member)
          have highest := ranked.below inside
          have below := ranked.below inner_inside
          exact ⟨inner_inside, below, by omega⟩
        simp only [Option.map_some, same]
  rw [view, deep, viewTo]
  exact congrArg (fun entries => Data.container shape ⟨entries⟩) (List.map_congr_left entries)

theorem viewEntries_congr {s' : Store} {entries : List (Scalar × Option Value)}
    (same : ∀ k v, (k, some v) ∈ entries → s'.view v = s.view v) :
    s'.viewEntries entries = s.viewEntries entries := by
  refine List.map_congr_left ?_
  rintro ⟨k, found⟩ member
  cases found with
  | none => rfl
  | some v => simp only [Option.map_some, same k v member]

theorem viewEntries_append (before after : List (Scalar × Option Value)) :
    s.viewEntries (before ++ after) = s.viewEntries before ++ s.viewEntries after :=
  List.map_append

theorem viewEntries_cons (k : Scalar) (v : Option Value) (after : List (Scalar × Option Value)) :
    s.viewEntries ((k, v) :: after) = (k, v.map s.view) :: s.viewEntries after := rfl

theorem viewEntries_absent {k : Scalar} {entries : List (Scalar × Option Value)}
    (absent : ∀ entry ∈ entries, Scalar.same entry.1 k = false) :
    ∀ entry ∈ s.viewEntries entries, Scalar.same entry.1 k = false := by
  intro entry member
  obtain ⟨old, there, rfl⟩ := List.mem_map.mp member
  exact absent old there

theorem Ranked.lt_size_of_route (ranked : s.Ranked) {start ref : Nat} {path : List (Nat × Scalar)}
    (inside : start < s.cells.size) (route : s.Route start path ref) : ref < s.cells.size := by
  obtain ⟨rank, ranked⟩ := ranked
  cases route with
  | here => exact inside
  | step _ entry => exact (ranked.entry (List.mem_of_getElem? entry)).1

end Store

/-! ## Setting an entry to a copy -/

section Stored

variable {n : Machine} {ref : Nat} (k : Scalar) (v : Value)

variable (inside : ref < n.store.cells.size)
include inside

theorem get_storedAt : (n.storedAt ref k v).store.get ref =
    (n.store.get ref).set k (n.store.copy v).1 :=
  (Store.get_put_copy inside k v ref).trans (if_pos rfl)

theorem get_storedAt_of_ne {other : Nat} (differs : other ≠ ref)
    (old : other < n.store.cells.size) :
    (n.storedAt ref k v).store.get other = n.store.get other :=
  (Store.get_put_copy inside k v other).trans
    ((if_neg differs).trans (Store.get_copy_of_lt v old))

variable (ranked : n.store.Ranked)
include ranked

theorem ranked_storedAt : (n.storedAt ref k v).store.Ranked := ranked.putCopy inside k v

/-- A value that does not reach the container that is changed amounts to what it did. -/
theorem view_storedAt {w : Value} (apart : ∀ shape root, w = .container shape root →
      root < n.store.cells.size ∧ ∀ path, ¬n.store.Route root path ref) :
    (n.storedAt ref k v).store.view w = n.store.view w := by
  have agrees : n.store.Agrees
      (fun other => ∃ shape root path, w = .container shape root ∧ n.store.Route root path other)
      (n.storedAt ref k v).store := by
    constructor
    · exact n.size_le_storedAt ref k v
    · rintro other ⟨shape, root, path, container, route⟩
      exact ranked.lt_size_of_route (apart shape root container).1 route
    · rintro other ⟨shape, root, path, container, route⟩
      obtain ⟨root_inside, unreached⟩ := apart shape root container
      have differs : other ≠ ref := by
        rintro rfl
        exact unreached path route
      exact get_storedAt_of_ne k v inside differs (ranked.lt_size_of_route root_inside route)
    · rintro other inner key shape ⟨shape', root, path, container, route⟩ member
      obtain ⟨place, entry⟩ := List.mem_iff_getElem?.mp member
      exact ⟨shape', root, _, container, .step route entry⟩
  exact agrees.view_eq ranked fun shape root container => ⟨shape, root, [], container, .here⟩

/-- The copy that is put into the container amounts to what was copied. -/
theorem view_storedAt_copy :
    (n.storedAt ref k v).store.view (n.store.copy v).1 = n.store.view v := by
  obtain ⟨written, root⟩ := Store.copy_entry n.store v
  have agrees : (n.store.copy v).2.Agrees
      (fun other => n.store.cells.size ≤ other ∧ other < (n.store.copy v).2.cells.size)
      (n.storedAt ref k v).store := by
    constructor
    · exact Nat.le_of_eq (Store.size_put _ _ _).symm
    · exact fun within => within.2
    · rintro other ⟨new, _⟩
      exact (Store.get_put_copy inside k v other).trans (if_neg (by omega))
    · rintro other inner key shape ⟨new, made⟩ member
      obtain ⟨inner_new, before⟩ := written other key shape inner new member
      exact ⟨inner_new, Nat.lt_trans before made⟩
  exact (agrees.view_eq (ranked.copy v) root).trans (Store.view_copy (.refl _))

end Stored

/-! ## The place of a change -/

/-- Some keys, looked up one after another, lead from one value to another. -/
inductive Store.Finds (s : Store) : Value → List Scalar → Value → Prop where
  | here {v : Value} : Finds s v [] v
  | step {shape : Shape} {ref : Nat} {k : Scalar} {path : List Scalar} {v w : Value} :
      (s.get ref).get? k = some v → Finds s v path w → Finds s (.container shape ref) (k :: path) w

theorem Store.Finds.isContainer {s : Store} {v : Value} {path : List Scalar} {shape : Shape}
    {ref : Nat} (finds : s.Finds v path (.container shape ref)) :
    ∃ shape ref, v = .container shape ref := by
  cases finds with
  | here => exact ⟨_, _, rfl⟩
  | step => exact ⟨_, _, rfl⟩

section Places

variable {n : Machine} {home : Nat → Option Slot} (bound : n.bindings.Housed home)
  (store : n.store.Housed home)
include bound store

/-- The first step on the way to a container inside another is the entry that reaches it. -/
theorem Housed.route_through {x : Text} {path route inner : List (Nat × Scalar)}
    {start ref place first : Nat} {key : Scalar} {shape : Shape}
    (reached : n.bindings.Reaches n.store x path start) (whole : n.store.Route start route ref)
    (entry : (n.store.get start).entries[place]? = some (key, some (.container shape first)))
    (rest : n.store.Route first inner ref) : route = inner ++ [(place, key)] := by
  obtain ⟨shape', root, member, before⟩ := reached
  have direct : n.bindings.Reaches n.store x (route ++ path) ref :=
    ⟨shape', root, member, before.trans whole⟩
  have through : n.bindings.Reaches n.store x (inner ++ (place, key) :: path) ref :=
    ⟨shape', root, member, (Store.Route.step before entry).trans rest⟩
  have same := (Housed.route_unique bound store direct through).2
  rw [List.append_cons] at same
  exact List.append_cancel_right same

variable (ranked : n.store.Ranked) {x : Text} {ref : Nat} (k : Scalar) (v : Value)
include ranked

/-- An entry that is not on the way to the container that is changed amounts to what it did. -/
theorem view_entry_storedAt {path route : List (Nat × Scalar)} {start place : Nat} {key : Scalar}
    {w : Value} (reached : n.bindings.Reaches n.store x path start)
    (whole : n.store.Route start route ref) (inside : ref < n.store.cells.size)
    (entry : (n.store.get start).entries[place]? = some (key, some w))
    (off : ∀ inner, route ≠ inner ++ [(place, key)]) :
    (n.storedAt ref k v).store.view w = n.store.view w := by
  refine view_storedAt k v inside ranked fun shape root container => ?_
  rw [container] at entry
  obtain ⟨rank, ranked⟩ := ranked
  refine ⟨(ranked.entry (List.mem_of_getElem? entry)).1, fun inner rest => ?_⟩
  exact off inner (Housed.route_through bound store reached whole entry rest)

/-- What a container amounts to after one of its entries is set to a copy. -/
theorem updates_here {path : List (Nat × Scalar)} (shape : Shape)
    (reached : n.bindings.Reaches n.store x path ref) (inside : ref < n.store.cells.size) :
    (n.store.view v).Updates [k] (n.store.view (.container shape ref))
      ((n.storedAt ref k v).store.view (.container shape ref)) := by
  have unchanged : ∀ key w, (key, some w) ∈ (n.store.get ref).entries →
      (n.storedAt ref k v).store.view w = n.store.view w := by
    intro key w member
    obtain ⟨place, entry⟩ := List.mem_iff_getElem?.mp member
    exact view_entry_storedAt bound store ranked k v reached .here inside entry (by simp)
  have copied := view_storedAt_copy k v inside ranked
  rw [ranked.view_container shape inside, (ranked_storedAt k v inside ranked).view_container shape
    (Nat.lt_of_lt_of_le inside (n.size_le_storedAt ref k v)), get_storedAt k v inside,
    Container.entries_set]
  generalize (n.store.get ref).entries = entries at unchanged ⊢
  rcases OrderedMap.split_keys k entries with absent | ⟨before, key, old, after, rfl, same, earlier⟩
  · rw [OrderedMap.put_of_absent absent, Store.viewEntries_append,
      Store.viewEntries_congr unchanged, Store.viewEntries_cons, apply_ite (Option.map _),
      Option.map_none, Option.map_some, copied]
    exact .append (Store.viewEntries_absent absent)
  · have findable : ¬k.isLost = true := by
      simp [Scalar.isLost, show Scalar.same k k = true from Key.same_self same]
    rw [if_neg findable, OrderedMap.put_of_split earlier same, Store.viewEntries_append,
      Store.viewEntries_cons, Store.viewEntries_append, Store.viewEntries_cons, Option.map_some,
      copied, Store.viewEntries_congr fun key w member => unchanged key w (by simp [member]),
      Store.viewEntries_congr fun key w member => unchanged key w (by simp [member])]
    exact .replace (Store.viewEntries_absent earlier) same

/-- **Setting an entry updates the value of the name.** The induction is on the keys that lead
from a container of the name to the one that is changed. -/
theorem updates_of_finds {keys : List Scalar} {shape shape' : Shape} {start : Nat}
    {path : List (Nat × Scalar)} (inside : ref < n.store.cells.size)
    (reached : n.bindings.Reaches n.store x path start)
    (finds : n.store.Finds (.container shape' start) keys (.container shape ref)) :
    (∃ route, n.store.Route start route ref) ∧
    (n.store.view v).Updates (keys ++ [k]) (n.store.view (.container shape' start))
      ((n.storedAt ref k v).store.view (.container shape' start)) := by
  induction keys generalizing shape' start path with
  | nil =>
      cases finds
      exact ⟨⟨[], .here⟩, updates_here bound store ranked k v shape reached inside⟩
  | cons first keys ih =>
      cases finds with
      | step found finds =>
      obtain ⟨shape₁, inner, rfl⟩ := finds.isContainer
      obtain ⟨before, key, after, entries, same, earlier⟩ := OrderedMap.split_of_get? _ found
      have entry : (n.store.get start).entries[before.length]? =
          some (key, some (.container shape₁ inner)) := by simp [entries]
      obtain ⟨shape₀, root, member, route⟩ := reached
      obtain ⟨⟨rest, onward⟩, updates⟩ := ih ⟨shape₀, root, member, .step route entry⟩ finds
      have reached : n.bindings.Reaches n.store x path start := ⟨shape₀, root, member, route⟩
      have whole : n.store.Route start (rest ++ [(before.length, key)]) ref :=
        (Store.Route.step .here entry).trans onward
      -- the container is not the one that is changed, since that one is inside it
      have differs : start ≠ ref := by
        rintro rfl
        simpa using Housed.not_inside_self bound store reached whole
      have old : start < n.store.cells.size := store.inside (Housed.of_reaches bound store reached)
      have unchanged : ∀ place other w,
          (n.store.get start).entries[place]? = some (other, some w) → place ≠ before.length →
            (n.storedAt ref k v).store.view w = n.store.view w := by
        intro place other w there apart
        refine view_entry_storedAt bound store ranked k v reached whole inside there
          fun _ same => ?_
        have last := (List.append_inj_right' same rfl)
        simp only [List.cons.injEq, Prod.mk.injEq, and_true] at last
        exact apart last.1.symm
      have earlier_same : (n.storedAt ref k v).store.viewEntries before =
          n.store.viewEntries before := by
        refine Store.viewEntries_congr fun other w there => ?_
        obtain ⟨place, there⟩ := List.mem_iff_getElem?.mp there
        obtain ⟨short, _⟩ := List.getElem?_eq_some_iff.mp there
        refine unchanged place other w ?_ (by omega)
        rw [entries, List.getElem?_append_left short, there]
      have later_same : (n.storedAt ref k v).store.viewEntries after =
          n.store.viewEntries after := by
        refine Store.viewEntries_congr fun other w there => ?_
        obtain ⟨place, there⟩ := List.mem_iff_getElem?.mp there
        refine unchanged (before.length + (place + 1)) other w ?_ (by omega)
        rw [entries, List.getElem?_append_right (by omega)]
        simpa using there
      refine ⟨⟨_, whole⟩, ?_⟩
      rw [ranked.view_container shape' old, (ranked_storedAt k v inside ranked).view_container
        shape' (Nat.lt_of_lt_of_le old (n.size_le_storedAt ref k v)),
        get_storedAt_of_ne k v inside differs old, entries]
      simp only [Store.viewEntries_append, Store.viewEntries_cons, Option.map_some, earlier_same,
        later_same]
      exact .inside (Store.viewEntries_absent earlier) same updates

end Places

/-! ## What an assignment looks for -/

namespace Eval

theorem eval_of_key {c : Calls} {e : Node} {k : Scalar} {m n : Machine}
    (keyed : key c e m = .ok k n) : c.eval e m = .ok (.scalar k) n := by
  obtain ⟨v, n, evaluated, keyed⟩ := Run.bind_eq_ok.mp keyed
  cases v with
  | scalar x =>
      cases keyed
      exact evaluated
  | function site params body => cases keyed
  | container shape ref => cases keyed

/-- A walk takes its first step from a container in which the key is found. -/
theorem walk_cons_eq_ok {c : Calls} {e : Node} {rest : List Node} {v w : Value}
    {parent above : Option Value} {m n : Machine}
    (ran : walk c v parent (e :: rest) m = .ok (w, above) n) :
    ∃ shape ref k next m₁, v = .container shape ref ∧ c.eval e m = .ok (.scalar k) m₁ ∧
      (m₁.store.get ref).get? k = some next ∧ walk c next (some v) rest m₁ = .ok (w, above) n := by
  cases v with
  | container shape ref =>
      obtain ⟨k, m₁, keyed, ran⟩ := Run.bind_eq_ok.mp ran
      rw [Run.get_bind] at ran
      cases found : (m₁.store.get ref).get? k with
      | none =>
          rw [found] at ran
          cases ran
      | some next =>
          rw [found] at ran
          exact ⟨shape, ref, k, next, m₁, rfl, eval_of_key keyed, found, ran⟩
  | scalar x => cases ran
  | function site params body => cases ran

theorem all_cons_of_ok {c : Calls} {e : Node} {rest : List Node} {m k n : Machine} {v : Value}
    {vs : List Value} (first : c.eval e m = .ok v k) (others : all c rest k = .ok vs n) :
    all c (e :: rest) m = .ok (v :: vs) n := by
  rw [all, Run.bind_of_ok first, Run.bind_of_ok others]
  rfl

theorem all_append_of_ok {c : Calls} {before after : List Node} {m k n : Machine}
    {us ws : List Value} (first : all c before m = .ok us k) (second : all c after k = .ok ws n) :
    all c (before ++ after) m = .ok (us ++ ws) n := by
  induction before generalizing m us with
  | nil =>
      cases first
      exact second
  | cons e rest ih =>
      obtain ⟨v, l, evaluated, first⟩ := Run.bind_eq_ok.mp first
      obtain ⟨others, k, first, made⟩ := Run.bind_eq_ok.mp first
      cases made
      exact all_cons_of_ok evaluated (ih first)

theorem target_eq_ok {c : Calls} {base value : Node} {path : List Node} {m n : Machine}
    {ref : Nat} {k : Scalar} {v : Value} (ran : target c base path value m = .ok (ref, k, v) n) :
    ∃ old m₀ front last shape above m₁ m₂, path = front ++ [last] ∧ c.eval base m = .ok old m₀ ∧
      walk c old none front m₀ = .ok (.container shape ref, above) m₁ ∧
      key c last m₁ = .ok k m₂ ∧ c.eval value m₂ = .ok v n := by
  obtain ⟨old, m₀, based, ran⟩ := Run.bind_eq_ok.mp ran
  obtain rfl | ⟨front, last, rfl⟩ := path.eq_nil_or_concat
  · cases ran
  · rw [List.concat_eq_append, List.getLast?_concat, List.dropLast_concat] at ran
    obtain ⟨⟨w, above⟩, m₁, walked, ran⟩ := Run.bind_eq_ok.mp ran
    cases w with
    | container shape ref' =>
        obtain ⟨k', m₂, keyed, ran⟩ := Run.bind_eq_ok.mp ran
        split at ran
        · cases ran
        · obtain ⟨v', m₃, evaluated, made⟩ := Run.bind_eq_ok.mp ran
          cases made
          exact ⟨old, m₀, front, last, shape, above, m₁, m₂, List.concat_eq_append, based, walked,
            keyed, evaluated⟩
    | scalar y => cases ran
    | function site params body => cases ran

end Eval

/-- Work without calls adds containers, and leaves the others and the frame as they are. -/
def still : Discipline :=
  { growing with moves := fun _ m n => m.store.Extends n.store ∧ n.toFrame = m.toFrame }

theorem still_laws : still.Laws :=
  Discipline.tracking_laws (fun _ => ⟨.refl _, rfl⟩)
    (fun first second => ⟨first.1.trans second.1, second.2.trans first.2⟩)
    (fun quiet member invokes => quiet (.part member invokes)) (fun m v => ⟨.copy m.store v, rfl⟩)
    (fun m shape c => ⟨.push m.store shape c, rfl⟩) fun _ _ _ _ _ _ => ⟨.refl _, rfl⟩

theorem still_eval (fuel : Nat) (s : Surroundings) :
    still.EvalFollows (calls fuel s) (calls fuel s) := by
  refine Discipline.evalFollows_of_not_invokes still_laws ?_ fuel s
  rintro ⟨callee, args, quiet⟩
  exact quiet (.call callee args)

section Search

variable {fuel : Nat} {s : Surroundings} {m n : Machine}

theorem eval_name_eq_ok {x : Text} {v : Value} (named : x ≠ "self")
    (ran : (calls fuel s).eval (.name x) m = .ok v n) : m = n ∧ m.bindings.find? x = some v := by
  cases fuel with
  | zero => cases ran
  | succ fuel =>
      have looked : Run.lookup x m = .ok v n := ran
      rw [Run.lookup, Run.get_bind, if_neg named] at looked
      cases found : m.bindings.find? x with
      | none =>
          rw [found] at looked
          cases looked
      | some w =>
          rw [found] at looked
          cases looked
          exact ⟨rfl, rfl⟩

/-- A walk evaluates keys and looks them up. Without calls it does not matter that the keys are
evaluated between the look-ups. -/
theorem finds_of_walk {path : List Node} {v w : Value} {parent above : Option Value}
    (state : m.Apart {}) (held : v.Fits .any m.store) (quiet : ∀ e ∈ path, ¬e.Invokes)
    (ran : Eval.walk (calls fuel s) v parent path m = .ok (w, above) n) :
    ∃ keys : List Scalar, Eval.all (calls fuel s) path m = .ok (keys.map .scalar) n ∧
      ∀ later, n.store.Extends later → later.Finds v keys w := by
  induction path generalizing m v parent with
  | nil =>
      cases ran
      exact ⟨[], rfl, fun _ _ => .here⟩
  | cons e rest ih =>
      obtain ⟨first, others⟩ := List.forall_mem_cons.mp quiet
      obtain ⟨shape, ref, k, next, m₁, rfl, evaluated, found, ran⟩ := Eval.walk_cons_eq_ok ran
      obtain ⟨state₁, _⟩ := eval_apart state evaluated
      obtain ⟨key, member, -⟩ := OrderedMap.exists_mem_entries _ found
      obtain ⟨keys, all, finds⟩ := ih state₁ ((state₁.fits.store ref).value member) others ran
      refine ⟨k :: keys, Eval.all_cons_of_ok evaluated all, fun later grown => ?_⟩
      have longer := ((still_eval fuel s e m first trivial).of_ran evaluated).1.2.1.longer
      have same : later.get ref = m₁.store.get ref :=
        ((all_extends others all).trans grown).same (Nat.lt_of_lt_of_le held longer)
      exact .step (by rw [same, found]) (finds later grown)

/-- Without calls, an assignment that finds everything has evaluated the keys and the value from
left to right, and the container is at these keys, the last one apart. -/
theorem finds_of_target {x : Text} {path : List Node} {value : Node} {ref : Nat} {k : Scalar}
    {v : Value} (state : m.Apart {}) (named : x ≠ "self")
    (quiet : ∀ e ∈ path ++ [value], ¬e.Invokes)
    (ran : Eval.target (calls fuel s) (.name x) path value m = .ok (ref, k, v) n) :
    ∃ old shape keys, m.bindings.find? x = some old ∧
      Eval.all (calls fuel s) (path ++ [value]) m =
        .ok ((keys ++ [k]).map .scalar ++ [v]) n ∧
      n.store.Finds old keys (.container shape ref) := by
  obtain ⟨old, m₀, front, last, shape, above, m₁, m₂, rfl, looked, walked, keyed, evaluated⟩ :=
    Eval.target_eq_ok ran
  obtain ⟨rfl, bound⟩ := eval_name_eq_ok named looked
  have held := (eval_apart state looked).2
  obtain ⟨keys, front_all, finds⟩ :=
    finds_of_walk state held (fun e member => quiet e (by simp [member])) walked
  have last_all : Eval.all (calls fuel s) [last, value] m₁ = .ok [.scalar k, v] n :=
    Eval.all_cons_of_ok (Eval.eval_of_key keyed) (Eval.all_cons_of_ok evaluated rfl)
  refine ⟨old, shape, keys, bound, ?_, finds _ ?_⟩
  · simpa using Eval.all_append_of_ok front_all last_all
  · exact all_extends (fun e member => quiet e (by simp at member ⊢; exact .inr member)) last_all

/-- However the search ends, it has added containers and changed nothing else. -/
theorem target_still (fuel : Nat) (s : Surroundings) (m : Machine) (x : Text) {path : List Node}
    {value : Node} (quiet : ∀ e ∈ path ++ [value], ¬e.Invokes) :
    m.store.Extends ((Eval.target (calls fuel s) (.name x) path value).last m).store ∧
      ((Eval.target (calls fuel s) (.name x) path value).last m).toFrame = m.toFrame := by
  have name : ¬(Node.name x).Invokes := by
    rintro ⟨⟩
    contradiction
  have paths : ∀ e ∈ path, ¬e.Invokes := fun e member => quiet e (by simp [member])
  exact ((Discipline.follows_target still_laws (still_eval fuel s) trivial name paths
    (quiet value (by simp)) (.inr fun _ => trivial)).last_leads still_laws).2

theorem target_apart {base value : Node} {path : List Node} {ref : Nat} {k : Scalar} {v : Value}
    (state : m.Apart {})
    (ran : Eval.target (calls fuel s) base path value m = .ok (ref, k, v) n) :
    n.Apart {} ∧ ref < n.store.cells.size := by
  obtain ⟨⟨after, _⟩, ⟨shape, container, _⟩, _⟩ := (Discipline.follows_target (apart_laws {}).toLaws
    (Discipline.evalFollows_calls (apart_laws {}) (apart_admits {} s.files)) state
    (Grammar.any_expr base) (fun e _ => Grammar.any_expr e) (Grammar.any_expr value)
    (.inr fun _ => trivial)).of_ran ran
  exact ⟨after, container⟩

theorem target_housed {base value : Node} {path : List Node} {r : Nat × Scalar × Value}
    (reachable : Reachable m) (ran : Eval.target (calls fuel s) base path value m = .ok r n) :
    ∃ home, n.bindings.Housed home ∧ n.store.Housed home := by
  obtain ⟨fits, home, bound, store⟩ := reachable.housed
  have laws := sharing_laws m Grammar.any_laws
  obtain ⟨⟨_, keeps⟩, _⟩ := (Discipline.follows_target laws.toLaws
    (Discipline.evalFollows_calls laws (Grammar.any_admits m s.files)) ⟨fits, .refl _ _⟩
    (Grammar.any_expr base) (fun e _ => Grammar.any_expr e) (Grammar.any_expr value)
    (.inr fun _ => trivial)).of_ran ran
  obtain ⟨home', bound', store', _⟩ := keeps.homes bound store
  exact ⟨home', bound', store'⟩

end Search

/-! ## Indexed assignment -/

/-- Other names do not reach the container that is changed. -/
theorem view_other_storedAt {n : Machine} {home : Nat → Option Slot}
    (housed : n.bindings.Housed home) (store : n.store.Housed home) (ranked : n.store.Ranked)
    {ref : Nat} (k : Scalar) (v : Value) (inside : ref < n.store.cells.size) {x y : Text}
    {route : List (Nat × Scalar)} (reached : n.bindings.Reaches n.store x route ref) {w : Value}
    (there : (y, w) ∈ n.bindings) (fits : w.Fits .any n.store) (other : y ≠ x) :
    (n.storedAt ref k v).store.view w = n.store.view w := by
  refine view_storedAt k v inside ranked fun shape root container => ?_
  subst container
  refine ⟨fits, fun path leads => other ?_⟩
  exact (Housed.route_unique housed store ⟨shape, root, there, leads⟩ reached).1

/-- **An indexed assignment is a precise update.** Let an assignment to an entry of the value of
a name, whose keys and value contain no calls, be made in a reachable state. If it completes, the
keys and the value were evaluated from left to right, and the name is bound to the container that
it was bound to, whose value is its old value with the entry at these keys set to what the value
amounts to; only a nan at the end of the keys gives an entry without a value. What was stored is a
copy. Every other name has the value that it had. If the assignment fails, every name has the value
that it had. -/
theorem assignment_updates {m : Machine} (reachable : Reachable m) (fuel : Nat) (s : Surroundings)
    (line : Int) {x : Text} {path : List Node} {value : Node} (named : x ≠ "self")
    (quiet : ∀ e ∈ path ++ [value], ¬e.Invokes) :
    (∀ m', (calls (fuel + 1) s).exec ⟨line, .assign (.name x) path value⟩ m = .ok () m' →
      ∃ old keys v n, m.bindings.find? x = some old ∧
        Eval.all (calls fuel s) (path ++ [value]) m = .ok (keys.map .scalar ++ [v]) n ∧
        (∃ ref k, m' = n.storedAt ref k v) ∧ m'.toFrame = m.toFrame ∧
        (n.store.view v).Updates keys (m.store.view old) (m'.store.view old) ∧
        ∀ y w, (y, w) ∈ m.bindings → y ≠ x → m'.store.view w = m.store.view w) ∧
    ∀ e m', (calls (fuel + 1) s).exec ⟨line, .assign (.name x) path value⟩ m = .error e m' →
      m'.toFrame = m.toFrame ∧
        ∀ y w, (y, w) ∈ m.bindings → m'.store.view w = m.store.view w := by
  have state := reachable.apart
  obtain ⟨grown, frame⟩ := target_still fuel s m x quiet
  have same (n : Machine) (grown : m.store.Extends n.store) {y : Text} {w : Value}
      (member : (y, w) ∈ m.bindings) : n.store.view w = m.store.view w :=
    grown.view_of_fits state.ranked (state.fits.bound member)
  refine ⟨fun m' ran => ?_, fun e m' ran => ?_⟩
  · replace ran := (Eval.assign_eq _ _ _ _ m).symm.trans ran
    obtain ⟨⟨ref, k, v⟩, n, found, stored⟩ := Run.bind_eq_ok.mp ran
    cases stored
    rw [Run.last_of_ok found] at grown frame
    obtain ⟨old, shape, keys, bound, all, finds⟩ := finds_of_target state named quiet found
    obtain ⟨⟨_, ranked, _⟩, inside⟩ := target_apart state found
    obtain ⟨home, housed, store⟩ := target_housed reachable found
    obtain ⟨shape', start, rfl⟩ := finds.isContainer
    have bindings : n.bindings = m.bindings := congrArg Frame.bindings frame
    have member : (x, _) ∈ m.bindings := bound
    have reached : n.bindings.Reaches n.store x [] start :=
      ⟨shape', start, bindings ▸ member, .here⟩
    obtain ⟨⟨route, whole⟩, updates⟩ :=
      updates_of_finds housed store ranked k v inside reached finds
    rw [same n grown member] at updates
    refine ⟨_, keys ++ [k], v, n, bound, all, ⟨ref, k, rfl⟩, frame, updates,
      fun y w there other => ?_⟩
    rw [← same n grown there]
    have fits : w.Fits .any n.store := .mono grown.longer (state.fits.bound there)
    exact view_other_storedAt housed store ranked k v inside
      ⟨shape', start, bindings ▸ member, whole⟩ (bindings ▸ there) fits other
  · replace ran := (Eval.assign_eq _ _ _ _ m).symm.trans ran
    cases found : Eval.target (calls fuel s) (.name x) path value m with
    | ok a n =>
        rw [Run.bind_of_ok found] at ran
        cases ran
    | error e' n =>
        rw [Run.bind_of_error found] at ran
        cases ran
        rw [Run.last_of_error found] at grown frame
        exact ⟨frame, fun y w member => same _ grown member⟩

/-- A value may be stored inside itself: what is stored is a copy of what it was before. -/
theorem assignment_updates_own_entry :
    let m := (Block.run 9 {} [
      ⟨1, .bind "a" (.container .object ⟨[(.string "k", some (.container .object
        ⟨[(.string "n", some (.text "old"))]⟩)), (.string "j", some (.text "s"))]⟩)⟩,
      ⟨2, .bind "b" (.name "a")⟩]).last (Machine.start [])
    Reachable m ∧ ∃ (old v w : Value) (n m' : Machine),
      (calls 9 {}).exec ⟨3, .assign (.name "a") [.text "k", .text "m"] (.name "a")⟩ m = .ok () m' ∧
      m.bindings.find? "a" = some old ∧ n.store.view v = m.store.view old ∧
      (n.store.view v).Updates [.string "k", .string "m"] (m.store.view old)
        (m'.store.view old) ∧
      m.bindings.find? "b" = some w ∧ m'.store.view w = m.store.view w := by
  intro m
  have reachable : Reachable m := .run (.start []) (.last 9 {} _ _)
  have quiet : ∀ e ∈ [Node.text "k", .text "m"] ++ [.name "a"], ¬e.Invokes := by
    intro e member invokes
    simp only [List.cons_append, List.nil_append, List.mem_cons, List.not_mem_nil, or_false]
      at member
    rcases member with rfl | rfl | rfl <;> cases invokes <;> contradiction
  obtain ⟨old, keys, v, n, bound, all, _, _, updates, others⟩ :=
    (assignment_updates reachable 8 {} 3 (by decide : ("a" : Text) ≠ "self") quiet).1 _ rfl
  have evaluated : Eval.all (calls 8 {}) ([.text "k", .text "m"] ++ [.name "a"]) m =
      .ok [.text "k", .text "m", old] m := by
    cases bound
    rfl
  obtain ⟨values, rfl⟩ := EStateM.Result.ok.inj (evaluated.symm.trans all)
  have values : [Scalar.string "k", .string "m"].map Value.scalar ++ [old] =
      keys.map Value.scalar ++ [v] := values
  obtain ⟨same, last⟩ := List.append_inj' values rfl
  have scalars : Function.Injective Value.scalar := fun _ _ => Value.scalar.inj
  cases List.map_injective_iff.mpr scalars same
  cases last
  exact ⟨reachable, old, old, _, m, _, rfl, bound, rfl, updates, rfl,
    others "b" _ rfl (by decide)⟩

/-- What is stored at a nan is lost: the container has an entry more, without a value. -/
theorem assignment_updates_nan_key :
    let nan : Float := .ofBits 0x7FF8000000000001
    let m := (Block.run 9 {} [⟨1, .bind "x" (.container .object
      ⟨[(.string "a", some (.text "s"))]⟩)⟩]).last (Machine.start [])
    Reachable m ∧ ∃ (old : Value) (m' : Machine), m.bindings.find? "x" = some old ∧
      (calls 9 {}).exec ⟨2, .assign (.name "x") [.literal (.number nan)] (.text "v")⟩ m =
        .ok () m' ∧
      m'.store.view old = .container .object
        ⟨[(.string "a", some (.scalar (.string "s"))), (.number nan, none)]⟩ ∧
      m'.store.view old ≠ .container .object
        ⟨[(.string "a", some (.scalar (.string "s"))),
          (.number nan, some (.scalar (.string "v")))]⟩ := by
  refine ⟨.run (.start []) (.last 9 {} _ _), _, _, rfl, rfl, rfl, ?_⟩
  intro same
  cases same

end EplLang
