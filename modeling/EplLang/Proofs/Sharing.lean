import EplLang.Proofs.Contents
import EplLang.Proofs.Holding

/-!
# No container is shared

Wherever a value is kept it is copied first, so a container that a program can
change has one place where it is kept: a name, or an entry of another container
that itself has one place. This module follows that place. A home of a container
is given to it when it is made, and never changes; containers that only occur
while an expression is evaluated have none.

`Keeps` says what any piece of work does to names and store: every container that
existed before is afterwards found, if at all, where it was found before, and homes
can be found for the new ones. From it follow the routes by which a container is
reached: there is only one (`Housed.route_unique`), and a container that already
existed is reached by a route that it had (`Keeps.route`), so whatever is stored
is a copy.
-/

set_option autoImplicit false

namespace EplLang

/-! ## Routes -/

/-- The steps from one container to another inside it, the last step first: at
each of them the place of an entry and its key. -/
inductive Store.Route (s : Store) (start : Nat) : List (Nat × Scalar) → Nat → Prop where
  | here : Route s start [] start
  | step {path : List (Nat × Scalar)} {ref place inner : Nat} {k : Scalar} {shape : Shape} :
      Route s start path ref →
      (s.get ref).entries[place]? = some (k, some (.container shape inner)) →
      Route s start ((place, k) :: path) inner

/-- A container is reached from a name by some steps. -/
def Bindings.Reaches (b : Bindings) (s : Store) (n : Text) (path : List (Nat × Scalar))
    (ref : Nat) : Prop :=
  ∃ shape root, (n, .container shape root) ∈ b ∧ s.Route root path ref

theorem Store.Route.trans {s : Store} {a b c : Nat} {p q : List (Nat × Scalar)}
    (first : s.Route a p b) (second : s.Route b q c) : s.Route a (q ++ p) c := by
  induction second with
  | here => exact first
  | step _ entry ih => exact .step ih entry

/-! ## Homes -/

/-- Where a container is kept. -/
inductive Slot where
  | name (n : Text)
  | entry (ref place : Nat)

/-- The containers in the entries of a container with a home are at home there. -/
structure Store.Housed (s : Store) (home : Nat → Option Slot) : Prop where
  entry {ref place inner : Nat} {k : Scalar} {shape : Shape} : home ref ≠ none →
    (s.get ref).entries[place]? = some (k, some (.container shape inner)) →
      home inner = some (.entry ref place)
  inside {ref : Nat} : home ref ≠ none → ref < s.cells.size

/-- The containers bound to names are at home there. -/
def Bindings.Housed (b : Bindings) (home : Nat → Option Slot) : Prop :=
  ∀ n shape ref, (n, .container shape ref) ∈ b → home ref = some (.name n)

/-- Names and contents after some work, compared with those before. -/
structure Keeps (b : Bindings) (s : Store) (b' : Bindings) (s' : Store) : Prop where
  longer : s.cells.size ≤ s'.cells.size
  bound {n : Text} {shape : Shape} {ref : Nat} : (n, .container shape ref) ∈ b' →
    ref < s.cells.size → (n, .container shape ref) ∈ b
  entry {ref place inner : Nat} {k : Scalar} {shape : Shape} : ref < s.cells.size →
    (s'.get ref).entries[place]? = some (k, some (.container shape inner)) →
    inner < s.cells.size → (s.get ref).entries[place]? = some (k, some (.container shape inner))
  homes {home : Nat → Option Slot} : b.Housed home → s.Housed home →
    ∃ home', b'.Housed home' ∧ s'.Housed home' ∧ ∀ ref, ref < s.cells.size → home' ref = home ref

/-! ## One route to each container -/

section Routes

variable {b : Bindings} {s : Store} {home : Nat → Option Slot} (bound : b.Housed home)
  (store : s.Housed home)
include bound store

/-- A container that is reached is at home where the last step found it. -/
theorem Housed.of_reaches {n : Text} {path : List (Nat × Scalar)} {ref : Nat}
    (reached : b.Reaches s n path ref) : home ref ≠ none := by
  obtain ⟨shape, root, member, route⟩ := reached
  induction route with
  | here => simp [bound n shape root member]
  | step _ entry ih => simp [store.entry ih entry]

theorem Housed.route_unique {n n' : Text} {path path' : List (Nat × Scalar)} {ref : Nat}
    (first : b.Reaches s n path ref) (second : b.Reaches s n' path' ref) :
    n = n' ∧ path = path' := by
  obtain ⟨shape, root, member, route⟩ := first
  induction route generalizing n' path' with
  | here =>
      have here := bound n shape root member
      obtain ⟨shape', root', member', route'⟩ := second
      cases route' with
      | here =>
          rw [bound n' shape' root member'] at here
          cases here
          exact ⟨rfl, rfl⟩
      | step before entry =>
          have known := Housed.of_reaches bound store ⟨shape', root', member', before⟩
          rw [store.entry known entry] at here
          cases here
  | step before entry ih =>
      have known := Housed.of_reaches bound store ⟨shape, root, member, before⟩
      have here := store.entry known entry
      obtain ⟨shape', root', member', route'⟩ := second
      cases route' with
      | here =>
          rw [bound n' shape' _ member'] at here
          cases here
      | step before' entry' =>
          have known' := Housed.of_reaches bound store ⟨shape', root', member', before'⟩
          rw [store.entry known' entry'] at here
          cases here
          rw [entry'] at entry
          cases entry
          obtain ⟨same_name, same_path⟩ := ih ⟨shape', root', member', before'⟩
          exact ⟨same_name, by rw [same_path]⟩

/-- A container that is reached is not inside itself. -/
theorem Housed.not_inside_self {n : Text} {path inner : List (Nat × Scalar)} {ref : Nat}
    (reached : b.Reaches s n path ref) (inside : s.Route ref inner ref) : inner = [] := by
  obtain ⟨shape, root, member, route⟩ := reached
  have longer := Housed.route_unique bound store ⟨shape, root, member, route⟩
    ⟨shape, root, member, route.trans inside⟩
  have lengths := congrArg List.length longer.2
  rw [List.length_append] at lengths
  exact List.eq_nil_of_length_eq_zero (by omega)

/-- Homes can be taken from all containers that are not reached. -/
theorem Housed.restrict : ∃ home', b.Housed home' ∧ s.Housed home' ∧
    ∀ ref, home' ref ≠ none → ∃ n path, b.Reaches s n path ref := by
  classical
  refine ⟨fun ref => if ∃ n path, b.Reaches s n path ref then home ref else none, ?_, ⟨?_, ?_⟩, ?_⟩
  · intro n shape ref member
    have reached : ∃ n path, b.Reaches s n path ref := ⟨n, [], shape, ref, member, .here⟩
    dsimp only
    rw [if_pos reached]
    exact bound n shape ref member
  · intro ref place inner k shape known entry
    split at known
    · rename_i reached
      obtain ⟨n, path, shape', root, member, route⟩ := reached
      rw [if_pos ⟨n, _, shape', root, member, .step route entry⟩]
      exact store.entry known entry
    · exact absurd rfl known
  · intro ref known
    split at known
    · exact store.inside known
    · exact absurd rfl known
  · intro ref known
    dsimp only at known
    split at known
    · assumption
    · exact absurd rfl known

end Routes

/-- A container that existed before is reached by a route that it had before. For
a step into it, its home tells that it was found in the same container. -/
theorem Keeps.route {b b' : Bindings} {s s' : Store} (keeps : Keeps b s b' s')
    {home : Nat → Option Slot} (bound : b.Housed home) (store : s.Housed home)
    {n : Text} {path : List (Nat × Scalar)} {ref : Nat} (reached : b'.Reaches s' n path ref)
    (old : ref < s.cells.size) : b.Reaches s n path ref := by
  obtain ⟨home₀, bound₀, store₀, known₀⟩ := Housed.restrict bound store
  obtain ⟨home', bound', store', agrees⟩ := keeps.homes bound₀ store₀
  obtain ⟨shape, root, member, route⟩ := reached
  induction route with
  | here => exact ⟨shape, root, keeps.bound member old, .here⟩
  | @step path ref place inner k shape' before entry ih =>
      have known := Housed.of_reaches bound' store' ⟨shape, root, member, before⟩
      have here : home₀ inner = some (.entry ref place) := by
        rw [← agrees inner old]
        exact store'.entry known entry
      have parent : ref < s.cells.size := by
        obtain ⟨n₀, path₀, shape₀, root₀, member₀, route₀⟩ := known₀ inner (by simp [here])
        cases route₀ with
        | here =>
            rw [bound₀ n₀ shape₀ inner member₀] at here
            cases here
        | step before₀ entry₀ =>
            have above := Housed.of_reaches bound₀ store₀ ⟨shape₀, root₀, member₀, before₀⟩
            rw [store₀.entry above entry₀] at here
            cases here
            exact store₀.inside above
      obtain ⟨shape₁, root₁, member₁, route₁⟩ := ih parent
      exact ⟨shape₁, root₁, member₁, .step route₁ (keeps.entry parent entry old)⟩

/-! ## Making containers -/

namespace Store

section Making

variable {s : Store} {home : Nat → Option Slot}

/-- A new container without a home. -/
theorem Housed.push (housed : s.Housed home) (shape : Shape) (c : Container Value) :
    (s.push shape c).2.Housed home where
  entry known found := by
    rw [get_push_of_lt (housed.inside known)] at found
    exact housed.entry known found
  inside known := by
    rw [size_push]
    exact Nat.lt_succ_of_lt (housed.inside known)

/-- A new container with a home, the containers in it being at home there. -/
theorem Housed.pushAt (housed : s.Housed home) (slot : Slot) (shape : Shape) {c : Container Value}
    (entries : ∀ place inner k shape, c.entries[place]? = some (k, some (.container shape inner)) →
      home inner = some (.entry s.cells.size place)) :
    (s.push shape c).2.Housed (fun ref => if ref = s.cells.size then some slot else home ref) := by
  have fresh : ∀ {ref}, home ref ≠ none → ref ≠ s.cells.size :=
    fun known => Nat.ne_of_lt (housed.inside known)
  constructor
  · intro ref place inner k shape' known found
    by_cases new : ref = s.cells.size
    · subst new
      rw [get_push_self] at found
      have inner_home := entries place inner k shape' found
      rw [if_neg (fresh (by simp [inner_home]))]
      exact inner_home
    · rw [if_neg new] at known
      rw [get_push_of_lt (housed.inside known)] at found
      have inner_home := housed.entry known found
      rw [if_neg (fresh (by simp [inner_home]))]
      exact inner_home
  · intro ref known
    rw [size_push]
    by_cases new : ref = s.cells.size
    · omega
    · rw [if_neg new] at known
      exact Nat.lt_succ_of_lt (housed.inside known)

end Making

mutual

/-- Written data can be given a home anywhere. -/
theorem write_housed : ∀ (d : Data) (s : Store) (home : Nat → Option Slot) (slot : Slot),
    d.Formed → s.Housed home → ∃ home', (write d s).2.Housed home' ∧
      (∀ ref, ref < s.cells.size → home' ref = home ref) ∧
      ∀ shape ref, (write d s).1 = .container shape ref → home' ref = some slot
  | .scalar _, s, home, slot, _, housed => ⟨home, housed, fun _ _ => rfl, by simp [write]⟩
  | .function .., s, home, slot, _, housed => ⟨home, housed, fun _ _ => rfl, by simp [write]⟩
  | .container shape ⟨entries⟩, s, home, slot, .container formed parts, housed => by
      -- the entries are written before their container, whose place is known all the same
      obtain ⟨home', housed', agrees, at_home⟩ := writeEntries_housed entries s home
        (writeEntries entries s).2.cells.size 0 parts housed
      have longer := (writeEntries_extends entries s).1
      have kept := entries_ofEntries (formed.of_keys (keys_writeEntries entries s))
      refine ⟨_, housed'.pushAt slot shape fun place inner k shape found => ?_, fun ref old => ?_,
        fun shape' ref same => ?_⟩
      · rw [kept] at found
        have inner_home := at_home place inner k shape found
        rwa [Nat.zero_add] at inner_home
      · rw [if_neg (by omega)]
        exact agrees ref old
      · simp only [write, push] at same
        cases same
        exact if_pos rfl

theorem writeEntries_housed : ∀ (entries : List (Scalar × Option Data)) (s : Store)
    (home : Nat → Option Slot) (parent first : Nat), (∀ k d, (k, some d) ∈ entries → d.Formed) →
    s.Housed home → ∃ home', (writeEntries entries s).2.Housed home' ∧
      (∀ ref, ref < s.cells.size → home' ref = home ref) ∧
      ∀ place inner k shape,
        (writeEntries entries s).1[place]? = some (k, some (.container shape inner)) →
        home' inner = some (.entry parent (first + place))
  | [], s, home, parent, first, _, housed =>
      ⟨home, housed, fun _ _ => rfl, fun _ _ _ _ found => by simp [writeEntries] at found⟩
  | (key, none) :: rest, s, home, parent, first, formed, housed => by
      obtain ⟨home', housed', agrees, at_home⟩ :=
        writeEntries_housed rest s home parent (first + 1)
          (fun k d member => formed k d (List.mem_cons_of_mem _ member)) housed
      refine ⟨home', housed', agrees, fun place inner k shape found => ?_⟩
      cases place with
      | zero => simp [writeEntries] at found
      | succ place =>
          have later := at_home place inner k shape found
          rwa [Nat.add_right_comm] at later
  | (key, some d) :: rest, s, home, parent, first, formed, housed => by
      obtain ⟨home₁, housed₁, agrees₁, root⟩ :=
        write_housed d s home (.entry parent first) (formed key d List.mem_cons_self) housed
      obtain ⟨home₂, housed₂, agrees₂, at_home⟩ :=
        writeEntries_housed rest (write d s).2 home₁ parent (first + 1)
          (fun k d member => formed k d (List.mem_cons_of_mem _ member)) housed₁
      have longer := (write_extends d s).1
      refine ⟨home₂, housed₂, fun ref old => ?_, fun place inner k shape found => ?_⟩
      · rw [agrees₂ ref (by omega), agrees₁ ref old]
      · cases place with
        | zero =>
            simp only [writeEntries, List.getElem?_cons_zero, Option.some.injEq,
              Prod.mk.injEq] at found
            have inner_home := root shape inner found.2
            rw [agrees₂ inner (housed₁.inside (by simp [inner_home]))]
            exact inner_home
        | succ place =>
            have later := at_home place inner k shape found
            rwa [Nat.add_right_comm] at later

end

theorem copy_housed {s : Store} {home : Nat → Option Slot} (housed : s.Housed home) (v : Value)
    (slot : Slot) : ∃ home', (s.copy v).2.Housed home' ∧
      (∀ ref, ref < s.cells.size → home' ref = home ref) ∧
      ∀ shape ref, (s.copy v).1 = .container shape ref → home' ref = some slot := by
  rw [copy_eq_write]
  exact write_housed _ s home slot (viewTo_formed s _ v) housed

/-- A copy of a container is a new one. -/
theorem size_le_of_copy {s : Store} {v : Value} {shape : Shape} {ref : Nat}
    (copied : (s.copy v).1 = .container shape ref) : s.cells.size ≤ ref := by
  obtain ⟨-, root⟩ := copy_entry s v
  exact (root shape ref copied).1

end Store

/-! ## What the actions keep -/

namespace Keeps

variable {b b' b'' : Bindings} {s s' s'' : Store}

theorem refl (b : Bindings) (s : Store) : Keeps b s b s where
  longer := Nat.le_refl _
  bound member _ := member
  entry _ found _ := found
  homes {home} bound store := ⟨home, bound, store, fun _ _ => rfl⟩

theorem trans (first : Keeps b s b' s') (second : Keeps b' s' b'' s'') : Keeps b s b'' s'' where
  longer := Nat.le_trans first.longer second.longer
  bound member old := first.bound (second.bound member (Nat.lt_of_lt_of_le old first.longer)) old
  entry old found inner := first.entry old
    (second.entry (Nat.lt_of_lt_of_le old first.longer) found
      (Nat.lt_of_lt_of_le inner first.longer)) inner
  homes bound store := by
    obtain ⟨home', bound', store', agrees⟩ := first.homes bound store
    obtain ⟨home'', bound'', store'', agrees'⟩ := second.homes bound' store'
    refine ⟨home'', bound'', store'', fun ref old => ?_⟩
    rw [agrees' ref (Nat.lt_of_lt_of_le old first.longer), agrees ref old]

theorem not_mem_native {site : Nat} {n : Text} {shape : Shape} {ref : Nat} :
    (n, .container shape ref) ∉ Native.bindings site := by
  intro member
  obtain ⟨_, _, same⟩ := List.mem_map.mp (Bindings.mem_of_mem_ofList member)
  cases same

theorem native_housed (site : Nat) (home : Nat → Option Slot) :
    (Native.bindings site).Housed home :=
  fun _ _ _ member => absurd member not_mem_native

/-- Bindings keep their homes while containers are added. -/
theorem housed_of_agrees {home home' : Nat → Option Slot} (bound : b.Housed home)
    (store : s.Housed home) (agrees : ∀ ref, ref < s.cells.size → home' ref = home ref) :
    b.Housed home' := by
  intro n shape ref member
  have here := bound n shape ref member
  rw [agrees ref (store.inside (by simp [here]))]
  exact here

/-- Dropping names. -/
theorem ofSubset (keeps : Keeps b s b' s') (fewer : ∀ entry ∈ b'', entry ∈ b') :
    Keeps b s b'' s' where
  longer := keeps.longer
  bound member old := keeps.bound (fewer _ member) old
  entry := keeps.entry
  homes bound store := by
    obtain ⟨home', bound', store', agrees⟩ := keeps.homes bound store
    exact ⟨home', fun n shape ref member => bound' n shape ref (fewer _ member), store', agrees⟩

theorem copy (b : Bindings) (s : Store) (v : Value) : Keeps b s b (s.copy v).2 where
  longer := s.size_le_copy v
  bound member _ := member
  entry old found _ := by rwa [Store.get_copy_of_lt v old] at found
  homes {home} bound store := by
    obtain ⟨home', store', agrees, _⟩ := Store.copy_housed store v (.name [])
    exact ⟨home', housed_of_agrees bound store agrees, store', agrees⟩

theorem push (b : Bindings) (s : Store) (shape : Shape) (c : Container Value) :
    Keeps b s b (s.push shape c).2 where
  longer := by
    rw [Store.size_push]
    exact Nat.le_succ _
  bound member _ := member
  entry old found _ := by rwa [Store.get_push_of_lt old] at found
  homes {home} bound store := ⟨home, bound, store.push shape c, fun _ _ => rfl⟩

/-- Binding a name to a new container, or to something else. -/
theorem set {v : Value} (keeps : Keeps b s b s') (n : Text)
    (fresh : ∀ shape ref, v = .container shape ref → s.cells.size ≤ ref)
    (homes : ∀ home, s.Housed home → ∃ home', s'.Housed home' ∧
      (∀ ref, ref < s.cells.size → home' ref = home ref) ∧
      ∀ shape ref, v = .container shape ref → home' ref = some (.name n)) :
    Keeps b s (b.set n v) s' where
  longer := keeps.longer
  bound {name shape ref} member old := by
    rcases Bindings.mem_set member with ⟨_, same⟩ | before
    · exact absurd (fresh shape ref same.symm) (Nat.not_le_of_lt old)
    · exact before
  entry := keeps.entry
  homes {home} bound store := by
    obtain ⟨home', store', agrees, root⟩ := homes home store
    refine ⟨home', fun name shape ref member => ?_, store', agrees⟩
    rcases Bindings.mem_set member with ⟨same_name, same⟩ | before
    · rw [same_name]
      exact root shape ref same.symm
    · exact housed_of_agrees bound store agrees name shape ref before

theorem boundTo (b : Bindings) (s : Store) (n : Text) (v : Value) :
    Keeps b s (b.set n (s.copy v).1) (s.copy v).2 :=
  (copy b s v).set n (fun _ _ copied => Store.size_le_of_copy copied)
    fun _ store => Store.copy_housed store v (.name n)

theorem boundToEntry (b : Bindings) (s : Store) (n : Text) (k : Scalar) (v : Value) :
    let made := (s.copy v).2.push .object (Eval.entryObject k (s.copy v).1)
    Keeps b s (b.set n made.1) made.2 := by
  refine ((copy b s v).trans (push b _ _ _)).set n (fun shape ref same => ?_) fun home store => ?_
  · cases same
    exact s.size_le_copy v
  · -- the copy is the second entry of the object that is made after it
    obtain ⟨home', store', agrees, root⟩ :=
      Store.copy_housed store v (.entry (s.copy v).2.cells.size 1)
    refine ⟨_, store'.pushAt (.name n) .object fun place inner key shape found => ?_,
      fun ref old => ?_, fun shape ref same => ?_⟩
    · have entries : (Eval.entryObject k (s.copy v).1).entries =
          [(.string "key", some (.scalar k)), (.string "value", some (s.copy v).1)] := rfl
      rw [entries] at found
      rcases place with _ | _ | place
      · simp at found
      · simp only [List.getElem?_cons_succ, List.getElem?_cons_zero, Option.some.injEq,
          Prod.mk.injEq] at found
        exact root shape inner found.2
      · simp at found
    · have longer := s.size_le_copy v
      rw [if_neg (by omega)]
      exact agrees ref old
    · cases same
      exact if_pos rfl

/-- Setting an entry of a container to a copy. The copy is at home at the place
that the entry has or gets. -/
theorem storedAt (b : Bindings) {s : Store} {ref : Nat} (inside : ref < s.cells.size) (k : Scalar)
    (v : Value) :
    Keeps b s b ((s.copy v).2.put ref (((s.copy v).2.get ref).set k (s.copy v).1)) := by
  obtain ⟨place, places⟩ := (s.get ref).getElem?_set k (s.copy v).1
  have contents := Store.get_put_copy inside k v
  refine ⟨?_, fun member _ => member, ?_, ?_⟩
  · rw [Store.size_put]
    exact s.size_le_copy v
  · intro other i inner key shape old found inner_old
    rw [contents] at found
    split at found
    · rename_i same
      rcases places i key _ found with ⟨_, copied⟩ | before
      · exact absurd (Store.size_le_of_copy copied.symm) (Nat.not_le_of_lt inner_old)
      · rw [same]
        exact before
    · rwa [Store.get_copy_of_lt v old] at found
  · intro home bound store
    obtain ⟨home', store', agrees, root⟩ := Store.copy_housed store v (.entry ref place)
    refine ⟨home', housed_of_agrees bound store agrees, ⟨?_, ?_⟩, agrees⟩
    · intro other i inner key shape known found
      rw [contents] at found
      split at found
      · rename_i same
        subst same
        rcases places i key _ found with ⟨here, copied⟩ | before
        · rw [here]
          exact root shape inner copied.symm
        · rw [agrees other inside] at known
          have inner_home := store.entry known before
          rw [agrees inner (store.inside (by simp [inner_home]))]
          exact inner_home
      · exact store'.entry known found
    · intro other known
      rw [Store.size_put]
      exact store'.inside known

/-- A program that is imported starts with no container in its names, so what it
does leaves those of the importer alone. -/
theorem resuming {site : Nat} (b : Bindings) (keeps : Keeps (Native.bindings site) s b' s') :
    Keeps b s b s' where
  longer := keeps.longer
  bound member _ := member
  entry := keeps.entry
  homes bound store := by
    obtain ⟨home', _, store', agrees⟩ := keeps.homes (native_housed site _) store
    exact ⟨home', housed_of_agrees bound store agrees, store', agrees⟩

end Keeps

/-! ## The discipline -/

/-- What happens since a start is kept to, and every value fits. -/
def sharing (g : Grammar) (start : Machine) : Discipline :=
  { holding g with
    state := fun m => m.Fits g ∧ Keeps start.bindings start.store m.bindings m.store
    moves := fun _ m n => Keeps m.bindings m.store n.bindings n.store }

section Laws

variable {g : Grammar} {start : Machine}

/-- Work that keeps values fit and names and store as wanted. -/
theorem sharing_leads {grain : Grain} {m n : Machine} (state : (sharing g start).state m)
    (fits : n.Fits g) (keeps : Keeps m.bindings m.store n.bindings n.store) :
    (sharing g start).Leads grain m n :=
  ⟨⟨fits, state.2.trans keeps⟩, keeps⟩

theorem sharing_laws (start : Machine) (laws : g.Laws) : (sharing g start).RegionLaws where
  refl _ m := .refl _ _
  trans first second := Keeps.trans first second
  coarsen keeps := keeps
  widen keeps := keeps
  scalar := (holding_laws laws).scalar
  named state named := (holding_laws laws).named state.1 named
  entry {_ shape _ _ _} state container member :=
    @(holding_laws laws).entry _ shape _ _ _ state.1 container member
  stays keeps value := Value.Fits.mono keeps.longer value
  fault := laws.fault
  outOfFuel := laws.outOfFuel
  parts := laws.parts
  function := (holding_laws laws).function
  meaning := laws.meaning
  copied {m v} state value := by
    obtain ⟨leads, copy⟩ := (holding_laws laws).copied state.1 value
    exact ⟨sharing_leads state leads.1 (.copy _ _ v), copy⟩
  pushed {m} shape {c} state values := by
    obtain ⟨leads, made⟩ := (holding_laws laws).pushed shape state.1 values
    exact ⟨sharing_leads state leads.1 (.push _ _ shape c), made⟩
  world printed input slept drawn performs state :=
    sharing_leads state ((holding_laws laws).world printed input slept drawn performs state.1).1
      (.refl _ _)
  body allowed member := laws.body allowed member
  stmtParts := laws.stmtParts
  stmtBlocks := laws.stmtBlocks
  stmtMeaning := laws.stmtMeaning
  bound {m} n {v} name state value :=
    sharing_leads state ((holding_laws laws).bound n name state.1 value).1 (.boundTo _ _ n v)
  boundEntry {m} n k {v} name state value :=
    sharing_leads state ((holding_laws laws).boundEntry n k name state.1 value).1
      (.boundToEntry _ _ n k v)
  stored {m shape ref} k {v} _ state container value :=
    sharing_leads state (Machine.Fits.storedAt state.1 ref k value) (.storedAt _ container k v)
  closed {m n} state leads :=
    sharing_leads state (Machine.Fits.closedTo leads.1.1 _)
      (leads.2.ofSubset fun _ member => Bindings.mem_of_mem_close member)
  prompt _ _ := trivial
  given ready leads value :=
    ⟨⟨((holding_laws laws).given ready ⟨leads.1.1, leads.2.longer⟩ value).1, leads.1.2⟩, leads.2⟩
  broken state ready :=
    sharing_leads state ((holding_laws laws).broken state.1 ready).1 (.refl _ _)
  ended state := sharing_leads state ((holding_laws laws).ended state.1).1 (.refl _ _)
  returned {m n k v} state leads taken := by
    obtain ⟨⟨fits, _⟩, copy⟩ := (holding_laws laws).returned (m := m) state.1
      ⟨leads.1.1, leads.2.longer⟩ taken
    refine ⟨sharing_leads state fits ?_, copy⟩
    have keeps : Keeps m.bindings m.store k.bindings k.store := by
      rcases takeReturn_cases taken with ⟨_, _, rfl⟩ | ⟨rest, _, rfl⟩ <;> exact leads.2
    exact (keeps.trans (.copy _ _ v)).ofSubset fun _ member => Bindings.mem_of_mem_close member
  marked line site state :=
    sharing_leads state ((holding_laws laws).marked line site state.1).1 (.refl _ _)
  entered state values := ⟨(holding_laws laws).entered state.1 values, state.2⟩
  left {m n receiver} state leads := by
    refine sharing_leads state (Machine.Fits.withReceiver leads.1.1 fun w same => ?_) leads.2
    exact (Machine.Fits.receiver state.1 same).mono leads.2.longer
  importing {m} _ state := by
    refine ⟨Machine.Fits.importing laws state.1, state.2.longer, ?_, state.2.entry, ?_⟩
    · intro n shape ref member
      exact absurd member Keeps.not_mem_native
    · intro home bound store
      obtain ⟨home', _, store', agrees⟩ := state.2.homes bound store
      exact ⟨home', Keeps.native_housed _ _, store', agrees⟩
  resuming {m n} _ state leads :=
    sharing_leads state (Machine.Fits.resuming state.1 leads.2.longer leads.1.1)
      (leads.2.resuming m.bindings)

end Laws

/-! ## Runs -/

/-- The texts that are at hand when a program is run: those of the functions held
before, of the program, of the files that it may import, and of the built-in
functions. -/
inductive Origin (m : Machine) (s : Surroundings) (body : Block) : Node → Prop where
  | held {site : Nat} {params : List Text} {inner : Block} :
      m.Holds (.function site params inner) → Origin m s body (.function site params inner)
  | program {st : Stmt} : st ∈ body → Origin m s body st.node
  | imported {path source : Text} {site next : Nat} {program : Block} {st : Stmt} :
      s.files path = some source → parseSource site source = .ok (program, next) →
      st ∈ program → Origin m s body st.node
  | native (site : Nat) (operation : Native) :
      Origin m s body (.function site operation.params operation.body)

/-- A function literal stands in one of the texts at hand. -/
def Written (m : Machine) (s : Surroundings) (body : Block) (site : Nat) (params : List Text)
    (inner : Block) : Prop :=
  ∃ whole, Origin m s body whole ∧ Node.Occurs (.function site params inner) whole

theorem Grammar.any_admits (start : Machine) (files : Text → Option Text) :
    (sharing .any start).Admits files :=
  fun _ _ _ _ => ⟨fun _ _ _ _ _ _ _ _ _ _ => trivial, fun _ _ _ => trivial⟩

/-- In a reachable state all values fit, and every container that is reached has
a home. -/
theorem Reachable.housed {m : Machine} (reachable : Reachable m) :
    m.Fits .any ∧ ∃ home, m.bindings.Housed home ∧ m.store.Housed home := by
  induction reachable with
  | start input =>
      refine ⟨.start Grammar.any_laws input, fun _ => none, Keeps.native_housed _ _, ?_, ?_⟩
      · exact fun known => absurd rfl known
      · exact fun known => absurd rfl known
  | @run fuel s body m n _ meets ih =>
      obtain ⟨fits, home, bound, store⟩ := ih
      have after := meets.state (sharing_laws m Grammar.any_laws)
        (Grammar.any_admits m s.files) (fun _ _ _ _ _ _ => trivial) ⟨fits, .refl _ _⟩
      obtain ⟨home', bound', store', _⟩ := after.2.homes bound store
      exact ⟨after.1, home', bound', store'⟩

/-- A run keeps what it finds, and holds no function but those that stand in the
texts at hand. -/
theorem Meets.kept {fuel : Nat} {s : Surroundings} {body : Block} {m n : Machine}
    (fits : m.Fits .any) (meets : Meets fuel s body m n) :
    n.Fits (.literals (Written m s body)) ∧ Keeps m.bindings m.store n.bindings n.store := by
  have laws : (Grammar.literals (Written m s body)).Laws :=
    Grammar.literals_laws fun site operation => ⟨_, .native site operation, .self⟩
  refine meets.state (sharing_laws m laws) ?_ ?_ ⟨?_, .refl _ _⟩
  · intro _ path source file
    refine ⟨fun site program next st parsed member => ?_, fun _ _ _ => trivial⟩
    exact fun _ _ _ occurs => ⟨_, .imported file parsed member, occurs⟩
  · exact fun st member _ _ _ occurs => ⟨_, .program member, occurs⟩
  · exact fits.imp fun site params inner holds _ _ _ _ occurs => ⟨_, .held holds, occurs⟩

/-- A container literal gives a new container each time it is evaluated. -/
theorem literal_fresh {fuel : Nat} {s : Surroundings} {m k : Machine} (fits : m.Fits .any)
    {shape : Shape} {items : Items Node} {v : Value}
    (ran : (calls fuel s).eval (.container shape items) m = .ok v k) :
    ∃ ref, v = .container shape ref ∧ m.store.cells.size ≤ ref := by
  have laws := sharing_laws m Grammar.any_laws
  cases fuel with
  | zero => cases ran
  | succ fuel =>
      obtain ⟨entries⟩ := items
      obtain ⟨made, l, evaluated, rest⟩ := Run.bind_eq_ok.mp ran
      have eval := (Discipline.follows_calls laws (fun _ _ => trivial) .malformed fuel s
        (Grammar.any_admits m s.files)).1
      have started : (sharing .any m).state m := ⟨fits, .refl _ _⟩
      have longer := ((Discipline.follows_items laws.toLaws eval started
        (fun _ member => by cases member)
        (fun _ _ _ _ _ _ => trivial) (.inr fun _ => trivial)).of_ran evaluated).1.2.longer
      cases rest
      exact ⟨_, rfl, longer⟩

/-- **No container is shared.** At every moment `n` of a run from a reachable state
`m`: each container is reached from the names by one route only, and is not inside
itself. A container that existed when the run started is reached, if at all, by
the route that it had then, so whatever the run stores is a copy. Each evaluation
of a container literal makes a container of its own. And every function held
stands, letter for letter, in one of the texts that were at hand. -/
theorem no_aliasing {m : Machine} (reachable : Reachable m) {fuel : Nat} {s : Surroundings}
    {body : Block} {n : Machine} (meets : Meets fuel s body m n) :
    (∀ x y p q ref, n.bindings.Reaches n.store x p ref → n.bindings.Reaches n.store y q ref →
      x = y ∧ p = q) ∧
    (∀ x p q ref, n.bindings.Reaches n.store x p ref → n.store.Route ref q ref → q = []) ∧
    (∀ x p ref, n.bindings.Reaches n.store x p ref → ref < m.store.cells.size →
      m.bindings.Reaches m.store x p ref) ∧
    (∀ shape items v k, (calls fuel s).eval (.container shape items) n = .ok v k →
      ∃ ref, v = .container shape ref ∧ n.store.cells.size ≤ ref) ∧
    ∀ site params inner, n.Holds (.function site params inner) →
      Written m s body site params inner := by
  obtain ⟨fits, home, bound, store⟩ := reachable.housed
  obtain ⟨fits', home', bound', store'⟩ := (Reachable.run reachable meets).housed
  obtain ⟨written, keeps⟩ := meets.kept fits
  refine ⟨?_, ?_, ?_, ?_, ?_⟩
  · exact fun x y p q ref first second => Housed.route_unique bound' store' first second
  · exact fun x p q ref reached inside => Housed.not_inside_self bound' store' reached inside
  · exact fun x p ref reached old => keeps.route bound store reached old
  · exact fun shape items v k ran => literal_fresh fits' ran
  · intro site params inner holds
    have fit := (holding_laws (Grammar.literals_laws
      fun site operation => ⟨_, Origin.native site operation, .self⟩)).held written holds
    exact fit site params inner .self

/-- An object is stored in itself, and the result in another name: four containers
at four places. -/
theorem no_aliasing_self_entry :
    let body : Block :=
      [⟨1, .bind "a" (.container .object ⟨[(.string "x", some Node.null)]⟩)⟩,
        ⟨2, .assign (.name "a") [Node.text "x"] (.name "a")⟩, ⟨3, .bind "b" (.name "a")⟩]
    let n := (Block.run 9 {} body).last (Machine.start [])
    n.bindings.Reaches n.store "a" [(0, .string "x")] 2 ∧
      n.bindings.Reaches n.store "b" [(0, .string "x")] 3 ∧
      (∀ y q, n.bindings.Reaches n.store y q 2 → "a" = y ∧ [(0, .string "x")] = q) ∧
      ∀ y q, n.bindings.Reaches n.store y q 3 → "b" = y ∧ [(0, .string "x")] = q := by
  intro body n
  have law := (no_aliasing (.start []) (.last 9 {} body (Machine.start []))).1
  have a_entry : (n.store.get 1).entries[0]? =
      some (.string "x", some (.container .object 2)) := rfl
  have b_entry : (n.store.get 4).entries[0]? =
      some (.string "x", some (.container .object 3)) := rfl
  have a : n.bindings.Reaches n.store "a" [(0, .string "x")] 2 :=
    ⟨.object, 1, rfl, .step .here a_entry⟩
  have b : n.bindings.Reaches n.store "b" [(0, .string "x")] 3 :=
    ⟨.object, 4, rfl, .step .here b_entry⟩
  exact ⟨a, b, fun y q => law _ y _ q 2 a, fun y q => law _ y _ q 3 b⟩

end EplLang
