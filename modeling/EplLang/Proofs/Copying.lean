import EplLang.Proofs.Insertion
import EplLang.Proofs.Reach
import EplLang.Proofs.Rendered.Value
import EplLang.Proofs.Visiting

/-!
# Copies

A copy has the kinds, the keys and the scalars of what was copied, at every level, and no
container in common with it. What that means is said twice. `Alike` compares two values
container by container through the look-ups of the language: the same keys in the same
order, something under a key of one exactly if there is something under it in the other,
and again alike. An entry whose key is nan is a key without a value on both sides.
`Mutated` are the stores that can come about by setting entries of the containers inside a
value, in any order and with any other work in between that makes containers; the copies
that get stored are inside the value from then on, so they may be changed as well.

There are two ways to a copy. One is to ask for it: the keys of a container are gone
through in order, and each of them is set in a new container to a copy of what is found
under it, or to null if nothing is found. The other is to evaluate the value as an
expression that has its scalars and functions as literals (`Data.node`), which also sets the
entries of a new container one after another. Both put the same data into the store, the
second one only if no key is nan (`copying_faithful`).
-/

set_option autoImplicit false

namespace EplLang

namespace Store

/-! ## Values that are alike -/

/-- Two values, each in a store of its own, that no look-up tells apart. -/
inductive Alike (s s' : Store) : Value → Value → Prop where
  | scalar (x : Scalar) : Alike s s' (.scalar x) (.scalar x)
  | function (site : Nat) (params : List Text) (body : Block) :
      Alike s s' (.function site params body) (.function site params body)
  | container {shape : Shape} {ref ref' : Nat} : (s'.get ref').keys = (s.get ref).keys →
      (∀ k, ((s'.get ref').get? k).isSome = ((s.get ref).get? k).isSome) →
      (∀ k v w, (s.get ref).get? k = some v → (s'.get ref').get? k = some w → Alike s s' v w) →
      Alike s s' (.container shape ref) (.container shape ref')

namespace Alike

variable {s s' : Store} {v w : Value}

theorem form (alike : s.Alike s' v w) : w.form = v.form := by
  cases alike <;> rfl

theorem size {ref ref' : Nat} (keys : (s'.get ref').keys = (s.get ref).keys) :
    (s'.get ref').size = (s.get ref).size := by
  rw [OrderedMap.size, keys, OrderedMap.size]

theorem length (alike : s.Alike s' v w) : Operator.length s' w = Operator.length s v := by
  cases alike with
  | container keys _ _ => simp only [Operator.length, size keys]
  | scalar x => cases x <;> rfl
  | function site params body => rfl

theorem truthy (alike : s.Alike s' v w) : Operator.truthy s' w = Operator.truthy s v := by
  cases alike with
  | container keys _ _ => simp only [Operator.truthy, size keys]
  | scalar x => cases x <;> rfl
  | function site params body => rfl

end Alike

/-- What holds of a value if it holds of the values in its entries holds of all values,
since no container is inside itself. -/
theorem Ranked.induction {s : Store} (ranked : s.Ranked) {P : Value → Prop}
    (step : ∀ v, (∀ shape ref k u, v = .container shape ref →
      (k, some u) ∈ (s.get ref).entries → P u) → P v) (v : Value) : P v := by
  obtain ⟨rank, ranked⟩ := ranked
  have plain (v : Value) (containers : ∀ shape ref, v = .container shape ref → P v) : P v := by
    cases v with
    | container shape ref => exact containers shape ref rfl
    | _ => exact step _ fun _ _ _ _ same => by cases same
  have below (bound : Nat) : ∀ shape ref, rank ref < bound → P (.container shape ref) := by
    induction bound with
    | zero => exact fun _ _ low => absurd low (Nat.not_lt_zero _)
    | succ bound ih =>
        intro shape ref low
        refine step _ fun shape' ref' k u same member => ?_
        cases same
        refine plain u fun inner place same => ?_
        subst same
        exact ih inner place (Nat.lt_of_lt_of_le (ranked.entry member).2 (Nat.le_of_lt_succ low))
  exact plain v fun shape ref same => same ▸ below _ shape ref (Nat.lt_succ_self _)

section Views

variable {s s' : Store}

theorem find_viewEntries (k : Scalar) (entries : List (Scalar × Option Value)) :
    OrderedMap.find k (s.viewEntries entries) = (OrderedMap.find k entries).map s.view := by
  induction entries with
  | nil => rfl
  | cons entry rest ih =>
      obtain ⟨key, value⟩ := entry
      rw [viewEntries_cons, OrderedMap.find, OrderedMap.find, ih]
      split <;> rfl

theorem keys_viewEntries (entries : List (Scalar × Option Value)) :
    (s.viewEntries entries).map Prod.fst = entries.map Prod.fst := List.map_map

theorem Ranked.among_of_mem (ranked : s.Ranked) {ref : Nat} {k : Scalar} {v : Value}
    (member : (k, some v) ∈ (s.get ref).entries) : v.Among (· < s.cells.size) := by
  obtain ⟨rank, ranked⟩ := ranked
  cases v with
  | container shape inner => exact (ranked.entry member).1
  | _ => trivial

/-- What a value amounts to shows its kind, and for a container its shape and entries. -/
theorem Ranked.view_cases (ranked : s.Ranked) {w : Value} (inside : w.Among (· < s.cells.size)) :
    (∃ x, w = .scalar x ∧ s.view w = .scalar x) ∨
    (∃ site params body, w = .function site params body ∧
      s.view w = .function site params body) ∨
    ∃ shape ref, w = .container shape ref ∧
      s.view w = .container shape ⟨s.viewEntries (s.get ref).entries⟩ := by
  cases w with
  | scalar x => exact .inl ⟨x, rfl, by simp [view, viewTo]⟩
  | function site params body => exact .inr (.inl ⟨site, params, body, rfl, by simp [view, viewTo]⟩)
  | container shape ref =>
      exact .inr (.inr ⟨shape, ref, rfl, ranked.view_container shape inside⟩)

/-- **Values that amount to the same are alike.** -/
theorem alike_of_view_eq (ranked : s.Ranked) (ranked' : s'.Ranked) {v w : Value}
    (inside : v.Among (· < s.cells.size)) (inside' : w.Among (· < s'.cells.size))
    (same : s'.view w = s.view v) : s.Alike s' v w := by
  induction v using ranked.induction generalizing w with
  | step v ih =>
      have other := ranked'.view_cases inside'
      rw [same] at other
      rcases ranked.view_cases inside with ⟨x, rfl, shown⟩ | ⟨site, params, body, rfl, shown⟩ |
        ⟨shape, ref, rfl, shown⟩
      · rw [shown] at other
        rcases other with ⟨_, rfl, ⟨⟩⟩ | ⟨_, _, _, _, ⟨⟩⟩ | ⟨_, _, _, ⟨⟩⟩
        exact .scalar x
      · rw [shown] at other
        rcases other with ⟨_, _, ⟨⟩⟩ | ⟨_, _, _, rfl, ⟨⟩⟩ | ⟨_, _, _, ⟨⟩⟩
        exact .function site params body
      · rw [shown] at other
        rcases other with ⟨_, _, ⟨⟩⟩ | ⟨_, _, _, _, ⟨⟩⟩ | ⟨shape', ref', rfl, contents⟩
        obtain ⟨rfl, items⟩ := Data.container.inj contents
        have entries : s'.viewEntries (s'.get ref').entries = s.viewEntries (s.get ref).entries :=
          (Items.mk.inj items).symm
        have found (k : Scalar) : ((s'.get ref').get? k).map s'.view =
            ((s.get ref).get? k).map s.view := by
          rw [OrderedMap.get?_eq_find, ← find_viewEntries, entries, find_viewEntries,
            OrderedMap.get?_eq_find]
        refine .container ?_ (fun k => ?_) fun k u u' old new => ?_
        · rw [← OrderedMap.map_fst_entries, ← keys_viewEntries, entries, keys_viewEntries,
            OrderedMap.map_fst_entries]
        · simpa using congrArg Option.isSome (found k)
        · obtain ⟨key, member, -⟩ := OrderedMap.exists_mem_entries _ old
          obtain ⟨key', member', -⟩ := OrderedMap.exists_mem_entries _ new
          have views := found k
          rw [old, new] at views
          exact ih shape ref key u rfl member (ranked.among_of_mem member)
            (ranked'.among_of_mem member') (Option.some.inj views)

end Views

/-! ## Later changes -/

/-- Stores that come about from another by making containers and by setting entries of
containers inside a value to copies. -/
inductive Mutated (v : Value) (s : Store) : Store → Prop where
  | start : Mutated v s s
  | grown {t t' : Store} : Mutated v s t → t.Extends t' → Mutated v s t'
  | assigned {t : Store} {shape : Shape} {ref : Nat} (k : Scalar) (u : Value) : Mutated v s t →
      t.Reaches v (.container shape ref) →
      Mutated v s ((t.copy u).2.put ref (((t.copy u).2.get ref).set k (t.copy u).1))

theorem Closed.reaches {s : Store} {refs : Nat → Prop} (closed : s.Closed refs) {v w : Value}
    (held : v.Among refs) (reaches : s.Reaches v w) : w.Among refs := by
  induction reaches with
  | here => exact held
  | @inside shape ref k u w member _ ih =>
      refine ih ?_
      cases u with
      | container shape' inner => exact closed.entry held member
      | _ => trivial

/-- **Changing one value does not change another** if the containers of the two are
apart. Along the changes, those of the changed value stay closed together with the copies
that are stored in it, and the copies are new. -/
theorem view_of_mutated {s t : Store} {refs kept : Nat → Prop} (ranked : s.Ranked)
    (changed : s.Closed refs) (spared : s.Closed kept) (apart : ∀ ref, refs ref → ¬kept ref)
    {v w : Value} (held : v.Among refs) (other : w.Among kept) (mutated : s.Mutated v t) :
    t.view w = s.view w := by
  obtain ⟨_, agrees⟩ : (∃ refs, t.Closed refs ∧ v.Among refs ∧ ∀ ref, refs ref → ¬kept ref) ∧
      s.Agrees kept t := by
    induction mutated with
    | start =>
        exact ⟨⟨refs, changed, held, apart⟩,
          ⟨Nat.le_refl _, spared.inside, fun _ => rfl, spared.entry⟩⟩
    | grown _ later ih =>
        obtain ⟨⟨refs, closed, held, apart⟩, agrees⟩ := ih
        refine ⟨⟨refs, closed.later later, held, apart⟩, ?_⟩
        refine ⟨Nat.le_trans agrees.longer later.longer, agrees.inside, fun among => ?_,
          agrees.entry⟩
        have old := Nat.lt_of_lt_of_le (agrees.inside among) agrees.longer
        exact (later.same old).trans (agrees.same among)
    | @assigned t shape ref k u _ reaches ih =>
        obtain ⟨⟨refs, closed, held, apart⟩, agrees⟩ := ih
        have here : refs ref := closed.reaches held reaches
        have inside : ref < t.cells.size := closed.inside here
        refine ⟨⟨_, closed.putCopy ref k u, held.imp fun _ => .inl, ?_⟩, ?_⟩
        · rintro place (old | ⟨_, new, _⟩) among
          · exact apart place old among
          · exact absurd (agrees.inside among) (Nat.not_lt_of_le (Nat.le_trans agrees.longer new))
        · refine ⟨?_, agrees.inside, fun {place} among => ?_, agrees.entry⟩
          · rw [size_put]
            exact Nat.le_trans agrees.longer (Extends.copy t u).longer
          · have differs : place ≠ ref := by
              rintro rfl
              exact apart place here among
            have old := Nat.lt_of_lt_of_le (agrees.inside among) agrees.longer
            rw [get_put_copy inside, if_neg differs, get_copy_of_lt u old]
            exact agrees.same among
  refine agrees.view_eq ranked fun shape ref same => ?_
  subst same
  exact other

/-! ## Copies -/

/-- A value `w` of a store is a copy of a value `v` of an earlier store. -/
structure Copied (s : Store) (v : Value) (s' : Store) (w : Value) : Prop where
  /-- No container changes. -/
  grown : s.Extends s'
  /-- The containers of the copy are new. -/
  fresh {shape : Shape} {ref : Nat} : s'.Reaches w (.container shape ref) → s.cells.size ≤ ref
  /-- The same kinds, keys and scalars at every level. -/
  alike : s.Alike s' v w
  /-- All functions of what a value amounts to agree, such as its text. -/
  contents : s'.view w = s.view v
  form : w.form = v.form
  shown : (s'.view w).shown = (s.view v).shown ∧ (s'.view w).bare = (s.view v).bare
  length : Operator.length s' w = Operator.length s v
  truthy : Operator.truthy s' w = Operator.truthy s v
  /-- Changes of what was copied do not show in the copy. -/
  unaffected {t : Store} : s'.Mutated v t → t.view w = s'.view w
  /-- Changes of the copy do not show in what was copied. -/
  unaffecting {t : Store} : s'.Mutated w t → t.view v = s'.view v

/-- **A copy is faithful and deep.** -/
theorem copied_copy {s : Store} (ranked : s.Ranked) {v : Value}
    (inside : v.Among (· < s.cells.size)) : s.Copied v (s.copy v).2 (s.copy v).1 := by
  have grown : s.Extends (s.copy v).2 := .copy s v
  have contents : (s.copy v).2.view (s.copy v).1 = s.view v := view_copy (.refl _)
  have old := (Closed.all ranked).later grown
  have new := Closed.copy s v
  have held : (s.copy v).1.Among
      fun ref => s.cells.size ≤ ref ∧ ref < (s.copy v).2.cells.size := by
    cases copied : (s.copy v).1 with
    | container shape ref => exact copy_new copied
    | _ => trivial
  have alike : s.Alike (s.copy v).2 v (s.copy v).1 :=
    alike_of_view_eq ranked (ranked.copy v) inside (held.imp fun _ => And.right) contents
  exact {
    grown, alike, contents
    fresh := fun reaches => (new.reaches held reaches).1
    form := alike.form
    shown := by simp only [contents, and_self]
    length := alike.length
    truthy := alike.truthy
    unaffected := view_of_mutated (ranked.copy v) old new
      (fun ref before after => Nat.not_lt_of_le after.1 before) inside held
    unaffecting := view_of_mutated (ranked.copy v) new old
      (fun ref after before => Nat.not_lt_of_le after.1 before) held inside }

end Store

/-! ## Values as expressions -/

namespace Data

mutual

/-- Data as an expression, with its scalars and functions as literals. -/
def node : Data → Node
  | .scalar x => .literal x
  | .function site params body => .function site params body
  | .container shape ⟨entries⟩ => .container shape ⟨nodeEntries entries⟩

/-- The entries of a container as expressions. -/
def nodeEntries : List (Scalar × Option Data) → List (Scalar × Option Node)
  | [] => []
  | (k, none) :: rest => (k, none) :: nodeEntries rest
  | (k, some d) :: rest => (k, some (node d)) :: nodeEntries rest

end

theorem nodeEntries_eq (entries : List (Scalar × Option Data)) :
    nodeEntries entries = entries.map fun entry => (entry.1, entry.2.map node) := by
  induction entries with
  | nil => rfl
  | cons entry rest ih =>
      obtain ⟨k, value⟩ := entry
      cases value <;> simp [nodeEntries, ih]

end Data

/-- **Evaluating data as an expression puts it into the store**, and does nothing else. -/
theorem eval_node (s : Surroundings) {d : Data} (keyed : d.Keyed) {fuel : Nat}
    (enough : d.depth ≤ fuel) (m : Machine) :
    (calls fuel s).eval d.node m =
      .ok (m.store.write d).1 { m with store := (m.store.write d).2 } := by
  induction keyed generalizing fuel m with
  | scalar x =>
      obtain ⟨fuel, rfl⟩ := Nat.exists_eq_add_of_le' enough
      rfl
  | function site params body =>
      obtain ⟨fuel, rfl⟩ := Nat.exists_eq_add_of_le' enough
      rfl
  | @container shape entries distinct known _ ih =>
      simp only [Data.depth] at enough
      obtain ⟨fuel, rfl⟩ : ∃ less, fuel = less + 1 := ⟨fuel - 1, by omega⟩
      have each : ∀ k d, (k, some d) ∈ entries → ∀ m : Machine, (calls fuel s).eval d.node m =
          .ok (m.store.write d).1 { m with store := (m.store.write d).2 } := by
        intro k d member
        have deep := Data.depth_le_of_mem member
        exact ih k d member (by omega)
      have items : Eval.items (calls fuel s) .empty (Data.nodeEntries entries) m =
          .ok (Store.ofEntries (m.store.writeEntries entries).1)
            { m with store := (m.store.writeEntries entries).2 } := by
        rw [Data.nodeEntries_eq]
        exact items_written s _ .empty (fun entry member => (known entry member).2) each m
      exact Run.bind_of_ok items

/-- What a value amounts to has a value under each key, if no key is nan. -/
theorem Store.viewTo_keyed {s : Store} (depth : Nat) {v : Value}
    (known : ∀ shape ref, s.Reaches v (.container shape ref) →
      ∀ k ∈ (s.get ref).keys, k.isNan = false) : (s.viewTo depth v).Keyed := by
  induction depth generalizing v with
  | zero =>
      cases v with
      | scalar x => exact .scalar x
      | function site params body => exact .function site params body
      | container shape ref =>
          exact .container .nil (fun _ member => by cases member) fun _ _ member => by cases member
  | succ depth ih =>
      cases v with
      | scalar x => exact .scalar x
      | function site params body => exact .function site params body
      | container shape ref =>
          obtain ⟨distinct, complete⟩ := (s.get ref).formed_entries
          refine .container (List.pairwise_map.mpr distinct) ?_ fun k d member => ?_
          · intro entry member
            obtain ⟨⟨k, value⟩, inside, rfl⟩ := List.mem_map.mp member
            have findable : k.isLost = false := by
              rw [Scalar.isLost_eq]
              exact known shape ref .here k ((s.get ref).mem_entries.mp inside).1
            have value := complete _ inside
            rw [findable] at value
            exact ⟨findable, by simpa using value⟩
          · obtain ⟨⟨key, value⟩, inside, same⟩ := List.mem_map.mp member
            cases value with
            | none => cases same
            | some u =>
                cases same
                exact ih fun shape' ref' reaches => known shape' ref' (.inside inside reaches)

/-- **Copying is faithful and deep.** Take a value whose containers exist in a reachable
state. Asking for a copy of it gives one, and so does evaluating the value as an
expression, with enough fuel for its depth and if none of its keys is nan. Nothing but the
store is touched. -/
theorem copying_faithful {m : Machine} (reachable : Reachable m) {v : Value}
    (fits : v.Fits .any m.store) :
    (∃ w store, Run.copy v m = .ok w { m with store } ∧ m.store.Copied v store w) ∧
    ((∀ shape ref, m.store.Reaches v (.container shape ref) →
        ∀ k ∈ (m.store.get ref).keys, k.isNan = false) →
      ∀ (s : Surroundings) (fuel : Nat), (m.store.view v).depth ≤ fuel →
        ∃ w store, (calls fuel s).eval (m.store.view v).node m = .ok w { m with store } ∧
          m.store.Copied v store w) := by
  have state := reachable.apart
  have inside : v.Among (· < m.store.cells.size) := by
    cases v with
    | container shape ref => exact fits
    | _ => trivial
  have copied := Store.copied_copy state.ranked inside
  refine ⟨⟨_, _, rfl, copied⟩, fun known s fuel enough => ?_⟩
  have keyed : (m.store.view v).Keyed := Store.viewTo_keyed _ known
  rw [Store.copy_eq_write] at copied
  exact ⟨_, _, eval_node s keyed enough m, copied⟩

/-- An object with an array in it that holds a function, under two names. Under one of
them an entry with the key nan has been added. -/
theorem copying_faithful_nested :
    let nan : Float := .ofBits 0x7FF8000000000001
    let array := Node.container .array ⟨[(.number (Binary64.ofInt 0), some (.function 9 [] []))]⟩
    let m := (Block.run 9 {} [⟨1, .bind "x" (.container .object ⟨[(.string "a", some array)]⟩)⟩,
      ⟨2, .bind "y" (.name "x")⟩,
      ⟨3, .assign (.name "x") [.literal (.number nan)] (.text "v")⟩]).last (Machine.start [])
    Reachable m ∧ ∃ x y, m.bindings.find? "x" = some x ∧ m.bindings.find? "y" = some y ∧
      x.Fits .any m.store ∧ y.Fits .any m.store ∧
      (∃ ref, x = .container .object ref ∧
        (m.store.get ref).keys = [.string "a", .number nan]) ∧
      (∃ w store, Run.copy x m = .ok w { m with store } ∧ m.store.Copied x store w) ∧
      ∃ w store, (calls 9 {}).eval (m.store.view y).node m = .ok w { m with store } ∧
        m.store.Copied y store w := by
  intro nan array m
  have reachable : Reachable m := .run (.start []) (.last 9 {} _ _)
  have first : m.bindings.find? "x" = some (.container .object 3) := by rfl
  have second : m.bindings.find? "y" = some (.container .object 5) := by rfl
  have keys : (m.store.get 3).keys = [.string "a", .number nan] := by rfl
  have outer : (m.store.get 5).entries = [(.string "a", some (.container .array 4))] := by
    simp only [m, array, nan]
    rfl
  have inner : (m.store.get 4).entries =
      [(.number (Binary64.ofInt 0), some (.function 9 [] []))] := by
    simp only [m, array, nan]
    rfl
  have depth : (m.store.view (.container .object 5)).depth ≤ 9 := by decide +kernel
  clear_value m
  have bound {n : Text} {v : Value} (found : m.bindings.find? n = some v) : v.Fits .any m.store :=
    reachable.apart.fits.bound found
  refine ⟨reachable, _, _, first, second, bound first, bound second, ⟨3, rfl, keys⟩,
    (copying_faithful reachable (bound first)).1, ?_⟩
  refine (copying_faithful reachable (bound second)).2 ?_ {} 9 depth
  intro shape ref reaches k key
  cases reaches with
  | here =>
      rw [← OrderedMap.map_fst_entries, outer] at key
      cases List.mem_singleton.mp key
      rfl
  | inside member reaches =>
      rw [outer] at member
      cases List.mem_singleton.mp member
      cases reaches with
      | here =>
          rw [← OrderedMap.map_fst_entries, inner] at key
          cases List.mem_singleton.mp key
          rfl
      | inside member reaches =>
          rw [inner] at member
          cases List.mem_singleton.mp member
          cases reaches

end EplLang
