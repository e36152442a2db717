import EplLang.Proofs.Sparing

/-!
# Work apart from a store

An imported file is run in a frame of its own, but in the store of the importer. What
keeps the two apart are references. The new frame holds built-in functions only, so the
imported program starts without a reference to any container that was there before, and
it cannot come by one: copies and new containers lie beyond the old ones and refer to
nothing in them. And it changes no container that it does not refer to.

The discipline `apart` says so for a whole run, nested imports included (`run_apart`). It
is the one that spares the containers of the older store (`apart_eq`). Apart from nothing
it says that containers are ranked, so everything that is held in a reachable state can be
written out (`Reachable.apart`).
-/

set_option autoImplicit false

namespace EplLang

/-! ## Stores -/

/-- A value that is no container of an older store. -/
def Value.Beyond (old : Store) : Value → Prop
  | .container _ ref => old.cells.size ≤ ref
  | _ => True

theorem Value.Beyond.mono {old s : Store} (longer : old.cells.size ≤ s.cells.size) {v : Value}
    (beyond : v.Beyond s) : v.Beyond old := by
  cases v with
  | container shape ref => exact Nat.le_trans longer beyond
  | _ => trivial

theorem Value.Beyond.of_empty (v : Value) : v.Beyond {} := by
  cases v with
  | container shape ref => exact Nat.zero_le ref
  | _ => trivial

theorem Value.beyond_iff {old : Store} {v : Value} :
    v.Beyond old ↔ v.Among (¬· < old.cells.size) := by
  cases v with
  | container shape ref => exact Nat.not_lt.symm
  | _ => exact Iff.rfl

namespace Store

/-- A value of a store amounts to the same when the store has grown. -/
theorem Extends.view_of_fits {g : Grammar} {s s' : Store} (later : s.Extends s')
    (ranked : s.Ranked) {v : Value} (fits : v.Fits g s) : s'.view v = s.view v := by
  refine later.view_eq ranked fun shape ref container => ?_
  rw [container] at fits
  exact fits

/-- The containers of an older store are as they were, and no other refers to them. -/
structure Apart (old s : Store) : Prop extends old.Extends s where
  entry {ref : Nat} {k : Scalar} {v : Value} : old.cells.size ≤ ref →
    (k, some v) ∈ (s.get ref).entries → v.Beyond old

theorem apart_iff {old s : Store} : old.Apart s ↔ old.Spares (· < old.cells.size) s := by
  constructor
  · intro apart
    exact ⟨fun held => Nat.lt_of_lt_of_le held apart.longer, apart.same, fun outside member =>
      Value.beyond_iff.mp (apart.entry (Nat.le_of_not_lt outside) member)⟩
  · intro spares
    refine ⟨⟨Nat.le_of_not_lt fun shorter => ?_, spares.same⟩, fun outside member => ?_⟩
    · exact Nat.lt_irrefl _ (spares.inside shorter)
    · exact Value.beyond_iff.mpr (spares.entry (Nat.not_lt_of_le outside) member)

namespace Apart

variable {old s : Store}

theorem refl (s : Store) : s.Apart s where
  toExtends := .refl s
  entry outside member := absurd (lt_size_of_mem member) (Nat.not_lt_of_le outside)

theorem trans {s' : Store} (first : old.Apart s) (second : s.Apart s') : old.Apart s' where
  toExtends := first.toExtends.trans second.toExtends
  entry {ref k v} outside member := by
    by_cases before : ref < s.cells.size
    · rw [second.same before] at member
      exact first.entry outside member
    · exact (second.entry (Nat.le_of_not_lt before) member).mono first.longer

theorem copy_beyond (apart : old.Apart s) (v : Value) : (s.copy v).1.Beyond old :=
  Value.beyond_iff.mpr ((apart_iff.mp apart).copy_among v)

theorem ofCopy (s : Store) (v : Value) : s.Apart (s.copy v).2 :=
  apart_iff.mpr ((apart_iff.mp (.refl s)).copy v)

end Apart

end Store

/-! ## The discipline -/

/-- A machine that works apart from an older store holds none of its containers. -/
structure Machine.Apart (old : Store) (m : Machine) : Prop where
  fits : m.Fits .any
  ranked : m.store.Ranked
  store : old.Apart m.store
  framed {v : Value} : m.toFrame.Holds v → v.Beyond old

/-- Apart from nothing, all that is left is that values fit and containers are ranked. -/
theorem Machine.Apart.of_ranked {m : Machine} (fits : m.Fits .any) (ranked : m.store.Ranked) :
    m.Apart {} where
  fits := fits
  ranked := ranked
  store := ⟨⟨Nat.zero_le _, fun old => absurd old (Nat.not_lt_zero _)⟩, fun _ _ => .of_empty _⟩
  framed _ := .of_empty _

/-- Work goes on apart from an older store. -/
def apart (old : Store) : Discipline :=
  { holding .any with
    state := Machine.Apart old
    value := fun s v => v.Fits .any s ∧ v.Beyond old }

theorem Machine.apart_iff {old : Store} {m : Machine} :
    m.Apart old ↔ m.Spares (· < old.cells.size) old := by
  constructor
  · rintro ⟨fits, ranked, store, framed⟩
    exact ⟨fits, ranked, Store.apart_iff.mp store, fun holds => Value.beyond_iff.mp (framed holds)⟩
  · rintro ⟨fits, ranked, store, framed⟩
    exact ⟨fits, ranked, Store.apart_iff.mpr store,
      fun holds => Value.beyond_iff.mpr (framed holds)⟩

/-- To work apart from a store is to spare its containers. -/
theorem apart_eq (old : Store) : apart old = sparing (· < old.cells.size) old := by
  have state : Machine.Apart old = Machine.Spares (· < old.cells.size) old :=
    funext fun m => propext Machine.apart_iff
  have value : Value.Beyond old = Value.Among (¬· < old.cells.size) :=
    funext fun v => propext Value.beyond_iff
  unfold apart sparing
  rw [state, value]

theorem apart_laws (old : Store) : (apart old).RegionLaws := by
  rw [apart_eq]
  exact sparing_laws _ old

theorem apart_admits (old : Store) (files : Text → Option Text) : (apart old).Admits files := by
  rw [apart_eq]
  exact sparing_admits _ old files

/-! ## Runs -/

theorem Reachable.apart {m : Machine} (reachable : Reachable m) : m.Apart {} := by
  induction reachable with
  | start input => exact .of_ranked (.start Grammar.any_laws input) Store.empty_ranked
  | @run fuel s body m n _ meets ih =>
      exact meets.state (apart_laws {}) (apart_admits {} s.files) (fun _ _ _ _ _ _ => trivial) ih

/-- However a run of an imported program ends, it has left the store that it found apart. -/
theorem run_apart {m : Machine} (fits : m.Fits .any) (ranked : m.store.Ranked) (fuel : Nat)
    (s : Surroundings) (body : Block) :
    ((Block.run fuel s body).last m.importing).Apart m.store := by
  have start : m.importing.Apart m.store :=
    Machine.apart_iff.mpr (.importing fits ranked (Store.apart_iff.mp (.refl _)))
  exact Discipline.run_last (apart_laws m.store) (apart_admits m.store s.files) start
    fun _ _ _ _ _ _ => trivial

end EplLang
