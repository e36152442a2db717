import EplLang.Proofs.Contents
import EplLang.Proofs.Holding

/-!
# Containers out of reach

Work gets at containers by references only: from the names, from the receiver, from values on
their way out of calls, and from there through the entries of containers. Copies and new
containers are added to the store and refer to nothing that was out of reach. So if no reference
leads into some containers from outside of them, they stay as they are, and none will ever lead
there.

The discipline `sparing` says so for a whole run, nested calls and imports included. The
containers in question are any that are `kept`: those of an older store (`EplLang.Proofs.Apart`),
or those that only an intermediate result refers to (`EplLang.Proofs.Passing`). If they also
refer to nothing but themselves (`Machine.Secludes`), all values among them amount to the same
afterwards.
-/

set_option autoImplicit false

namespace EplLang

/-! ## Stores -/

/-- A value that is no container, or one of some containers. -/
def Value.Among (refs : Nat → Prop) : Value → Prop
  | .container _ ref => refs ref
  | _ => True

theorem Value.Among.imp {refs refs' : Nat → Prop} (sub : ∀ ref, refs ref → refs' ref) {v : Value}
    (among : v.Among refs) : v.Among refs' := by
  cases v with
  | container shape ref => exact sub ref among
  | _ => trivial

theorem Value.Among.of_all {refs : Nat → Prop} (all : ∀ ref, refs ref) {v : Value} :
    v.Among refs := by
  cases v with
  | container shape ref => exact all ref
  | _ => trivial

theorem Value.Among.and {refs refs' : Nat → Prop} {v : Value} (first : v.Among refs)
    (second : v.Among refs') : v.Among fun ref => refs ref ∧ refs' ref := by
  cases v with
  | container shape ref => exact ⟨first, second⟩
  | _ => trivial

namespace Store

/-- Some containers are as they are in another store, and no others refer to them. -/
structure Spares (kept : Nat → Prop) (old s : Store) : Prop where
  inside {ref : Nat} : kept ref → ref < s.cells.size
  same {ref : Nat} : kept ref → s.get ref = old.get ref
  entry {ref : Nat} {k : Scalar} {v : Value} : ¬kept ref →
    (k, some v) ∈ (s.get ref).entries → v.Among (¬kept ·)

namespace Spares

variable {kept : Nat → Prop} {old s : Store}

/-- Containers beyond the store are none of those that are kept. -/
theorem beyond (spares : old.Spares kept s) {ref : Nat} (new : s.cells.size ≤ ref) : ¬kept ref :=
  fun inside => Nat.not_lt_of_le new (spares.inside inside)

theorem copy_among (spares : old.Spares kept s) (v : Value) :
    (s.copy v).1.Among (¬kept ·) := by
  cases copied : (s.copy v).1 with
  | container shape root => exact spares.beyond ((copy_entry s v).2 shape root copied).1
  | _ => trivial

theorem copy (spares : old.Spares kept s) (v : Value) : old.Spares kept (s.copy v).2 where
  inside held := Nat.lt_of_lt_of_le (spares.inside held) (s.size_le_copy v)
  same held := (get_copy_of_lt v (spares.inside held)).trans (spares.same held)
  entry {ref k w} outside member := by
    by_cases before : ref < s.cells.size
    · rw [get_copy_of_lt v before] at member
      exact spares.entry outside member
    · cases w with
      | container shape inner =>
          have new := (copy_entry s v).1 ref k shape inner (Nat.le_of_not_lt before) member
          exact spares.beyond new.1
      | _ => trivial

theorem push (spares : old.Spares kept s) (shape : Shape) {c : Container Value}
    (values : ∀ k v, (k, some v) ∈ c.entries → v.Among (¬kept ·)) :
    old.Spares kept (s.push shape c).2 where
  inside held := Nat.lt_of_lt_of_le (spares.inside held) (Extends.push s shape c).longer
  same held := (get_push_of_lt (spares.inside held)).trans (spares.same held)
  entry {ref k v} outside member := by
    have here := lt_size_of_mem member
    rw [size_push] at here
    by_cases before : ref < s.cells.size
    · rw [get_push_of_lt before] at member
      exact spares.entry outside member
    · have new : ref = s.cells.size := by omega
      rw [new, get_push_self] at member
      exact values k v member

theorem putCopy (spares : old.Spares kept s) {ref : Nat} (outside : ¬kept ref)
    (inside : ref < s.cells.size) (k : Scalar) (v : Value) :
    old.Spares kept ((s.copy v).2.put ref (((s.copy v).2.get ref).set k (s.copy v).1)) where
  inside held := by
    rw [size_put]
    exact (spares.copy v).inside held
  same {other} held := by
    have differs : other ≠ ref := by
      rintro rfl
      exact outside held
    rw [get_put_copy inside, if_neg differs]
    exact (spares.copy v).same held
  entry {other key w} beyond member := by
    rw [get_put_copy inside] at member
    split at member
    next same =>
      rcases OrderedMap.mem_set member with copied | before
      · rw [copied]
        exact spares.copy_among v
      · exact spares.entry outside before
    next => exact (spares.copy v).entry beyond member

end Spares

end Store

/-! ## The discipline -/

/-- A machine that spares some containers does not refer to them. -/
structure Machine.Spares (kept : Nat → Prop) (old : Store) (m : Machine) : Prop where
  fits : m.Fits .any
  ranked : m.store.Ranked
  store : old.Spares kept m.store
  framed {v : Value} : m.toFrame.Holds v → v.Among (¬kept ·)

/-- Work goes on without some containers. -/
def sparing (kept : Nat → Prop) (old : Store) : Discipline :=
  { holding .any with
    state := Machine.Spares kept old
    value := fun s v => v.Fits .any s ∧ v.Among (¬kept ·) }

namespace Machine.Spares

variable {kept : Nat → Prop} {old : Store} {m n : Machine}

theorem copied (state : m.Spares kept old) {v : Value} (value : v.Fits .any m.store) :
    (m.copied v).Spares kept old ∧
      (sparing kept old).value (m.copied v).store (m.store.copy v).1 := by
  obtain ⟨fits, copy⟩ := state.fits.copied value
  exact ⟨⟨fits, state.ranked.copy v, state.store.copy v, state.framed⟩, copy,
    state.store.copy_among v⟩

theorem pushed (state : m.Spares kept old) (shape : Shape) {c : Container Value}
    (values : ∀ v ∈ c.values, (sparing kept old).value m.store v) :
    (m.pushed shape c).Spares kept old ∧
      (sparing kept old).value (m.pushed shape c).store (m.store.push shape c).1 := by
  have entries {k : Scalar} {v : Value} (member : (k, some v) ∈ c.entries) :
      (sparing kept old).value m.store v := values v (c.mem_values.mpr ⟨k, member⟩)
  obtain ⟨fits, made⟩ := state.fits.pushed shape ⟨fun member => (entries member).1⟩
  refine ⟨⟨fits, state.ranked.push shape fun k shape' inner member => (entries member).1,
    state.store.push shape fun k v member => (entries member).2, state.framed⟩, made, ?_⟩
  exact state.store.beyond (Nat.le_refl _)

theorem storedAt (state : m.Spares kept old) {shape : Shape} {ref : Nat}
    (container : (sparing kept old).value m.store (.container shape ref)) (k : Scalar) {v : Value}
    (value : v.Fits .any m.store) : (m.storedAt ref k v).Spares kept old where
  fits := state.fits.storedAt ref k value
  ranked := state.ranked.putCopy container.1 k v
  store := state.store.putCopy container.2 container.1 k v
  framed := state.framed

theorem withBinding (state : m.Spares kept old) (name : Text) {v : Value}
    (value : (sparing kept old).value m.store v) :
    Spares kept old { m with bindings := m.bindings.set name v } where
  fits := state.fits.withBinding name value.1
  ranked := state.ranked
  store := state.store
  framed {w} holds := by
    cases holds with
    | bound member =>
        rcases Bindings.mem_set member with ⟨_, same⟩ | before
        · rw [same]
          exact value.2
        · exact state.framed (.bound before)
    | receiver same => exact state.framed (.receiver same)
    | returned member => exact state.framed (.returned member)

theorem withReceiver (state : m.Spares kept old) {receiver : Option Value}
    (values : ∀ v, receiver = some v → (sparing kept old).value m.store v) :
    Spares kept old { m with receiver := receiver } where
  fits := state.fits.withReceiver fun v same => (values v same).1
  ranked := state.ranked
  store := state.store
  framed {w} holds := by
    cases holds with
    | bound member => exact state.framed (.bound member)
    | receiver same => exact (values w same).2
    | returned member => exact state.framed (.returned member)

theorem withReturns (state : m.Spares kept old) {returns : List Value}
    (values : ∀ v ∈ returns, (sparing kept old).value m.store v) :
    Spares kept old { m with returns := returns } where
  fits := state.fits.withReturns fun v member => (values v member).1
  ranked := state.ranked
  store := state.store
  framed {w} holds := by
    cases holds with
    | bound member => exact state.framed (.bound member)
    | receiver same => exact state.framed (.receiver same)
    | returned member => exact (values w member).2

theorem closedTo (state : m.Spares kept old) (outer : List Text) :
    (m.closedTo outer).Spares kept old where
  fits := state.fits.closedTo outer
  ranked := state.ranked
  store := state.store
  framed {w} holds := by
    cases holds with
    | bound member => exact state.framed (.bound (Bindings.mem_of_mem_close member))
    | receiver same => exact state.framed (.receiver same)
    | returned member => exact state.framed (.returned member)

/-- The values in the frame, which stay what they are when the store grows. -/
theorem value (state : m.Spares kept old) (longer : m.store.cells.size ≤ n.store.cells.size)
    {v : Value} (holds : m.toFrame.Holds v) : (sparing kept old).value n.store v :=
  ⟨(state.fits.framed holds).mono longer, state.framed holds⟩

/-- A change of what holds no values. -/
theorem same (state : m.Spares kept old) (bindings : n.bindings = m.bindings)
    (receiver : n.receiver = m.receiver) (returns : n.returns = m.returns)
    (store : n.store = m.store) : n.Spares kept old where
  fits := state.fits.same bindings receiver returns store
  ranked := store ▸ state.ranked
  store := store ▸ state.store
  framed {w} holds := by
    cases holds with
    | bound member => exact state.framed (.bound (bindings ▸ member))
    | receiver same => exact state.framed (.receiver (receiver ▸ same))
    | returned member => exact state.framed (.returned (returns ▸ member))

/-- What a call takes, and the state after it. -/
theorem taken (state : m.Spares kept old) {depth : Nat} {v : Value}
    (taken : Eval.takeReturn depth m = .ok v n) :
    n.Spares kept old ∧ v.Fits .any n.store ∧ n.store = m.store := by
  refine ⟨?_, (state.fits.taken taken).2, ?_⟩ <;>
    rcases takeReturn_cases taken with ⟨_, _, rfl⟩ | ⟨rest, pending, rfl⟩
  · exact state
  · refine state.withReturns fun w member => state.value (Nat.le_refl _) (.returned ?_)
    rw [pending]
    exact List.mem_cons_of_mem _ member
  · rfl
  · rfl

/-- An imported program starts with no reference to any container. -/
theorem importing (fits : m.Fits .any) (ranked : m.store.Ranked) (store : old.Spares kept m.store) :
    m.importing.Spares kept old where
  fits := fits.importing Grammar.any_laws
  ranked := ranked
  store := store
  framed {w} holds := by
    cases holds with
    | bound member =>
        obtain ⟨_, _, same⟩ := List.mem_map.mp (Bindings.mem_of_mem_ofList member)
        cases same
        trivial
    | receiver same => cases same
    | returned member => cases member

end Machine.Spares

theorem sparing_laws (kept : Nat → Prop) (old : Store) : (sparing kept old).RegionLaws where
  refl _ _ := Nat.le_refl _
  trans first second := Nat.le_trans first second
  coarsen longer := longer
  widen longer := longer
  scalar _ _ := ⟨trivial, trivial⟩
  named state named := Machine.Spares.value state (Nat.le_refl _) named.holds
  entry state container member :=
    ⟨(Machine.Fits.store (Machine.Spares.fits state) _).value member,
      (Machine.Spares.store state).entry container.2 member⟩
  stays longer value := ⟨value.1.mono longer, value.2⟩
  fault := Grammar.any_laws.fault
  outOfFuel := trivial
  parts := Grammar.any_laws.parts
  function _ allowed := ⟨allowed, trivial⟩
  meaning := Grammar.any_laws.meaning
  copied {m v} state value := by
    obtain ⟨copied, copy⟩ := Machine.Spares.copied state value.1
    exact ⟨⟨copied, m.store.size_le_copy v⟩, copy⟩
  pushed {m} shape {c} state values := by
    obtain ⟨pushed, made⟩ := Machine.Spares.pushed state shape values
    exact ⟨⟨pushed, (Store.Extends.push m.store shape c).longer⟩, made⟩
  stored {m shape ref} k {v} _ state container value :=
    ⟨Machine.Spares.storedAt state container k value.1, m.size_le_storedAt ref k v⟩
  world _ _ _ _ _ state := ⟨Machine.Spares.same state rfl rfl rfl rfl, Nat.le_refl _⟩
  body allowed member := Grammar.any_laws.body allowed.1 member
  stmtParts := Grammar.any_laws.stmtParts
  stmtBlocks := Grammar.any_laws.stmtBlocks
  stmtMeaning := Grammar.any_laws.stmtMeaning
  bound {m} n {v} _ state value := by
    obtain ⟨copied, copy⟩ := Machine.Spares.copied state value.1
    exact ⟨copied.withBinding n copy, m.store.size_le_copy v⟩
  boundEntry {m} n k {v} _ state value := by
    obtain ⟨copied, copy⟩ := Machine.Spares.copied state value.1
    obtain ⟨pushed, made⟩ := copied.pushed .object fun w member => by
      rcases Eval.mem_values_entryObject member with rfl | rfl
      · exact ⟨trivial, trivial⟩
      · exact copy
    exact ⟨pushed.withBinding n made, m.size_le_boundToEntry n k v⟩
  prompt _ _ := trivial
  closed _ leads := ⟨Machine.Spares.closedTo leads.1 _, leads.2⟩
  given {m n v} _ leads value := by
    have state : n.Spares kept old := leads.1
    refine ⟨state.withReturns fun w member => ?_, leads.2⟩
    rcases List.mem_cons.mp member with rfl | before
    · exact value
    · exact state.value (Nat.le_refl _) (.returned before)
  broken state _ := ⟨Machine.Spares.same state rfl rfl rfl rfl, Nat.le_refl _⟩
  ended state := ⟨Machine.Spares.same state rfl rfl rfl rfl, Nat.le_refl _⟩
  returned {m n k v} _ leads taken := by
    obtain ⟨state, fits, store⟩ := Machine.Spares.taken leads.1 taken
    have longer : m.store.cells.size ≤ k.store.cells.size := store ▸ leads.2
    obtain ⟨copied, copy⟩ := state.copied fits
    exact ⟨⟨copied.closedTo _, Nat.le_trans longer (k.store.size_le_copy v)⟩, copy⟩
  marked _ _ state := ⟨Machine.Spares.same state rfl rfl rfl rfl, Nat.le_refl _⟩
  entered {m receiver} state values := by
    refine Machine.Spares.withReceiver state fun w same => ?_
    cases receiver with
    | none => exact Machine.Spares.value state (Nat.le_refl _) (.receiver same)
    | some v => exact values w same
  left {m n receiver} state leads := by
    refine ⟨Machine.Spares.withReceiver leads.1 fun w same => ?_, leads.2⟩
    exact Machine.Spares.value state leads.2 (.receiver same)
  importing _ state := .importing (Machine.Spares.fits state) (Machine.Spares.ranked state)
    (Machine.Spares.store state)
  resuming {m n} _ state leads := by
    have state' : n.Spares kept old := leads.1
    refine ⟨⟨?_, state'.ranked, state'.store, Machine.Spares.framed state⟩, leads.2⟩
    exact Machine.Fits.resuming (Machine.Spares.fits state) leads.2 state'.fits

theorem sparing_admits (kept : Nat → Prop) (old : Store) (files : Text → Option Text) :
    (sparing kept old).Admits files :=
  fun _ _ _ _ => ⟨fun _ _ _ _ _ _ _ _ _ _ => trivial, fun _ _ _ => trivial⟩

/-! ## Secluded containers -/

namespace Machine

/-- No reference leads into some containers from outside of them, and none leads out. -/
structure Secludes (m : Machine) (kept : Nat → Prop) : Prop where
  spares : m.Spares kept m.store
  entry {ref inner : Nat} {k : Scalar} {shape : Shape} : kept ref →
    (k, some (.container shape inner)) ∈ (m.store.get ref).entries → kept inner

namespace Secludes

variable {m n : Machine} {kept : Nat → Prop}

/-- Containers that are secluded stay secluded while work goes on without them. -/
theorem later (secludes : m.Secludes kept) (after : n.Spares kept m.store) : n.Secludes kept where
  spares := ⟨after.fits, after.ranked, ⟨after.store.inside, fun _ => rfl, after.store.entry⟩,
    after.framed⟩
  entry held member := secludes.entry held (after.store.same held ▸ member)

theorem agrees (secludes : m.Secludes kept) (after : n.Spares kept m.store)
    (longer : m.store.cells.size ≤ n.store.cells.size) : m.store.Agrees kept n.store :=
  ⟨longer, secludes.spares.store.inside, after.store.same, secludes.entry⟩

theorem none (fits : m.Fits .any) (ranked : m.store.Ranked) : m.Secludes fun _ => False where
  spares := ⟨fits, ranked, ⟨False.elim, False.elim, fun _ _ => .of_all fun _ => id⟩,
    fun _ => .of_all fun _ => id⟩
  entry := False.elim

theorem union {kept' : Nat → Prop} (first : m.Secludes kept) (second : m.Secludes kept') :
    m.Secludes fun ref => kept ref ∨ kept' ref where
  spares := by
    refine ⟨first.spares.fits, first.spares.ranked, ⟨?_, fun _ => rfl, ?_⟩, ?_⟩
    · rintro ref (held | held)
      · exact first.spares.store.inside held
      · exact second.spares.store.inside held
    · intro ref k v outside member
      obtain ⟨notFirst, notSecond⟩ := not_or.mp outside
      exact ((first.spares.store.entry notFirst member).and
        (second.spares.store.entry notSecond member)).imp fun _ => not_or.mpr
    · intro v holds
      exact ((first.spares.framed holds).and (second.spares.framed holds)).imp fun _ => not_or.mpr
  entry := by
    rintro ref inner k shape (held | held) member
    · exact .inl (first.entry held member)
    · exact .inr (second.entry held member)

/-- A copy is secluded: its containers are the new ones. -/
theorem copied (fits : m.Fits .any) (ranked : m.store.Ranked) {v : Value}
    (value : v.Fits .any m.store) :
    ∃ kept, (m.copied v).Secludes kept ∧ (m.store.copy v).1.Among kept := by
  have later := Store.Extends.copy m.store v
  obtain ⟨written, root⟩ := Store.copy_entry m.store v
  have outside {w : Value} (old : w.Fits .any m.store) : w.Among fun ref =>
      ¬(m.store.cells.size ≤ ref ∧ ref < (m.copied v).store.cells.size) := by
    cases w with
    | container shape ref => exact fun new => Nat.not_lt_of_le new.1 old
    | _ => trivial
  refine ⟨fun ref => m.store.cells.size ≤ ref ∧ ref < (m.copied v).store.cells.size,
    ⟨⟨(fits.copied value).1, ranked.copy v, ⟨And.right, fun _ => rfl, ?_⟩, ?_⟩, ?_⟩, ?_⟩
  · intro ref k w old member
    have before : ref < m.store.cells.size := by
      have here := Store.lt_size_of_mem member
      omega
    rw [show (m.copied v).store.get ref = m.store.get ref from later.same before] at member
    exact outside ((fits.store ref).value member)
  · intro w holds
    exact outside (fits.framed holds)
  · intro ref inner k shape held member
    obtain ⟨new, below⟩ := written ref k shape inner held.1 member
    exact ⟨new, Nat.lt_trans below held.2⟩
  · cases copy : (m.store.copy v).1 with
    | container shape ref => exact root shape ref copy
    | _ => trivial

theorem closedTo (secludes : m.Secludes kept) (outer : List Text) :
    (m.closedTo outer).Secludes kept :=
  ⟨secludes.spares.closedTo outer, secludes.entry⟩

/-- A new container of secluded values is secluded with them. -/
theorem pushed (secludes : m.Secludes kept) (shape : Shape) {c : Container Value}
    (values : ∀ v ∈ c.values, v.Fits .any m.store ∧ v.Among kept) :
    (m.pushed shape c).Secludes fun ref => kept ref ∨ ref = m.store.cells.size := by
  obtain ⟨⟨fits, ranked, store, framed⟩, closed⟩ := secludes
  have entries {k : Scalar} {v : Value} (member : (k, some v) ∈ c.entries) :
      v.Fits .any m.store ∧ v.Among kept := values v (c.mem_values.mpr ⟨k, member⟩)
  have outside {w : Value} (old : w.Fits .any m.store) (free : w.Among (¬kept ·)) :
      w.Among fun ref => ¬(kept ref ∨ ref = m.store.cells.size) := by
    cases w with
    | container shape ref => exact not_or.mpr ⟨free, Nat.ne_of_lt old⟩
    | _ => trivial
  have size : (m.pushed shape c).store.cells.size = m.store.cells.size + 1 :=
    m.store.size_push shape c
  have before {ref : Nat} (old : ref < m.store.cells.size) :
      (m.pushed shape c).store.get ref = m.store.get ref :=
    (Store.Extends.push m.store shape c).same old
  refine ⟨⟨(fits.pushed shape ⟨fun member => (entries member).1⟩).1,
    ranked.push shape fun k shape' inner member => (entries member).1,
    ⟨?_, fun _ => rfl, ?_⟩, ?_⟩, ?_⟩
  · rintro ref (held | rfl)
    · rw [size]
      exact Nat.lt_succ_of_lt (store.inside held)
    · rw [size]
      exact Nat.lt_succ_self _
  · intro ref k w free member
    obtain ⟨notHeld, notNew⟩ := not_or.mp free
    have old : ref < m.store.cells.size := by
      have here := Store.lt_size_of_mem member
      omega
    rw [before old] at member
    exact outside ((fits.store ref).value member) (store.entry notHeld member)
  · intro w holds
    exact outside (fits.framed holds) (framed holds)
  · rintro ref inner k shape' (held | rfl) member
    · rw [before (store.inside held)] at member
      exact .inl (closed held member)
    · have made : (m.pushed shape c).store.get m.store.cells.size = c :=
        Store.get_push_self m.store shape c
      rw [made] at member
      exact .inl (entries member).2

end Secludes

end Machine

end EplLang
