import EplLang.Proofs.Store

/-!
# What values amount to

`view` writes a value out to a depth that is the number of containers in the store. This
is deep enough because containers can be ranked: those in the entries of a container have
lower ranks than it, and all ranks are below the number of containers (`RankedBy`). New
containers are made above those that they refer to, and an assignment puts a copy into a
container, which refers to nothing before it; so for an assignment the copy goes below
everything else.

Two facts follow about stores that grow. What a value amounts to does not change as long
as the containers in it stay as they are (`Agrees.view_eq`), in particular if all that were
there do (`Extends.view_eq`); and a copy amounts to what was copied (`view_copy`).
-/

set_option autoImplicit false

namespace EplLang

namespace Store

/-- A store has grown: the containers that were there are as they were. -/
structure Extends (s s' : Store) : Prop where
  longer : s.cells.size ≤ s'.cells.size
  same {ref : Nat} : ref < s.cells.size → s'.get ref = s.get ref

namespace Extends

variable {s s' s'' : Store}

theorem refl (s : Store) : s.Extends s := ⟨Nat.le_refl _, fun _ => rfl⟩

theorem trans (first : s.Extends s') (second : s'.Extends s'') : s.Extends s'' where
  longer := Nat.le_trans first.longer second.longer
  same old := (second.same (Nat.lt_of_lt_of_le old first.longer)).trans (first.same old)

theorem write (d : Data) (s : Store) : s.Extends (write d s).2 :=
  ⟨(write_extends d s).1, fun old => (write_extends d s).2 _ old⟩

theorem writeEntries (entries : List (Scalar × Option Data)) (s : Store) :
    s.Extends (writeEntries entries s).2 :=
  ⟨(writeEntries_extends entries s).1, fun old => (writeEntries_extends entries s).2 _ old⟩

theorem copy (s : Store) (v : Value) : s.Extends (s.copy v).2 := by
  rw [copy_eq_write]
  exact write _ s

theorem push (s : Store) (shape : Shape) (c : Container Value) :
    s.Extends (s.push shape c).2 where
  longer := by
    rw [size_push]
    exact Nat.le_succ _
  same old := get_push_of_lt old

end Extends

/-! ## Copies amount to what was copied -/

mutual

/-- Written data is read back, also when more containers have been made. -/
theorem viewTo_write : ∀ (d : Data) (s s' : Store) (depth : Nat), d.Formed →
    (write d s).2.Extends s' → (write d s).2.cells.size ≤ s.cells.size + depth →
    s'.viewTo depth (write d s).1 = d
  | .scalar _, s, s', depth, _, _, _ => by simp [write, viewTo]
  | .function .., s, s', depth, _, _, _ => by simp [write, viewTo]
  | .container shape ⟨entries⟩, s, s', depth, .container formed inner, later, deep => by
      have before := Extends.writeEntries entries s
      have pushed :=
        Extends.push (writeEntries entries s).2 shape (ofEntries (writeEntries entries s).1)
      have room : (writeEntries entries s).2.cells.size + 1 ≤ s.cells.size + depth := by
        rw [← size_push _ shape (ofEntries (writeEntries entries s).1)]
        exact deep
      have made : s'.get (writeEntries entries s).2.cells.size =
          ofEntries (writeEntries entries s).1 := by
        rw [later.same]
        · exact get_push_self _ shape _
        · simp only [write, size_push]
          exact Nat.lt_succ_self _
      have kept := entries_ofEntries (formed.of_keys (keys_writeEntries entries s))
      cases depth with
      | zero =>
          have longer := before.longer
          omega
      | succ depth =>
          have inner := viewTo_writeEntries entries s s' depth inner (pushed.trans later) (by omega)
          simp only [write, Store.push, viewTo, made, kept, inner]

theorem viewTo_writeEntries : ∀ (entries : List (Scalar × Option Data)) (s s' : Store)
    (depth : Nat), (∀ k d, (k, some d) ∈ entries → d.Formed) →
    (writeEntries entries s).2.Extends s' →
    (writeEntries entries s).2.cells.size ≤ s.cells.size + depth →
    (writeEntries entries s).1.map (fun (k, v) => (k, v.map (s'.viewTo depth))) = entries
  | [], s, s', depth, _, _, _ => by simp [writeEntries]
  | (k, none) :: rest, s, s', depth, formed, later, deep => by
      have others := viewTo_writeEntries rest s s' depth
        (fun k d member => formed k d (List.mem_cons_of_mem _ member)) later deep
      simp [writeEntries, others]
  | (k, some d) :: rest, s, s', depth, formed, later, deep => by
      have first := Extends.write d s
      have others := Extends.writeEntries rest (write d s).2
      have inner := viewTo_write d s s' depth (formed k d List.mem_cons_self) (others.trans later)
        (Nat.le_trans others.longer deep)
      have outer := viewTo_writeEntries rest (write d s).2 s' depth
        (fun k d member => formed k d (List.mem_cons_of_mem _ member)) later
        (Nat.le_trans deep (Nat.add_le_add_right first.longer depth))
      simp only [writeEntries, List.map_cons, Option.map_some, inner, outer]

end

theorem view_copy {s s' : Store} {v : Value} (later : (s.copy v).2.Extends s') :
    s'.view (s.copy v).1 = s.view v := by
  rw [copy_eq_write] at later ⊢
  exact viewTo_write _ s s' _ (viewTo_formed s _ v) later
    (Nat.le_trans later.longer (Nat.le_add_left _ _))

/-! ## Written containers refer to written ones -/

mutual

/-- A written container refers to containers that were written before it. -/
theorem write_entry : ∀ (d : Data) (s : Store),
    (∀ ref k shape inner, s.cells.size ≤ ref →
      (k, some (.container shape inner)) ∈ ((write d s).2.get ref).entries →
        s.cells.size ≤ inner ∧ inner < ref) ∧
    ∀ shape root, (write d s).1 = .container shape root →
      s.cells.size ≤ root ∧ root < (write d s).2.cells.size
  | .scalar _, s | .function .., s => by
      refine ⟨fun ref k shape inner new member => ?_, by simp [write]⟩
      simp only [write, get_of_size_le new] at member
      cases member
  | .container shape ⟨entries⟩, s => by
      obtain ⟨before, written⟩ := writeEntries_entry entries s
      have longer := (Extends.writeEntries entries s).longer
      refine ⟨fun ref k shape' inner new member => ?_, fun shape' root same => ?_⟩
      · simp only [write] at member
        rcases Nat.lt_trichotomy ref (writeEntries entries s).2.cells.size with old | here | outside
        · rw [get_push_of_lt old] at member
          exact before ref k shape' inner new member
        · subst here
          rw [get_push_self] at member
          rcases mem_ofEntries member with null | ⟨key, there⟩
          · cases null
          · exact written key shape' inner there
        · rw [get_of_size_le (by rw [size_push]; exact outside)] at member
          cases member
      · simp only [write, Store.push, Value.container.injEq] at same
        simp only [write, size_push]
        omega

theorem writeEntries_entry : ∀ (entries : List (Scalar × Option Data)) (s : Store),
    (∀ ref k shape inner, s.cells.size ≤ ref →
      (k, some (.container shape inner)) ∈ ((writeEntries entries s).2.get ref).entries →
        s.cells.size ≤ inner ∧ inner < ref) ∧
    ∀ k shape inner, (k, some (.container shape inner)) ∈ (writeEntries entries s).1 →
      s.cells.size ≤ inner ∧ inner < (writeEntries entries s).2.cells.size
  | [], s => by
      refine ⟨fun ref k shape inner new member => ?_, fun k shape inner member => by cases member⟩
      simp only [writeEntries, get_of_size_le new] at member
      cases member
  | (key, none) :: rest, s => by
      obtain ⟨before, written⟩ := writeEntries_entry rest s
      refine ⟨before, fun k shape inner member => ?_⟩
      rcases List.mem_cons.mp member with here | there
      · cases here
      · exact written k shape inner there
  | (key, some d) :: rest, s => by
      obtain ⟨first, root⟩ := write_entry d s
      obtain ⟨others, written⟩ := writeEntries_entry rest (write d s).2
      have longer := (Extends.write d s).longer
      have later := Extends.writeEntries rest (write d s).2
      refine ⟨fun ref k shape inner new member => ?_, fun k shape inner member => ?_⟩
      · simp only [writeEntries] at member
        by_cases old : ref < (write d s).2.cells.size
        · rw [later.same old] at member
          exact first ref k shape inner new member
        · have found := others ref k shape inner (by omega) member
          omega
      · rcases List.mem_cons.mp member with here | there
        · have found := root shape inner (by simpa using (congrArg Prod.snd here).symm)
          have longest := later.longer
          simp only [writeEntries]
          omega
        · have found := written k shape inner there
          simp only [writeEntries]
          omega

end

/-- A container of a copy refers to containers of the copy that were made before it. -/
theorem copy_entry (s : Store) (v : Value) :
    (∀ ref k shape inner, s.cells.size ≤ ref →
      (k, some (.container shape inner)) ∈ ((s.copy v).2.get ref).entries →
        s.cells.size ≤ inner ∧ inner < ref) ∧
    ∀ shape root, (s.copy v).1 = .container shape root →
      s.cells.size ≤ root ∧ root < (s.copy v).2.cells.size := by
  rw [copy_eq_write]
  exact write_entry _ s

/-! ## Ranks -/

/-- Containers have ranks below the number of containers, each of them a higher one than
the containers in its entries. -/
structure RankedBy (s : Store) (rank : Nat → Nat) : Prop where
  below {ref : Nat} : ref < s.cells.size → rank ref < s.cells.size
  entry {ref inner : Nat} {k : Scalar} {shape : Shape} :
    (k, some (.container shape inner)) ∈ (s.get ref).entries →
      inner < s.cells.size ∧ rank inner < rank ref

/-- Containers can be ranked: none of them is inside itself. -/
def Ranked (s : Store) : Prop := ∃ rank, s.RankedBy rank

theorem empty_ranked : ({} : Store).Ranked :=
  ⟨id, nofun, fun member => by simp [get] at member⟩

/-- There is nothing in containers that do not exist. -/
theorem lt_size_of_mem {s : Store} {ref : Nat} {entry : Scalar × Option Value}
    (member : entry ∈ (s.get ref).entries) : ref < s.cells.size := by
  refine Nat.lt_of_not_le fun outside => ?_
  rw [get_of_size_le outside] at member
  cases member

/-- Some containers are the same in a later store, and those in their entries are among
them. -/
structure Agrees (among : Nat → Prop) (s s' : Store) : Prop where
  longer : s.cells.size ≤ s'.cells.size
  inside {ref : Nat} : among ref → ref < s.cells.size
  same {ref : Nat} : among ref → s'.get ref = s.get ref
  entry {ref inner : Nat} {k : Scalar} {shape : Shape} : among ref →
    (k, some (.container shape inner)) ∈ (s.get ref).entries → among inner

/-- What a value amounts to depends on the depth only as long as that is too small. -/
theorem Agrees.viewTo_eq {among : Nat → Prop} {s s' : Store} (agrees : s.Agrees among s')
    {rank : Nat → Nat} (ranked : s.RankedBy rank) (depth depth' : Nat) {v : Value}
    (deep : ∀ shape ref, v = .container shape ref →
      among ref ∧ rank ref < depth ∧ rank ref < depth') :
    s'.viewTo depth' v = s.viewTo depth v := by
  induction depth generalizing depth' v with
  | zero =>
      cases v with
      | scalar x => simp [viewTo]
      | function site params body => simp [viewTo]
      | container shape ref => exact absurd (deep shape ref rfl).2.1 (Nat.not_lt_zero _)
  | succ depth ih =>
      cases v with
      | scalar x => simp [viewTo]
      | function site params body => simp [viewTo]
      | container shape ref =>
          obtain ⟨old, enough, enough'⟩ := deep shape ref rfl
          cases depth' with
          | zero => exact absurd enough' (Nat.not_lt_zero _)
          | succ depth' =>
              simp only [viewTo, agrees.same old]
              have entries : ∀ entry ∈ (s.get ref).entries,
                  (entry.1, entry.2.map (s'.viewTo depth')) =
                    (entry.1, entry.2.map (s.viewTo depth)) := by
                rintro ⟨k, found⟩ member
                cases found with
                | none => rfl
                | some w =>
                    have inner := ih depth' (v := w) fun shape' inner same => by
                      have lower := (ranked.entry (same ▸ member)).2
                      exact ⟨agrees.entry old (same ▸ member), by omega, by omega⟩
                    simp only [Option.map_some, inner]
              exact congrArg (fun entries => Data.container shape ⟨entries⟩)
                (List.map_congr_left entries)

/-- A value among containers that are the same amounts to the same. -/
theorem Agrees.view_eq {among : Nat → Prop} {s s' : Store} (agrees : s.Agrees among s')
    (ranked : s.Ranked) {v : Value} (member : ∀ shape ref, v = .container shape ref → among ref) :
    s'.view v = s.view v := by
  obtain ⟨rank, ranked⟩ := ranked
  refine agrees.viewTo_eq ranked s.cells.size s'.cells.size fun shape ref same => ?_
  have among := member shape ref same
  have below := ranked.below (agrees.inside among)
  exact ⟨among, below, Nat.lt_of_lt_of_le below agrees.longer⟩

/-- A value amounts to the same in a store that has grown. -/
theorem Extends.view_eq {s s' : Store} (later : s.Extends s') (ranked : s.Ranked) {v : Value}
    (inside : ∀ shape ref, v = .container shape ref → ref < s.cells.size) :
    s'.view v = s.view v := by
  have agrees : s.Agrees (· < s.cells.size) s' := by
    obtain ⟨rank, ranked⟩ := ranked
    exact ⟨later.longer, id, later.same, fun _ member => (ranked.entry member).1⟩
  exact agrees.view_eq ranked inside

namespace Ranked

variable {s : Store}

/-- Ranks can be found for new containers below those that were there, as long as each of
them refers to new containers before it. -/
theorem ofNew {s' : Store} (ranked : s.Ranked) (longer : s.cells.size ≤ s'.cells.size)
    (entries : ∀ ref inner k shape, (k, some (.container shape inner)) ∈ (s'.get ref).entries →
      (k, some (.container shape inner)) ∈ (s.get ref).entries ∨
        s.cells.size ≤ inner ∧ inner < s'.cells.size ∧ (ref < s.cells.size ∨ inner < ref)) :
    s'.Ranked := by
  obtain ⟨rank, ranked⟩ := ranked
  refine ⟨fun ref => if ref < s.cells.size then rank ref + (s'.cells.size - s.cells.size)
    else ref - s.cells.size, fun {ref} here => ?_, fun {ref inner k shape} member => ?_⟩
  · split
    next old =>
      have below := ranked.below old
      omega
    next => omega
  · rcases entries ref inner k shape member with before | ⟨new, made, above⟩
    · obtain ⟨inner_old, lower⟩ := ranked.entry before
      rw [if_pos (lt_size_of_mem before), if_pos inner_old]
      omega
    · rw [if_neg (Nat.not_lt_of_le new)]
      refine ⟨made, ?_⟩
      split <;> omega

theorem copy (ranked : s.Ranked) (v : Value) : (s.copy v).2.Ranked := by
  have later := Extends.copy s v
  refine ranked.ofNew later.longer fun ref inner k shape member => ?_
  by_cases old : ref < s.cells.size
  · rw [later.same old] at member
    exact .inl member
  · obtain ⟨new, before⟩ := (copy_entry s v).1 ref k shape inner (Nat.le_of_not_lt old) member
    exact .inr ⟨new, Nat.lt_trans before (lt_size_of_mem member), .inr before⟩

/-- A new container lies above all others. -/
theorem push (ranked : s.Ranked) (shape : Shape) {c : Container Value}
    (inside : ∀ k shape inner, (k, some (.container shape inner)) ∈ c.entries →
      inner < s.cells.size) : (s.push shape c).2.Ranked := by
  obtain ⟨rank, ranked⟩ := ranked
  refine ⟨fun ref => if ref < s.cells.size then rank ref else s.cells.size, fun {ref} _ => ?_,
    fun {ref inner k shape'} member => ?_⟩
  · rw [size_push]
    split
    next old => exact Nat.lt_succ_of_lt (ranked.below old)
    next => exact Nat.lt_succ_self _
  · have here := lt_size_of_mem member
    rw [size_push] at here ⊢
    by_cases old : ref < s.cells.size
    · rw [get_push_of_lt old] at member
      obtain ⟨inner_old, lower⟩ := ranked.entry member
      rw [if_pos old, if_pos inner_old]
      exact ⟨Nat.lt_succ_of_lt inner_old, lower⟩
    · have new : ref = s.cells.size := by omega
      subst new
      rw [get_push_self] at member
      have inner_old := inside k shape' inner member
      rw [if_neg old, if_pos inner_old]
      exact ⟨Nat.lt_succ_of_lt inner_old, ranked.below inner_old⟩

/-- The containers of a copy that is put into a container are new, all of them. -/
theorem putCopy (ranked : s.Ranked) {ref : Nat} (inside : ref < s.cells.size) (k : Scalar)
    (v : Value) :
    ((s.copy v).2.put ref (((s.copy v).2.get ref).set k (s.copy v).1)).Ranked := by
  have later := Extends.copy s v
  obtain ⟨written, root⟩ := copy_entry s v
  refine ranked.ofNew (by rw [size_put]; exact later.longer) fun other inner key shape member => ?_
  have here := lt_size_of_mem member
  rw [size_put] at here ⊢
  rw [get_put_copy inside] at member
  split at member
  next same =>
    rcases OrderedMap.mem_set member with copied | before
    · obtain ⟨new, made⟩ := root shape inner copied.symm
      exact .inr ⟨new, made, .inl (same ▸ inside)⟩
    · exact .inl (same ▸ before)
  next =>
    by_cases old : other < s.cells.size
    · rw [later.same old] at member
      exact .inl member
    · obtain ⟨new, before⟩ := written other key shape inner (Nat.le_of_not_lt old) member
      exact .inr ⟨new, Nat.lt_trans before here, .inr before⟩

end Ranked

end Store

end EplLang
