import EplLang.Proofs.Contents
import EplLang.Proofs.Holding

/-!
# What is in reach of a value

A program that has a container in hand can get at the values in its entries, and at the
values in those, however deep; and it can call every function it gets at. A value is
sound for a grammar when everything in its reach fits the grammar. Other than
`Machine.Fits` this asks nothing of containers that no longer can be reached.

A store may change in any way that brings only sound values into sound containers:
then what was sound stays sound (`Value.Sound.carry`). All changes that the evaluator
makes are of this kind, as a copy of a sound value is sound (`Value.Sound.copy`).
-/

set_option autoImplicit false

namespace EplLang

/-- A value is in reach of another: it is that value, or in reach of one of its
entries. -/
inductive Store.Reaches (s : Store) : Value → Value → Prop where
  | here {v : Value} : Reaches s v v
  | inside {shape : Shape} {ref : Nat} {k : Scalar} {v w : Value} :
      (k, some v) ∈ (s.get ref).entries → Reaches s v w → Reaches s (.container shape ref) w

/-- Everything in reach of a value fits a grammar. -/
structure Value.Sound (g : Grammar) (s : Store) (v : Value) : Prop where
  fits {w : Value} : s.Reaches v w → w.Fits g s

variable {g : Grammar} {s s' : Store}

namespace Value.Sound

variable {v : Value}

theorem scalar (x : Scalar) : Sound g s (.scalar x) := by
  refine ⟨fun reaches => ?_⟩
  cases reaches
  trivial

theorem function {site : Nat} {params : List Text} {body : Block}
    (allowed : g.expr (.function site params body)) : Sound g s (.function site params body) := by
  refine ⟨fun reaches => ?_⟩
  cases reaches
  exact allowed

theorem entry {shape : Shape} {ref : Nat} {k : Scalar} (sound : Sound g s (.container shape ref))
    (member : (k, some v) ∈ (s.get ref).entries) : Sound g s v where
  fits reaches := sound.fits (.inside member reaches)

/-- A container is sound if the values in its entries are. -/
theorem container {shape : Shape} {ref : Nat} (inside : ref < s.cells.size)
    (values : ∀ k v, (k, some v) ∈ (s.get ref).entries → Sound g s v) :
    Sound g s (.container shape ref) := by
  refine ⟨fun reaches => ?_⟩
  cases reaches with
  | here => exact inside
  | inside member reaches => exact (values _ _ member).fits reaches

/-- In a machine whose values all fit, a value is sound if the functions in its reach are
allowed. -/
theorem of_fits {m : Machine} (held : m.Fits .any) (fits : v.Fits .any m.store)
    (functions : ∀ site params body, m.store.Reaches v (.function site params body) →
      g.expr (.function site params body)) : Sound g m.store v := by
  have inside : ∀ {w : Value}, m.store.Reaches v w → w.Fits .any m.store := by
    intro w reaches
    clear functions
    induction reaches with
    | here => exact fits
    | inside member _ ih => exact ih ((held.store _).value member)
  refine ⟨fun {w} reaches => ?_⟩
  cases w with
  | scalar x => trivial
  | function site params body => exact functions site params body reaches
  | container shape ref => exact inside reaches

/-- What is sound stays sound when only sound values are brought into sound containers.
The induction is on the reach in the new store: its first step leads to a value that was
sound before. -/
theorem carry (longer : s.cells.size ≤ s'.cells.size)
    (brought : ∀ shape ref k w, Sound g s (.container shape ref) →
      (k, some w) ∈ (s'.get ref).entries → Sound g s w)
    (sound : Sound g s v) : Sound g s' v := by
  have before : ∀ {w : Value}, s'.Reaches v w → Sound g s w := by
    intro w reaches
    induction reaches with
    | here => exact sound
    | inside member _ ih => exact ih (brought _ _ _ _ sound member)
  exact ⟨fun reaches => ((before reaches).fits .here).mono longer⟩

theorem mono (later : s.Extends s') (sound : Sound g s v) : Sound g s' v := by
  refine sound.carry later.longer fun shape ref k w container member => ?_
  rw [later.same (container.fits .here)] at member
  exact container.entry member

/-- Setting an entry of a sound container to a sound value. -/
theorem put {shape : Shape} {ref : Nat} {w : Value} (container : Sound g s (.container shape ref))
    (k : Scalar) (value : Sound g s w) (sound : Sound g s v) :
    Sound g (s.put ref ((s.get ref).set k w)) v := by
  have contents : ∀ other, (s.put ref ((s.get ref).set k w)).get other =
      if other = ref then (s.get ref).set k w else s.get other := by
    intro other
    rw [Store.get_put]
    simp only [show ref < s.cells.size from container.fits .here, and_true]
  refine sound.carry (Nat.le_of_eq (s.size_put ref _).symm)
    fun shape' other key u inner member => ?_
  rw [contents] at member
  split at member
  · rcases OrderedMap.mem_set member with rfl | old
    · exact value
    · exact container.entry old
  · exact inner.entry member

theorem push {shape : Shape} {c : Container Value}
    (values : ∀ k v, (k, some v) ∈ c.entries → Sound g s v) :
    Sound g (s.push shape c).2 (s.push shape c).1 := by
  have later := Store.Extends.push s shape c
  apply container
  · rw [Store.size_push]
    exact Nat.lt_succ_self _
  · intro k v member
    rw [Store.get_push_self] at member
    exact (values k v member).mono later

end Value.Sound

/-! ## Copies -/

namespace Store

mutual

/-- Written data is sound if it fits. -/
theorem write_sound : ∀ (d : Data) (s : Store), d.Fits g → (write d s).1.Sound g (write d s).2
  | .scalar x, _, _ => .scalar x
  | .function .., _, .function allowed => .function allowed
  | .container _ ⟨entries⟩, s, .container inner => by
      refine .push fun k v member => ?_
      rcases mem_ofEntries member with rfl | ⟨key, there⟩
      · exact .scalar _
      · exact writeEntries_sound entries s inner key v there

theorem writeEntries_sound : ∀ (entries : List (Scalar × Option Data)) (s : Store),
    (∀ k d, (k, some d) ∈ entries → d.Fits g) →
    ∀ k v, (k, some v) ∈ (writeEntries entries s).1 → v.Sound g (writeEntries entries s).2
  | [], s, _ => fun k v member => by cases member
  | (key, none) :: rest, s, data => by
      intro k v member
      have others : ∀ k d, (k, some d) ∈ rest → d.Fits g :=
        fun k d member => data k d (List.mem_cons_of_mem _ member)
      rcases List.mem_cons.mp member with here | there
      · cases here
      · exact writeEntries_sound rest s others k v there
  | (key, some d) :: rest, s, data => by
      intro k v member
      have others : ∀ k d, (k, some d) ∈ rest → d.Fits g :=
        fun k d member => data k d (List.mem_cons_of_mem _ member)
      rcases List.mem_cons.mp member with here | there
      · cases here
        have value := write_sound d s (data key d List.mem_cons_self)
        exact value.mono (.writeEntries rest (write d s).2)
      · exact writeEntries_sound rest (write d s).2 others k v there

end

end Store

theorem Value.Sound.copy {v : Value} (sound : v.Sound g s) : (s.copy v).1.Sound g (s.copy v).2 := by
  rw [Store.copy_eq_write]
  exact Store.write_sound _ s (Store.viewTo_fits (fun sound => sound.fits .here)
    (fun sound member => sound.entry member) _ sound)

end EplLang
