import EplLang.Eval
import EplLang.Proofs.Entries

/-!
# The store

What the operations on the store do. A copy sets the entries of new containers one by one while it
walks through what is copied. This comes to the same as to write the value out as data first and
then to put the data into the store (`copy_eq_write`), and about data one can argue by its
structure: writing leaves the containers already there as they are and appends others. So a copy
consists of new containers only, and the functions in it are those in the value that was copied.
-/

set_option autoImplicit false

namespace EplLang

/-- Data whose containers have different keys, each with a value under it. -/
inductive Data.Keyed : Data → Prop where
  | scalar (x : Scalar) : Keyed (.scalar x)
  | function (site : Nat) (params : List Text) (body : Block) : Keyed (.function site params body)
  | container {shape : Shape} {entries : List (Scalar × Option Data)} :
      entries.Pairwise (fun e f => Scalar.same e.1 f.1 = false) →
      (∀ entry ∈ entries, entry.1.isLost = false ∧ entry.2.isSome) →
      (∀ k d, (k, some d) ∈ entries → Keyed d) → Keyed (.container shape ⟨entries⟩)

/-- The values in the description of an entry. -/
theorem Eval.mem_values_entryObject {k : Scalar} {v w : Value}
    (member : w ∈ (Eval.entryObject k v).values) : w = .scalar k ∨ w = v := by
  obtain ⟨pair, there, rfl⟩ := OrderedMap.mem_values_ofList member
  simp only [List.mem_cons, List.not_mem_nil, or_false] at there
  exact there.imp (congrArg Prod.snd) (congrArg Prod.snd)

/-- Data whose containers have entries as setting keys makes them. -/
inductive Data.Formed : Data → Prop where
  | scalar (x : Scalar) : Formed (.scalar x)
  | function (site : Nat) (params : List Text) (body : Block) : Formed (.function site params body)
  | container {shape : Shape} {entries : List (Scalar × Option Data)} :
      Container.Formed entries → (∀ k d, (k, some d) ∈ entries → Formed d) →
      Formed (.container shape ⟨entries⟩)

/-! ## Single containers -/

namespace Store

theorem get_push_of_lt {s : Store} {shape : Shape} {c : Container Value} {ref : Nat}
    (old : ref < s.cells.size) : (s.push shape c).2.get ref = s.get ref := by
  simp [push, get, Array.getElem?_push, Nat.ne_of_lt old]

theorem get_push_self (s : Store) (shape : Shape) (c : Container Value) :
    (s.push shape c).2.get s.cells.size = c := by
  simp [push, get]

theorem size_push (s : Store) (shape : Shape) (c : Container Value) :
    (s.push shape c).2.cells.size = s.cells.size + 1 := by
  simp [push]

theorem size_put (s : Store) (ref : Nat) (c : Container Value) :
    (s.put ref c).cells.size = s.cells.size := by
  simp [put]

theorem get_put (s : Store) (ref other : Nat) (c : Container Value) :
    (s.put ref c).get other =
      if other = ref ∧ ref < s.cells.size then c else s.get other := by
  unfold put get
  rw [Array.getElem?_setIfInBounds]
  by_cases same : ref = other
  · subst same
    by_cases inside : ref < s.cells.size <;> simp [inside]
  · simp [same, Ne.symm same]

theorem get_of_size_le {s : Store} {ref : Nat} (outside : s.cells.size ≤ ref) :
    s.get ref = .empty := by
  simp [get, outside]

/-! ## Writing data -/

/-- The container that results from setting entries one after another, with null for what has no
value. -/
def ofEntries (entries : List (Scalar × Option Value)) : Container Value :=
  entries.foldl (fun c entry => c.set entry.1 (entry.2.getD .null)) .empty

mutual

/-- Data put into a store as new containers. -/
def write : Data → Store → Value × Store
  | .scalar x, s => (.scalar x, s)
  | .function site params body, s => (.function site params body, s)
  | .container shape ⟨entries⟩, s =>
    let (written, s) := writeEntries entries s
    s.push shape (ofEntries written)

/-- The values in the entries of a container put into a store. -/
def writeEntries : List (Scalar × Option Data) → Store → List (Scalar × Option Value) × Store
  | [], s => ([], s)
  | (k, none) :: rest, s =>
    let (written, s) := writeEntries rest s
    ((k, none) :: written, s)
  | (k, some d) :: rest, s =>
    let (v, s) := write d s
    let (written, s) := writeEntries rest s
    ((k, some v) :: written, s)

end

theorem ofEntries_concat (entries : List (Scalar × Option Value)) (k : Scalar) (o : Option Value) :
    ofEntries (entries ++ [(k, o)]) = (ofEntries entries).set k (o.getD .null) := by
  rw [ofEntries, List.foldl_append]
  rfl

/-- **Entries that are set one after another are the entries of what results**, also if some of
their keys cannot be looked up. -/
theorem entries_ofEntries {entries : List (Scalar × Option Value)}
    (formed : Container.Formed entries) : (ofEntries entries).entries = entries := by
  induction entries using List.reverseRecOn with
  | nil => rfl
  | append_singleton entries entry ih =>
      obtain ⟨k, o⟩ := entry
      obtain ⟨distinct, -, apart⟩ := List.pairwise_append.mp formed.distinct
      have before : Container.Formed entries :=
        ⟨distinct, fun entry member => formed.complete entry (List.mem_append_left _ member)⟩
      have last := formed.complete (k, o) List.mem_concat_self
      have value : (if k.isLost then none else some (o.getD .null)) = o := by
        cases o <;> cases lost : k.isLost <;> simp_all
      rw [ofEntries_concat, Container.entries_set, ih before, value, OrderedMap.put_of_absent]
      exact fun entry member => apart entry member _ (List.mem_singleton.mpr rfl)

/-- Setting entries puts in no value but theirs, and null. -/
theorem mem_ofEntries {entries : List (Scalar × Option Value)} {k : Scalar} {v : Value}
    (member : (k, some v) ∈ (ofEntries entries).entries) :
    v = .null ∨ ∃ key, (key, some v) ∈ entries := by
  induction entries using List.reverseRecOn with
  | nil => cases member
  | append_singleton entries entry ih =>
      obtain ⟨key, o⟩ := entry
      rw [ofEntries_concat] at member
      rcases OrderedMap.mem_set member with rfl | before
      · cases o with
        | none => exact .inl rfl
        | some w => exact .inr ⟨key, List.mem_concat_self⟩
      · refine (ih before).imp_right ?_
        rintro ⟨other, there⟩
        exact ⟨other, List.mem_append_left _ there⟩

/-- Writing keeps the keys, and which of them have values. -/
theorem keys_writeEntries (entries : List (Scalar × Option Data)) (s : Store) :
    (writeEntries entries s).1.map (fun entry => (entry.1, entry.2.isSome)) =
      entries.map fun entry => (entry.1, entry.2.isSome) := by
  induction entries generalizing s with
  | nil => simp [writeEntries]
  | cons entry rest ih =>
      obtain ⟨k, _ | d⟩ := entry <;> simp [writeEntries, ih]

/-- What a value amounts to has the keys that its containers have. -/
theorem viewTo_formed (s : Store) (depth : Nat) (v : Value) : (s.viewTo depth v).Formed := by
  induction depth generalizing v with
  | zero =>
      cases v with
      | scalar x => exact .scalar x
      | function site params body => exact .function site params body
      | container shape ref => exact .container ⟨.nil, nofun⟩ nofun
  | succ depth ih =>
      cases v with
      | scalar x => exact .scalar x
      | function site params body => exact .function site params body
      | container shape ref =>
          refine .container ((s.get ref).formed_entries.of_keys ?_) fun k d member => ?_
          · simp [List.map_map, Function.comp_def]
          · obtain ⟨⟨key, _ | w⟩, -, same⟩ := List.mem_map.mp member
            · cases same
            · cases same
              exact ih w

/-! ## Copies are written data -/

/-- The loop of a copy over some keys sets the entries that writing makes. -/
theorem settle_keys {s : Store} {depth : Nat} {c : Container Value}
    (inner : ∀ v t, s.settleTo depth (some v) t = write (s.viewTo depth v) t) (keys : List Scalar)
    (done : Container Value) (t : Store) :
    keys.foldl (fun (done, t) k =>
        let (v, t) := s.settleTo depth (c.get? k) t
        (done.set k v, t)) (done, t) =
      let written := writeEntries (keys.map fun k => (k, (c.get? k).map (s.viewTo depth))) t
      (written.1.foldl (fun c entry => c.set entry.1 (entry.2.getD .null)) done, written.2) := by
  induction keys generalizing done t with
  | nil => simp [writeEntries]
  | cons k rest ih =>
      rw [List.foldl_cons, ih]
      cases found : c.get? k with
      | none => simp [found, writeEntries, settleTo]
      | some v => simp [found, writeEntries, inner]

theorem settleTo_eq_write (s : Store) (depth : Nat) (v : Value) (t : Store) :
    s.settleTo depth (some v) t = write (s.viewTo depth v) t := by
  induction depth generalizing v t with
  | zero => cases v <;> simp [settleTo, viewTo, write, writeEntries, ofEntries]
  | succ depth ih =>
      cases v with
      | scalar x => simp [settleTo, viewTo, write]
      | function site params body => simp [settleTo, viewTo, write]
      | container shape ref =>
          have loop := settle_keys (c := s.get ref) ih (s.get ref).keys .empty t
          rw [settleTo, viewTo, write, OrderedMap.entries, List.map_map]
          simp only [loop, Function.comp_def]
          rfl

/-- **A copy is what was copied, written out and put into the store.** -/
theorem copy_eq_write (s : Store) (v : Value) : s.copy v = write (s.view v) s :=
  settleTo_eq_write s _ v s

mutual

/-- Writing appends containers and changes none. -/
theorem write_extends : ∀ (d : Data) (s : Store), s.cells.size ≤ (write d s).2.cells.size ∧
    ∀ ref, ref < s.cells.size → (write d s).2.get ref = s.get ref
  | .scalar _, s | .function .., s => by simp [write]
  | .container shape ⟨entries⟩, s => by
      obtain ⟨longer, same⟩ := writeEntries_extends entries s
      simp only [write]
      refine ⟨by rw [size_push]; omega, fun ref old => ?_⟩
      rw [get_push_of_lt (by omega), same ref old]

theorem writeEntries_extends : ∀ (entries : List (Scalar × Option Data)) (s : Store),
    s.cells.size ≤ (writeEntries entries s).2.cells.size ∧
    ∀ ref, ref < s.cells.size → (writeEntries entries s).2.get ref = s.get ref
  | [], s => by simp [writeEntries]
  | (_, none) :: rest, s => by simpa [writeEntries] using writeEntries_extends rest s
  | (_, some d) :: rest, s => by
      obtain ⟨longer, same⟩ := write_extends d s
      obtain ⟨longest, same'⟩ := writeEntries_extends rest (write d s).2
      simp only [writeEntries]
      refine ⟨by omega, fun ref old => ?_⟩
      rw [same' ref (by omega), same ref old]

end

theorem size_le_copy (s : Store) (v : Value) : s.cells.size ≤ (s.copy v).2.cells.size := by
  rw [copy_eq_write]
  exact (write_extends _ s).1

theorem get_copy_of_lt {s : Store} (v : Value) {ref : Nat} (old : ref < s.cells.size) :
    (s.copy v).2.get ref = s.get ref := by
  rw [copy_eq_write]
  exact (write_extends _ s).2 ref old

theorem copy_scalar (s : Store) (x : Scalar) : s.copy (.scalar x) = (.scalar x, s) := by
  simp [copy_eq_write, view, viewTo, write]

/-- The contents after an entry of a container is set to a copy. -/
theorem get_put_copy {s : Store} {ref : Nat} (inside : ref < s.cells.size) (k : Scalar) (v : Value)
    (other : Nat) :
    ((s.copy v).2.put ref (((s.copy v).2.get ref).set k (s.copy v).1)).get other =
      if other = ref then (s.get ref).set k (s.copy v).1 else (s.copy v).2.get other := by
  have longer := s.size_le_copy v
  rw [get_put, get_copy_of_lt v inside]
  by_cases same : other = ref
  · rw [if_pos ⟨same, by omega⟩, if_pos same]
  · rw [if_neg (fun both => same both.1), if_neg same]

end Store

end EplLang
