import EplLang.Key

/-!
# Maps in the order of insertion

A map keeps two things: its keys, listed in the order in which they were first set, and a table
that finds the value under a key. Setting a key asks the table whether the key is there and lists
it only if it is not. The list and the table stay in step (`InStep`): no key is listed twice, and
the table finds something under a key exactly if the key is listed.

A key that differs from itself is never found. Setting it therefore always lists it once more, and
the value that goes into the table is lost.
-/

set_option autoImplicit false

namespace EplLang

variable {κ α : Type} [Key κ]

/-! ## Tables -/

/-- A table of values under keys. -/
structure Table (κ α : Type) where
  pairs : List (κ × α) := []

namespace Table

/-- The value under a key. -/
def get? (t : Table κ α) (k : κ) : Option α :=
  (t.pairs.find? fun pair => Key.same pair.1 k).map Prod.snd

/-- Pairs with a value put under a key: in place of the old one, else after the others. -/
def putPair (k : κ) (v : α) : List (κ × α) → List (κ × α)
  | [] => [(k, v)]
  | (key, value) :: rest =>
    if Key.same key k then (key, v) :: rest else (key, value) :: putPair k v rest

/-- The table with a value put under a key. -/
def insert (t : Table κ α) (k : κ) (v : α) : Table κ α := ⟨putPair k v t.pairs⟩

/-- The table with only the values under some keys. -/
def restrict (t : Table κ α) (keys : List κ) : Table κ α :=
  ⟨keys.filterMap fun k => (t.get? k).map fun v => (k, v)⟩

theorem get?_cons (key k : κ) (value : α) (rest : List (κ × α)) :
    (⟨(key, value) :: rest⟩ : Table κ α).get? k =
      if Key.same key k then some value else (⟨rest⟩ : Table κ α).get? k := by
  simp only [get?, List.find?_cons]
  cases Key.same key k <;> rfl

/-- The same key finds the same. -/
theorem get?_congr (t : Table κ α) {k l : κ} (found : Key.same k l = true) :
    t.get? k = t.get? l := by
  simp only [get?, Key.same_congr_right found]

theorem get?_insert (t : Table κ α) (k l : κ) (v : α) :
    (t.insert k v).get? l = if Key.same k l then some v else t.get? l := by
  obtain ⟨pairs⟩ := t
  induction pairs with
  | nil => exact get?_cons k l v []
  | cons pair rest ih =>
      obtain ⟨key, value⟩ := pair
      unfold insert putPair
      by_cases here : Key.same key k = true
      · rw [if_pos here, get?_cons, get?_cons, Key.same_congr here]
        split <;> rfl
      · rw [if_neg here, get?_cons, get?_cons]
        unfold insert at ih
        rw [ih]
        by_cases given : Key.same k l = true
        · have apart : ¬Key.same key l = true := fun meets =>
            here (Key.trans meets (Key.symm given))
          rw [if_neg apart, if_pos given, if_pos given]
        · rw [if_neg given, if_neg given]

theorem get?_restrict (t : Table κ α) (keys : List κ) (l : κ) :
    (t.restrict keys).get? l = if keys.any (Key.same · l) then t.get? l else none := by
  induction keys with
  | nil => rfl
  | cons key rest ih =>
      rw [List.any_cons]
      cases value : t.get? key with
      | none =>
          have skipped : t.restrict (key :: rest) = t.restrict rest := by
            simp [restrict, value]
          rw [skipped, ih]
          cases here : Key.same key l with
          | false => rfl
          | true => simp [← t.get?_congr here, value]
      | some v =>
          have kept : t.restrict (key :: rest) = ⟨(key, v) :: (t.restrict rest).pairs⟩ := by
            simp [restrict, value]
          rw [kept, get?_cons]
          cases here : Key.same key l with
          | false => exact ih
          | true => simp [← t.get?_congr here, value]

end Table

/-! ## Lists of keys and tables in step -/

/-- A list of keys and a table are in step: no key is listed twice, and there is something under a
key exactly if it is listed. -/
structure InStep (keys : List κ) (table : Table κ α) : Prop where
  distinct : keys.Pairwise fun a b => Key.same a b = false
  listed (k : κ) : (table.get? k).isSome ↔ ∃ key ∈ keys, Key.same key k = true

namespace InStep

variable {keys : List κ} {table : Table κ α}

theorem empty : InStep [] ({} : Table κ α) where
  distinct := .nil
  listed k := by simp [Table.get?]

/-- A key that is not found is new to the list. -/
theorem apart (inStep : InStep keys table) {k : κ} (absent : (table.get? k).isSome = false) :
    ∀ key ∈ keys, Key.same key k = false := by
  intro key member
  refine Bool.eq_false_iff.mpr fun meets => ?_
  rw [(inStep.listed k).mpr ⟨key, member, meets⟩] at absent
  cases absent

/-- Setting a key keeps them in step. -/
theorem set (inStep : InStep keys table) (k : κ) (v : α) :
    InStep (if (table.get? k).isSome then keys else keys ++ [k]) (table.insert k v) := by
  cases present : (table.get? k).isSome with
  | true =>
      refine ⟨inStep.distinct, fun l => ?_⟩
      rw [Table.get?_insert, if_pos rfl]
      by_cases given : Key.same k l = true
      · obtain ⟨key, member, meets⟩ := (inStep.listed k).mp present
        rw [if_pos given]
        exact iff_of_true rfl ⟨key, member, Key.trans meets given⟩
      · rw [if_neg given]
        exact inStep.listed l
  | false =>
      have new := inStep.apart present
      refine ⟨?_, fun l => ?_⟩
      · rw [if_neg Bool.false_ne_true]
        refine List.pairwise_append.mpr ⟨inStep.distinct, List.pairwise_singleton .., ?_⟩
        intro key member other last
        rw [List.mem_singleton.mp last]
        exact new key member
      · rw [Table.get?_insert, if_neg Bool.false_ne_true]
        by_cases given : Key.same k l = true
        · rw [if_pos given]
          exact iff_of_true rfl ⟨k, by simp, given⟩
        · rw [if_neg given, inStep.listed]
          simp [or_and_right, exists_or, given]

/-- Leaving out keys and all that is under them keeps them in step. -/
theorem filter (inStep : InStep keys table) (p : κ → Bool) :
    InStep (keys.filter p) (table.restrict (keys.filter p)) where
  distinct := inStep.distinct.filter p
  listed k := by
    rw [Table.get?_restrict]
    constructor
    · intro found
      by_cases stays : (keys.filter p).any (Key.same · k) = true
      · exact List.any_eq_true.mp stays
      · rw [if_neg stays] at found
        cases found
    · rintro ⟨key, member, meets⟩
      rw [if_pos (List.any_eq_true.mpr ⟨key, member, meets⟩)]
      exact (inStep.listed k).mpr ⟨key, (List.mem_filter.mp member).1, meets⟩

end InStep

/-! ## Maps -/

/-- Values under keys, in the order in which the keys were first set. -/
@[ext]
structure OrderedMap (κ α : Type) [Key κ] where
  keys : List κ
  table : Table κ α
  inStep : InStep keys table

namespace OrderedMap

/-- The map without keys. -/
def empty : OrderedMap κ α := ⟨[], {}, .empty⟩

/-- The number of keys. -/
def size (m : OrderedMap κ α) : Nat := m.keys.length

/-- The value under a key. -/
def get? (m : OrderedMap κ α) (k : κ) : Option α := m.table.get? k

/-- The map with a value set under a key. A new key comes after the others. -/
def set (m : OrderedMap κ α) (k : κ) (v : α) : OrderedMap κ α where
  keys := if (m.table.get? k).isSome then m.keys else m.keys ++ [k]
  table := m.table.insert k v
  inStep := m.inStep.set k v

/-- The map with only those of its keys that satisfy a condition. -/
def filter (p : κ → Bool) (m : OrderedMap κ α) : OrderedMap κ α where
  keys := m.keys.filter p
  table := m.table.restrict (m.keys.filter p)
  inStep := m.inStep.filter p

/-- The map that results from setting the pairs one after another. -/
def ofList (pairs : List (κ × α)) : OrderedMap κ α :=
  pairs.foldl (fun m pair => m.set pair.1 pair.2) empty

/-- The keys in order, each with what is found under it. -/
def entries (m : OrderedMap κ α) : List (κ × Option α) := m.keys.map fun k => (k, m.get? k)

/-- The keys under which something is found, in order, each with its value. -/
def pairs (m : OrderedMap κ α) : List (κ × α) := (m.table.restrict m.keys).pairs

/-- The values that are found, in order. -/
def values (m : OrderedMap κ α) : List α := m.keys.filterMap m.get?

end OrderedMap

end EplLang
