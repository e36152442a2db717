import EplLang.Bindings
import EplLang.Proofs.Number

/-!
# Maps as lists of entries

A map keeps a list of keys beside a table (`OrderedMap`). Seen from outside it is one list of
entries in order: a look-up searches it from the front (`find`), and setting a key changes the
value of its entry or adds an entry at the end (`put`). That the two structures amount to this
list, for every key and also for those that differ from themselves, is `get?_eq_find` and
`entries_set`; both rest on the list and the table being in step.

Containers and bindings are such maps. Every entry of a container has a value except those whose
key cannot be looked up (`Container.formed_entries`), and the pairs of bindings are their
entries, since a name is always found again (`Bindings.mem_pairs`).
-/

set_option autoImplicit false

namespace EplLang

namespace OrderedMap

variable {κ α : Type} [Key κ] (m : OrderedMap κ α)

/-! ## Look-ups and keys -/

@[simp] theorem get?_empty (k : κ) : (empty : OrderedMap κ α).get? k = none := rfl

@[simp] theorem keys_empty : (empty : OrderedMap κ α).keys = [] := rfl

/-- After a setting the key has the value, and every other key has what it had. -/
theorem get?_set (k l : κ) (v : α) :
    (m.set k v).get? l = if Key.same k l then some v else m.get? l :=
  m.table.get?_insert k l v

theorem get?_congr {k l : κ} (found : Key.same k l = true) : m.get? k = m.get? l :=
  m.table.get?_congr found

/-- Something is found under the listed keys and no others. -/
theorem isSome_get?_iff {k : κ} : (m.get? k).isSome ↔ ∃ key ∈ m.keys, Key.same key k = true :=
  m.inStep.listed k

/-- Under a key that differs from itself nothing is found. -/
theorem get?_of_same_self {k : κ} (lost : Key.same k k = false) : m.get? k = none := by
  cases found : m.get? k with
  | none => rfl
  | some v =>
      obtain ⟨key, -, meets⟩ := m.isSome_get?_iff.mp (Option.isSome_iff_exists.mpr ⟨v, found⟩)
      rw [Key.same_self meets] at lost
      cases lost

theorem exists_mem_keys {k : κ} {v : α} (found : m.get? k = some v) :
    ∃ key ∈ m.keys, Key.same key k = true :=
  m.isSome_get?_iff.mp (Option.isSome_iff_exists.mpr ⟨v, found⟩)

/-- After a setting the keys are those before it, and a new key after them. -/
theorem keys_set (k : κ) (v : α) :
    (m.set k v).keys = if (m.get? k).isSome then m.keys else m.keys ++ [k] := rfl

theorem keys_prefix_set (k : κ) (v : α) : m.keys <+: (m.set k v).keys := by
  rw [keys_set]
  split
  · exact List.prefix_refl _
  · exact List.prefix_append _ _

theorem ofList_concat (pairs : List (κ × α)) (k : κ) (v : α) :
    ofList (pairs ++ [(k, v)]) = (ofList pairs).set k v := by
  rw [ofList, List.foldl_append]
  rfl

/-! ## Restrictions -/

theorem get?_filter (p : κ → Bool) (l : κ) :
    (m.filter p).get? l = if (m.keys.filter p).any (Key.same · l) then m.get? l else none :=
  m.table.get?_restrict _ l

/-- A key that stays has what it had. -/
theorem get?_filter_of_mem {p : κ → Bool} {l : κ} (stays : l ∈ m.keys.filter p) :
    (m.filter p).get? l = m.get? l := by
  rw [get?_filter]
  split
  next => rfl
  next apart =>
    refine (m.get?_of_same_self (Bool.eq_false_iff.mpr fun self => apart ?_)).symm
    exact List.any_eq_true.mpr ⟨l, stays, self⟩

theorem filter_congr {p q : κ → Bool} (same : ∀ k ∈ m.keys, p k = q k) :
    m.filter p = m.filter q := by
  unfold filter
  simp only [List.filter_congr same]

theorem filter_filter (p q : κ → Bool) :
    (m.filter p).filter q = m.filter fun k => q k && p k := by
  have keys : (m.filter p).keys.filter q = m.keys.filter fun k => q k && p k :=
    List.filter_filter
  refine OrderedMap.ext keys (congrArg Table.mk ?_)
  rw [keys]
  refine List.filterMap_congr fun k member => ?_
  obtain ⟨old, both⟩ := List.mem_filter.mp member
  have stays : k ∈ m.keys.filter p :=
    List.mem_filter.mpr ⟨old, (Bool.and_eq_true_iff.mp both).2⟩
  exact congrArg (Option.map _) (m.get?_filter_of_mem stays)

/-! ## Lists of entries -/

/-- The value under a key in a list of entries. -/
def find (k : κ) : List (κ × Option α) → Option α
  | [] => none
  | (key, value) :: rest => if Key.same key k then value else find k rest

/-- A list of entries with a key set: in its place if it is there, else last. -/
def put (k : κ) (o : Option α) : List (κ × Option α) → List (κ × Option α)
  | [] => [(k, o)]
  | (key, value) :: rest =>
    if Key.same key k then (key, o) :: rest else (key, value) :: put k o rest

/-- A look-up in a list with one entry for each of some keys. -/
theorem find_map (f : κ → Option α) (congr : ∀ a b, Key.same a b = true → f a = f b) (k : κ)
    (keys : List κ) :
    find k (keys.map fun key => (key, f key)) =
      if keys.any (Key.same · k) then f k else none := by
  induction keys with
  | nil => rfl
  | cons key rest ih =>
      rw [List.map_cons, find, ih, List.any_cons]
      cases here : Key.same key k with
      | false => rfl
      | true => exact congr key k here

/-- A key that is not there is put last. -/
theorem put_of_absent {k : κ} {entries : List (κ × Option α)}
    (absent : ∀ entry ∈ entries, Key.same entry.1 k = false) (o : Option α) :
    put k o entries = entries ++ [(k, o)] := by
  induction entries with
  | nil => rfl
  | cons entry rest ih =>
      obtain ⟨first, others⟩ := List.forall_mem_cons.mp absent
      simp [put, first, ih others]

theorem find_of_absent {k : κ} {entries : List (κ × Option α)}
    (absent : ∀ entry ∈ entries, Key.same entry.1 k = false) : find k entries = none := by
  induction entries with
  | nil => rfl
  | cons entry rest ih =>
      obtain ⟨first, others⟩ := List.forall_mem_cons.mp absent
      simp [find, first, ih others]

/-- A key is the same as none of some keys, or there is a first one that it is the same as. -/
theorem split_keys (k : κ) (entries : List (κ × Option α)) :
    (∀ entry ∈ entries, Key.same entry.1 k = false) ∨ ∃ before key old after,
      entries = before ++ (key, old) :: after ∧ Key.same key k = true ∧
        ∀ entry ∈ before, Key.same entry.1 k = false := by
  induction entries with
  | nil => exact .inl (by simp)
  | cons entry rest ih =>
      obtain ⟨key, value⟩ := entry
      by_cases same : Key.same key k = true
      · exact .inr ⟨[], key, value, rest, rfl, same, by simp⟩
      · have other := Bool.eq_false_iff.mpr same
        rcases ih with absent | ⟨before, key', old, after, rfl, same, earlier⟩
        · exact .inl (List.forall_mem_cons.mpr ⟨other, absent⟩)
        · exact .inr ⟨(key, value) :: before, key', old, after, rfl, same,
            List.forall_mem_cons.mpr ⟨other, earlier⟩⟩

section Split

variable {k key : κ} {old : Option α} {before after : List (κ × Option α)}
  (earlier : ∀ entry ∈ before, Key.same entry.1 k = false) (same : Key.same key k = true)
include earlier same

theorem find_of_split : find k (before ++ (key, old) :: after) = old := by
  induction before with
  | nil => simp [find, same]
  | cons entry rest ih =>
      obtain ⟨first, others⟩ := List.forall_mem_cons.mp earlier
      simp [find, first, ih others]

/-- A key that is there is put in its place. -/
theorem put_of_split (o : Option α) :
    put k o (before ++ (key, old) :: after) = before ++ (key, o) :: after := by
  induction before with
  | nil => simp [put, same]
  | cons entry rest ih =>
      obtain ⟨first, others⟩ := List.forall_mem_cons.mp earlier
      simp [put, first, ih others]

end Split

/-- Setting one of some different keys changes the entry of that key and no other. -/
theorem put_map (f : κ → Option α) (o : Option α) {k : κ} {keys : List κ}
    (distinct : keys.Pairwise fun a b => Key.same a b = false)
    (present : ∃ key ∈ keys, Key.same key k = true) :
    put k o (keys.map fun key => (key, f key)) =
      keys.map fun key => (key, if Key.same k key then o else f key) := by
  induction keys with
  | nil => simp at present
  | cons key rest ih =>
      obtain ⟨apart, others⟩ := List.pairwise_cons.mp distinct
      rw [List.map_cons, List.map_cons, put]
      by_cases here : Key.same key k = true
      · have unchanged (other : κ) (member : other ∈ rest) : ¬Key.same k other = true := by
          rw [← Key.same_congr here, apart other member]
          exact Bool.false_ne_true
        rw [if_pos here, if_pos (Key.symm here)]
        refine congrArg _ (List.map_congr_left fun other member => ?_)
        rw [if_neg (unchanged other member)]
      · have later : ∃ other ∈ rest, Key.same other k = true := by
          obtain ⟨other, member, meets⟩ := present
          rcases List.mem_cons.mp member with rfl | there
          · exact absurd meets here
          · exact ⟨other, there, meets⟩
        rw [if_neg here, if_neg fun meets => here (Key.symm meets), ih others later]

/-- Putting a key changes one place of a list of entries, or adds a place at its end. -/
theorem getElem?_put (k : κ) (o : Option α) (entries : List (κ × Option α)) :
    ∃ (place : Nat) (key : κ),
      ∀ i, (put k o entries)[i]? = if i = place then some (key, o) else entries[i]? := by
  induction entries with
  | nil =>
      refine ⟨0, k, fun i => ?_⟩
      cases i <;> simp [put]
  | cons entry rest ih =>
      obtain ⟨first, value⟩ := entry
      simp only [put]
      split
      · refine ⟨0, first, fun i => ?_⟩
        cases i <;> simp
      · obtain ⟨place, key, places⟩ := ih
        refine ⟨place + 1, key, fun i => ?_⟩
        cases i with
        | zero => simp
        | succ i => simpa using places i

/-! ## Maps and their entries -/

@[simp] theorem entries_empty : (empty : OrderedMap κ α).entries = [] := rfl

theorem map_fst_entries : m.entries.map Prod.fst = m.keys :=
  List.map_map.trans (List.map_id' m.keys)

theorem length_entries : m.entries.length = m.size := List.length_map _

theorem mem_entries {k : κ} {o : Option α} :
    (k, o) ∈ m.entries ↔ k ∈ m.keys ∧ m.get? k = o := by
  simp only [entries, List.mem_map, Prod.mk.injEq]
  constructor
  · rintro ⟨key, member, rfl, found⟩
    exact ⟨member, found⟩
  · rintro ⟨member, found⟩
    exact ⟨k, member, rfl, found⟩

theorem pairwise_entries : m.entries.Pairwise fun e f => Key.same e.1 f.1 = false :=
  List.pairwise_map.mpr m.inStep.distinct

/-- **A look-up is a search of the entries.** -/
theorem get?_eq_find (k : κ) : m.get? k = find k m.entries := by
  rw [entries, find_map m.get? fun _ _ => m.get?_congr]
  split
  next => rfl
  next absent =>
    refine Option.not_isSome_iff_eq_none.mp fun present => absent ?_
    exact List.any_eq_true.mpr (m.isSome_get?_iff.mp present)

/-- An entry that is found is the first one with its key. -/
theorem split_of_get? {k : κ} {v : α} (found : m.get? k = some v) : ∃ before key after,
    m.entries = before ++ (key, some v) :: after ∧ Key.same key k = true ∧
      ∀ entry ∈ before, Key.same entry.1 k = false := by
  rw [get?_eq_find] at found
  rcases split_keys k m.entries with absent | ⟨before, key, old, after, split, same, earlier⟩
  · rw [find_of_absent absent] at found
    cases found
  · rw [split, find_of_split earlier same] at found
    exact ⟨before, key, after, by rw [split, found], same, earlier⟩

/-- **Setting a key is putting it into the entries.** The value of a key that differs from itself is
lost. -/
theorem entries_set (k : κ) (v : α) :
    (m.set k v).entries = put k (if Key.same k k then some v else none) m.entries := by
  simp only [entries, get?_set, keys_set]
  cases present : (m.get? k).isSome with
  | true =>
      obtain ⟨key, member, meets⟩ := m.isSome_get?_iff.mp present
      rw [if_pos rfl, put_map m.get? _ m.inStep.distinct ⟨key, member, meets⟩,
        if_pos (Key.same_self meets)]
  | false =>
      have apart := m.inStep.apart present
      have new : m.get? k = none := Option.not_isSome_iff_eq_none.mp (Bool.eq_false_iff.mp present)
      rw [if_neg Bool.false_ne_true, put_of_absent, List.map_append, List.map_singleton, new]
      · refine congrArg (· ++ [_]) (List.map_congr_left fun key member => ?_)
        rw [if_neg fun meets => Bool.eq_false_iff.mp (apart key member) (Key.symm meets)]
      · intro entry member
        obtain ⟨key, listed, rfl⟩ := List.mem_map.mp member
        exact apart key listed

/-- Setting a key puts the value in one place, if anywhere, and leaves the others. -/
theorem getElem?_set (k : κ) (v : α) :
    ∃ place : Nat, ∀ (i : Nat) (key : κ) (w : α),
      (m.set k v).entries[i]? = some (key, some w) →
      (i = place ∧ w = v) ∨ m.entries[i]? = some (key, some w) := by
  obtain ⟨place, other, places⟩ :=
    getElem?_put k (if Key.same k k then some v else none) m.entries
  refine ⟨place, fun i key w found => ?_⟩
  rw [entries_set, places i] at found
  split at found
  next here =>
    split at found
    next => exact .inl ⟨here, (Option.some.inj (Prod.mk.inj (Option.some.inj found)).2).symm⟩
    next => cases found
  next => exact .inr found

/-- What is found stands under the same key in an entry. -/
theorem exists_mem_entries {k : κ} {v : α} (found : m.get? k = some v) :
    ∃ key, (key, some v) ∈ m.entries ∧ Key.same key k = true := by
  obtain ⟨key, member, meets⟩ := m.exists_mem_keys found
  exact ⟨key, m.mem_entries.mpr ⟨member, (m.get?_congr meets).trans found⟩, meets⟩

theorem mem_values {v : α} : v ∈ m.values ↔ ∃ k, (k, some v) ∈ m.entries := by
  simp only [values, List.mem_filterMap, mem_entries]

/-- Setting a key puts in no value but the given one. -/
theorem mem_set {m : OrderedMap κ α} {k key : κ} {v w : α}
    (member : (key, some w) ∈ (m.set k v).entries) : w = v ∨ (key, some w) ∈ m.entries := by
  obtain ⟨listed, found⟩ := (mem_entries _).mp member
  rw [get?_set] at found
  split at found
  next => exact .inl (Option.some.inj found).symm
  next apart =>
    rw [keys_set] at listed
    split at listed
    next => exact .inr (m.mem_entries.mpr ⟨listed, found⟩)
    next absent =>
      rcases List.mem_append.mp listed with old | last
      · exact .inr (m.mem_entries.mpr ⟨old, found⟩)
      · rw [List.mem_singleton.mp last] at found
        exact absurd (Option.isSome_iff_exists.mpr ⟨w, found⟩) absent

theorem mem_values_set {m : OrderedMap κ α} {k : κ} {v w : α} (member : w ∈ (m.set k v).values) :
    w = v ∨ w ∈ m.values := by
  obtain ⟨key, member⟩ := (mem_values _).mp member
  exact (mem_set member).imp_right fun old => m.mem_values.mpr ⟨key, old⟩

theorem mem_keys_set {m : OrderedMap κ α} {k key : κ} {v : α} (member : key ∈ (m.set k v).keys) :
    key = k ∨ key ∈ m.keys := by
  rw [keys_set] at member
  split at member
  · exact .inr member
  · exact (List.mem_append.mp member).symm.imp_left List.mem_singleton.mp

theorem mem_keys_ofList {pairs : List (κ × α)} {k : κ} (member : k ∈ (ofList pairs).keys) :
    ∃ pair ∈ pairs, pair.1 = k := by
  induction pairs using List.reverseRecOn with
  | nil => cases member
  | append_singleton pairs pair ih =>
      rw [ofList_concat] at member
      rcases mem_keys_set member with rfl | before
      · exact ⟨pair, List.mem_concat_self, rfl⟩
      · obtain ⟨other, there, same⟩ := ih before
        exact ⟨other, List.mem_append_left _ there, same⟩

theorem mem_values_ofList {pairs : List (κ × α)} {v : α} (member : v ∈ (ofList pairs).values) :
    ∃ pair ∈ pairs, pair.2 = v := by
  induction pairs using List.reverseRecOn with
  | nil => cases member
  | append_singleton pairs pair ih =>
      rw [ofList_concat] at member
      rcases mem_values_set member with rfl | before
      · exact ⟨pair, List.mem_concat_self, rfl⟩
      · obtain ⟨other, there, same⟩ := ih before
        exact ⟨other, List.mem_append_left _ there, same⟩

theorem mem_pairs {k : κ} {v : α} : (k, v) ∈ m.pairs ↔ k ∈ m.keys ∧ m.get? k = some v := by
  simp only [pairs, Table.restrict, List.mem_filterMap, Option.map_eq_some_iff, Prod.mk.injEq]
  constructor
  · rintro ⟨key, member, value, found, rfl, rfl⟩
    exact ⟨member, found⟩
  · rintro ⟨member, found⟩
    exact ⟨k, member, v, found, rfl, rfl⟩

/-- A key has a value in a map. -/
instance : Membership (κ × α) (OrderedMap κ α) := ⟨fun m pair => m.get? pair.1 = some pair.2⟩

end OrderedMap

/-! ## Containers -/

namespace Container

open OrderedMap

variable {α : Type} (c : Container α)

theorem entries_set (k : Scalar) (v : α) :
    (c.set k v).entries = put k (if k.isLost then none else some v) c.entries := by
  rw [OrderedMap.entries_set]
  show put k (if Scalar.same k k then _ else _) _ = _
  rw [Scalar.isLost]
  cases Scalar.same k k <;> rfl

/-- A key that cannot be looked up is never found. -/
theorem get?_of_isLost {k : Scalar} (lost : k.isLost = true) : c.get? k = none := by
  rw [Scalar.isLost, Bool.not_eq_true'] at lost
  exact c.get?_of_same_self lost

/-- Every entry has a value, except those whose key cannot be looked up. -/
theorem isLost_of_mem {k : Scalar} (member : (k, none) ∈ c.entries) : k.isLost = true := by
  obtain ⟨listed, absent⟩ := c.mem_entries.mp member
  rw [Scalar.isLost, Bool.not_eq_true']
  refine Bool.eq_false_iff.mpr fun self => ?_
  have present := c.isSome_get?_iff.mpr ⟨k, listed, self⟩
  rw [absent] at present
  cases present

theorem not_isLost_of_mem {k : Scalar} {v : α} (member : (k, some v) ∈ c.entries) :
    k.isLost = false := by
  refine Bool.eq_false_iff.mpr fun lost => ?_
  have absent := c.get?_of_isLost lost
  rw [(c.mem_entries.mp member).2] at absent
  cases absent

/-- Entries as a container has them: no key occurs twice, and those that can be looked up have
values. -/
structure Formed (entries : List (Scalar × Option α)) : Prop where
  distinct : entries.Pairwise fun e f => Scalar.same e.1 f.1 = false
  complete : ∀ entry ∈ entries, entry.2.isSome = !entry.1.isLost

theorem formed_entries : Formed c.entries where
  distinct := c.pairwise_entries
  complete := by
    rintro ⟨k, _ | v⟩ member
    · rw [c.isLost_of_mem member]
      rfl
    · rw [c.not_isLost_of_mem member]
      rfl

/-- What matters are the keys, and which of them have values. -/
theorem Formed.of_keys {β : Type} {entries : List (Scalar × Option α)}
    {others : List (Scalar × Option β)} (formed : Formed entries)
    (same : others.map (fun entry => (entry.1, entry.2.isSome)) =
      entries.map fun entry => (entry.1, entry.2.isSome)) : Formed others where
  distinct := by
    have apart : (entries.map fun entry => (entry.1, entry.2.isSome)).Pairwise
        fun e f => Scalar.same e.1 f.1 = false := List.pairwise_map.mpr formed.distinct
    rw [← same] at apart
    exact List.pairwise_map.mp apart
  complete entry member := by
    have listed : (entry.1, entry.2.isSome) ∈ entries.map fun entry => (entry.1, entry.2.isSome) :=
      same ▸ List.mem_map_of_mem member
    obtain ⟨old, before, agree⟩ := List.mem_map.mp listed
    obtain ⟨key, value⟩ := Prod.mk.inj agree
    rw [← key, ← value]
    exact formed.complete old before

/-- A key that can be looked up is found where it is. -/
theorem get?_of_mem_keys {k : Scalar} (listed : k ∈ c.keys) (findable : k.isLost = false) :
    ∃ v, c.get? k = some v := by
  cases found : c.get? k with
  | none =>
      rw [c.isLost_of_mem (c.mem_entries.mpr ⟨listed, found⟩)] at findable
      cases findable
  | some v => exact ⟨v, rfl⟩

end Container

/-! ## Bindings -/

theorem Key.same_text {s t : Text} : Key.same s t = true ↔ s = t := beq_iff_eq

namespace Bindings

variable (b : Bindings)

theorem find?_isSome_iff (n : Text) : (b.find? n).isSome ↔ n ∈ b.names := by
  rw [OrderedMap.isSome_get?_iff]
  simp only [Key.same_text, exists_eq_right]

theorem mem_names {n : Text} {v : Value} (found : (n, v) ∈ b) : n ∈ b.names :=
  (b.find?_isSome_iff n).mp (Option.isSome_iff_exists.mpr ⟨v, found⟩)

theorem mem_pairs {n : Text} {v : Value} : (n, v) ∈ b.pairs ↔ (n, v) ∈ b := by
  rw [OrderedMap.mem_pairs]
  exact and_iff_right_of_imp fun found => b.mem_names found

theorem map_fst_pairs : b.pairs.map Prod.fst = b.names := by
  show (b.keys.filterMap _).map Prod.fst = b.keys
  rw [List.map_filterMap]
  refine (List.filterMap_congr fun n member => ?_).trans List.filterMap_some
  obtain ⟨v, found⟩ := Option.isSome_iff_exists.mp ((b.find?_isSome_iff n).mpr member)
  have value : b.get? n = some v := found
  show (Option.map _ (b.get? n)).map _ = _
  rw [value]
  rfl

theorem names_nodup : b.names.Nodup :=
  b.inStep.distinct.imp fun {s t} apart same => by
    rw [same, Key.same_text.mpr rfl] at apart
    cases apart

theorem find?_set (n : Text) (v : Value) : (b.set n v).find? n = some v := by
  rw [find?, OrderedMap.get?_set, if_pos (Key.same_text.mpr rfl)]

theorem find?_set_of_ne {n name : Text} (other : name ≠ n) (v : Value) :
    (b.set n v).find? name = b.find? name := by
  rw [find?, OrderedMap.get?_set, if_neg fun same => other (Key.same_text.mp same).symm]

/-- Binding a name puts in no binding but the given one. -/
theorem mem_set {b : Bindings} {n name : Text} {v value : Value}
    (member : (name, value) ∈ b.set n v) : (name = n ∧ value = v) ∨ (name, value) ∈ b := by
  by_cases same : name = n
  · subst same
    exact .inl ⟨rfl, (Option.some.inj ((b.find?_set name v).symm.trans member)).symm⟩
  · exact .inr ((b.find?_set_of_ne same v).symm.trans member)

/-- Bindings that were made one after another are among those that were made. -/
theorem mem_of_mem_ofList {pairs : List (Text × Value)} {n : Text} {v : Value}
    (member : (n, v) ∈ (.ofList pairs : Bindings)) : (n, v) ∈ pairs := by
  induction pairs using List.reverseRecOn with
  | nil => cases member
  | append_singleton pairs pair ih =>
      rw [OrderedMap.ofList_concat] at member
      rcases mem_set member with ⟨rfl, rfl⟩ | before
      · exact List.mem_concat_self
      · exact List.mem_append_left _ (ih before)

theorem names_set (n : Text) (v : Value) :
    (b.set n v).names = if n ∈ b.names then b.names else b.names ++ [n] := by
  rw [names, OrderedMap.keys_set]
  simp only [← b.find?_isSome_iff]

/-- A new name comes after the others. -/
theorem pairs_set_of_not_mem {n : Text} (new : n ∉ b.names) (v : Value) :
    (b.set n v).pairs = b.pairs ++ [(n, v)] := by
  have names : (b.set n v).keys = b.keys ++ [n] := (b.names_set n v).trans (if_neg new)
  have others (name : Text) (member : name ∈ b.keys) : (b.set n v).get? name = b.get? name :=
    b.find?_set_of_ne (by rintro rfl; exact new member) v
  have last : (b.set n v).get? n = some v := b.find?_set n v
  show (b.set n v).keys.filterMap _ = b.keys.filterMap _ ++ _
  rw [names, List.filterMap_append]
  congr 1
  · exact List.filterMap_congr fun name member => congrArg (Option.map _) (others name member)
  · exact List.filterMap_cons_some (congrArg (Option.map _) last)

theorem names_close (outer : List Text) :
    (b.close outer).names =
      b.names.filter fun n => outer.contains n || builtinNames.contains n := rfl

/-- A region keeps the bindings of the names that it started with, and those of the built-in
functions. -/
theorem find?_close (outer : List Text) (n : Text) :
    (b.close outer).find? n = if n ∈ outer ∨ n ∈ builtinNames then b.find? n else none := by
  by_cases bound : n ∈ b.names
  · by_cases stays : n ∈ outer ∨ n ∈ builtinNames
    · rw [if_pos stays]
      refine b.get?_filter_of_mem (List.mem_filter.mpr ⟨bound, ?_⟩)
      simpa using stays
    · rw [if_neg stays]
      refine Option.not_isSome_iff_eq_none.mp fun found => stays ?_
      simpa using (List.mem_filter.mp (((b.close outer).find?_isSome_iff n).mp found)).2
  · have absent : b.find? n = none :=
      Option.not_isSome_iff_eq_none.mp fun found => bound ((b.find?_isSome_iff n).mp found)
    rw [absent, ite_self]
    refine Option.not_isSome_iff_eq_none.mp fun found => bound ?_
    exact (List.mem_filter.mp (((b.close outer).find?_isSome_iff n).mp found)).1

theorem mem_of_mem_close {b : Bindings} {outer : List Text} {entry : Text × Value}
    (member : entry ∈ b.close outer) : entry ∈ b := by
  have found : (b.close outer).find? entry.1 = some entry.2 := member
  rw [find?_close] at found
  split at found
  · exact found
  · cases found

end Bindings

end EplLang
