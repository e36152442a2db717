import EplLang.Proofs.Comparing
import EplLang.Proofs.Entries

/-!
# Containers as ordered maps

A container is made by setting keys one after another. What its list of keys and its table then
hold is told by the settings alone (`Container.Records`): the keys are those of the settings that do
not repeat an earlier key, in order, and under a key is the value of the last setting of an equal
one.

Keys are equal when they are of one kind and have one value (`Scalar.Equals`). This is no equality
in full: `0` and `-0` are different doubles and one key, and a nan is equal to no key, not even to
itself. So a nan never repeats a key and is never found. Everything else follows from what one
setting does to the keys (`keys_set_eq`) and to what is found (`get?_set`).
-/

set_option autoImplicit false

namespace EplLang

/-! ## Equal keys -/

namespace Binary64

/-- Doubles are equal when they stand at one place. -/
theorem beq_iff_place? {x y : Float} :
    (x == y) = true ↔ ∃ a, place? x = some a ∧ place? y = some a := by
  rw [beq_iff_compare]
  constructor
  · intro level
    cases first : place? x with
    | none =>
      rw [Operator.compare_of_isNan (.inl (place?_eq_none_iff.mp first))] at level
      cases level
    | some a =>
      cases second : place? y with
      | none =>
        rw [Operator.compare_of_isNan (.inr (place?_eq_none_iff.mp second))] at level
        cases level
      | some b =>
        rw [compare_places first second, Option.some.injEq, compare_eq_iff_eq] at level
        exact ⟨a, rfl, congrArg some level.symm⟩
  · rintro ⟨a, first, second⟩
    rw [compare_places first second, compare_eq_iff_eq.mpr rfl]

end Binary64

namespace Scalar

/-- Two keys are of one kind and have one value. Numbers have one value when they stand at one
place of the number line, as `0` and `-0` do; a nan stands nowhere. -/
inductive Equals : Scalar → Scalar → Prop where
  | number {x y : Float} {a : WithBot (WithTop ℚ)} :
      Binary64.place? x = some a → Binary64.place? y = some a → Equals (.number x) (.number y)
  | string (t : Text) : Equals (.string t) (.string t)
  | boolean (b : Bool) : Equals (.boolean b) (.boolean b)
  | null : Equals .null .null

theorem same_iff {k l : Scalar} : same k l = true ↔ k.Equals l := by
  constructor
  · intro found
    cases k with
    | number x =>
      cases l with
      | number y =>
        obtain ⟨a, first, second⟩ := Binary64.beq_iff_place?.mp found
        exact .number first second
      | _ => cases found
    | string t =>
      cases l with
      | string u => exact beq_iff_eq.mp found ▸ .string t
      | _ => cases found
    | boolean b =>
      cases l with
      | boolean b' => exact beq_iff_eq.mp found ▸ .boolean b
      | _ => cases found
    | null =>
      cases l with
      | null => exact .null
      | _ => cases found
  · rintro (⟨first, second⟩ | _ | _ | _)
    · exact Binary64.beq_iff_place?.mpr ⟨_, first, second⟩
    · exact beq_self_eq_true _
    · exact beq_self_eq_true _
    · rfl

theorem same_eq_false_iff {k l : Scalar} : same k l = false ↔ ¬k.Equals l := by
  rw [← same_iff, Bool.not_eq_true]

instance (k l : Scalar) : Decidable (k.Equals l) := decidable_of_iff _ same_iff

theorem Equals.symm {k l : Scalar} (equal : k.Equals l) : l.Equals k := by
  cases equal with
  | number first second => exact .number second first
  | string t => exact .string t
  | boolean b => exact .boolean b
  | null => exact .null

theorem Equals.trans {k l j : Scalar} (first : k.Equals l) (second : l.Equals j) : k.Equals j := by
  cases first with
  | number start middle =>
    cases second with
    | number middle' stop => exact .number start (stop.trans (middle'.symm.trans middle))
  | string t => exact second
  | boolean b => exact second
  | null => exact second

theorem equals_self_iff {k : Scalar} : k.Equals k ↔ k.isNan = false := by
  cases k with
  | number x =>
    have nowhere : (number x).isNan = true ↔ Binary64.place? x = none :=
      Binary64.place?_eq_none_iff.symm
    rw [← Bool.not_eq_true, nowhere, ← ne_eq, Option.ne_none_iff_exists']
    constructor
    · rintro ⟨first, _⟩
      exact ⟨_, first⟩
    · rintro ⟨a, place⟩
      exact .number place place
  | string t => exact ⟨fun _ => rfl, fun _ => .string t⟩
  | boolean b => exact ⟨fun _ => by cases b <;> rfl, fun _ => .boolean b⟩
  | null => exact ⟨fun _ => rfl, fun _ => .null⟩

theorem isLost_eq (k : Scalar) : k.isLost = k.isNan := by
  rw [Bool.eq_iff_iff, isLost, Bool.not_eq_true', same_eq_false_iff, equals_self_iff,
    Bool.not_eq_false]

end Scalar

namespace Container

variable {α : Type}

/-! ## One setting -/

/-- After a setting the key has the value, and every other key has what it had. -/
theorem get?_set (c : Container α) (k l : Scalar) (v : α) :
    (c.set k v).get? l = if k.Equals l then some v else c.get? l := by
  rw [OrderedMap.get?_set]
  exact if_congr Scalar.same_iff rfl rfl

/-- A key is found exactly if an equal one is listed. -/
theorem isSome_get?_iff {c : Container α} {k : Scalar} :
    (c.get? k).isSome ↔ ∃ key ∈ c.keys, key.Equals k := by
  rw [OrderedMap.isSome_get?_iff]
  exact exists_congr fun key => and_congr_right fun _ => Scalar.same_iff

/-- After a setting the keys are those before it, and a new key after them. -/
theorem keys_set_eq (c : Container α) (k : Scalar) (v : α) :
    (c.set k v).keys = c.keys ++ if ∃ key ∈ c.keys, key.Equals k then [] else [k] := by
  rw [OrderedMap.keys_set]
  simp only [isSome_get?_iff]
  split
  · exact (List.append_nil _).symm
  · rfl

/-! ## Settings from the first to the last -/

/-- The keys of some settings without those that repeat an earlier one. A nan repeats none. -/
def openings (keys : List Scalar) : List Scalar :=
  (keys.zipIdx.filter fun entry =>
    entry.1.isNan ∨ ∀ earlier ∈ keys.take entry.2, ¬earlier.Equals entry.1).map Prod.fst

theorem openings_concat (keys : List Scalar) (k : Scalar) :
    openings (keys ++ [k]) =
      openings keys ++ if ∃ earlier ∈ keys, earlier.Equals k then [] else [k] := by
  have last : (k.isNan = true ∨ ∀ earlier ∈ keys, ¬earlier.Equals k) ↔
      ¬∃ earlier ∈ keys, earlier.Equals k := by
    constructor
    · rintro (nan | apart) ⟨earlier, member, equal⟩
      · rw [Scalar.equals_self_iff.mp (equal.symm.trans equal)] at nan
        cases nan
      · exact apart earlier member equal
    · exact fun none => .inr fun earlier member equal => none ⟨earlier, member, equal⟩
  unfold openings
  rw [List.zipIdx_append, List.filter_append, List.map_append]
  congr 1
  · refine congrArg _ (List.filter_congr fun entry member => ?_)
    have short : entry.2 ≤ keys.length := by
      have := List.snd_lt_of_mem_zipIdx member
      omega
    rw [List.take_append_of_le_length short]
  · rw [Nat.zero_add, List.zipIdx_singleton]
    have whole : (keys ++ [k]).take keys.length = keys := List.take_left
    simp only [List.filter_singleton, whole, last]
    split <;> simp_all

/-- Every key that was set is listed, or one that is equal to it. -/
theorem exists_opening {keys : List Scalar} {k : Scalar} :
    (∃ key ∈ openings keys, key.Equals k) ↔ ∃ key ∈ keys, key.Equals k := by
  induction keys using List.reverseRecOn with
  | nil => rfl
  | append_singleton keys last ih =>
    rw [openings_concat]
    simp only [List.mem_append, or_and_right, exists_or, ih]
    by_cases repeated : ∃ earlier ∈ keys, earlier.Equals last
    · obtain ⟨earlier, member, equal⟩ := repeated
      rw [if_pos ⟨earlier, member, equal⟩]
      constructor
      · rintro (before | ⟨key, none, -⟩)
        · exact .inl before
        · cases none
      · rintro (before | ⟨key, here, meets⟩)
        · exact .inl before
        · rw [List.mem_singleton.mp here] at meets
          exact .inl ⟨earlier, member, equal.trans meets⟩
    · rw [if_neg repeated]

/-- The last setting of a key equal to `k` is one to the value `v`. -/
def LastSets (sets : List (Scalar × α)) (k : Scalar) (v : α) : Prop :=
  ∃ before key after, sets = before ++ (key, v) :: after ∧ key.Equals k ∧
    ∀ later ∈ after, ¬later.1.Equals k

section Concat

variable {sets : List (Scalar × α)} {k l : Scalar} {v w : α}

theorem lastSets_concat_of_equals (equal : k.Equals l) :
    LastSets (sets ++ [(k, v)]) l w ↔ v = w := by
  constructor
  · rintro ⟨before, key, after, split, -, last⟩
    -- an equal key comes at the end, so nothing comes after the setting that was found
    rcases List.eq_nil_or_concat' after with rfl | ⟨between, final, rfl⟩
    · cases (List.append_inj' split rfl).2
      rfl
    · rw [← List.cons_append, ← List.append_assoc] at split
      cases (List.append_inj' split rfl).2
      exact absurd equal (last (k, v) List.mem_concat_self)
  · rintro rfl
    exact ⟨sets, k, [], rfl, equal, nofun⟩

theorem lastSets_concat_of_not_equals (apart : ¬k.Equals l) :
    LastSets (sets ++ [(k, v)]) l w ↔ LastSets sets l w := by
  constructor
  · rintro ⟨before, key, after, split, equal, last⟩
    rcases List.eq_nil_or_concat' after with rfl | ⟨between, final, rfl⟩
    · cases (List.append_inj' split rfl).2
      exact absurd equal apart
    · rw [← List.cons_append, ← List.append_assoc] at split
      exact ⟨before, key, between, (List.append_inj' split rfl).1, equal,
        fun later member => last later (List.mem_append_left _ member)⟩
  · rintro ⟨before, key, after, rfl, equal, last⟩
    refine ⟨before, key, after ++ [(k, v)], by simp, equal, ?_⟩
    exact List.forall_mem_append.mpr ⟨last, List.forall_mem_singleton.mpr apart⟩

end Concat

/-- A container records some settings. Its keys are those of the settings that open one, in their
order, and its table is in step with them; a key is found exactly if it was set, and what is found
is the value of the last setting of an equal key. -/
structure Records (sets : List (Scalar × α)) (c : Container α) : Prop where
  inStep (k : Scalar) : (c.table.get? k).isSome ↔ ∃ key ∈ c.keys, key.Equals k
  keys : c.keys = openings (sets.map Prod.fst)
  distinct : c.keys.Pairwise fun k l => ¬k.Equals l
  size : c.size = (openings (sets.map Prod.fst)).length
  found (k : Scalar) : (c.get? k).isSome ↔ k.isNan = false ∧ ∃ entry ∈ sets, entry.1.Equals k
  latest (k : Scalar) (v : α) : c.get? k = some v ↔ LastSets sets k v

theorem records_empty : Records [] (.empty : Container α) where
  inStep k := isSome_get?_iff
  keys := rfl
  distinct := .nil
  size := rfl
  found k := by simp
  latest k v := by simp [LastSets]

/-- One more setting is recorded. -/
theorem Records.set {sets : List (Scalar × α)} {c : Container α} (records : Records sets c)
    (k : Scalar) (v : α) : Records (sets ++ [(k, v)]) (c.set k v) := by
  have keys : (c.set k v).keys = openings ((sets ++ [(k, v)]).map Prod.fst) := by
    rw [List.map_append, List.map_singleton, openings_concat, keys_set_eq, records.keys]
    simp only [exists_opening]
  refine ⟨fun _ => isSome_get?_iff, keys, ?_, ?_, fun l => ?_, fun l w => ?_⟩
  · rw [keys_set_eq]
    split
    next => exact (List.append_nil c.keys).symm ▸ records.distinct
    next absent =>
      refine List.pairwise_append.mpr ⟨records.distinct, List.pairwise_singleton _ _, ?_⟩
      intro key member l last equal
      exact absent ⟨key, member, List.mem_singleton.mp last ▸ equal⟩
  · rw [← keys]
    rfl
  · rw [get?_set]
    by_cases equal : k.Equals l
    · have number : l.isNan = false := Scalar.equals_self_iff.mp (equal.symm.trans equal)
      rw [if_pos equal]
      exact iff_of_true rfl ⟨number, (k, v), List.mem_concat_self, equal⟩
    · rw [if_neg equal, records.found]
      simp [or_and_right, exists_or, equal]
  · rw [get?_set]
    by_cases equal : k.Equals l
    · rw [if_pos equal, lastSets_concat_of_equals equal, Option.some.injEq]
    · rw [if_neg equal, lastSets_concat_of_not_equals equal, records.latest]

theorem records_ofList (sets : List (Scalar × α)) : Records sets (.ofList sets) := by
  induction sets using List.reverseRecOn with
  | nil => exact records_empty
  | append_singleton sets entry ih =>
    rw [OrderedMap.ofList_concat]
    exact ih.set entry.1 entry.2

/-- Containers are maps in the order of insertion. Settings from the empty container on are
recorded, and one more setting changes neither what is found under another key nor the order of the
keys that are there. -/
theorem insertion_ordered (sets : List (Scalar × α)) :
    Records sets (.ofList sets) ∧ ∀ (c : Container α) (k : Scalar) (v : α),
      (∀ l, ¬k.Equals l → (c.set k v).get? l = c.get? l) ∧ c.keys <+: (c.set k v).keys := by
  refine ⟨records_ofList sets, fun c k v => ⟨fun l apart => ?_, c.keys_prefix_set k v⟩⟩
  rw [get?_set, if_neg apart]

example : (OrderedMap.ofList [(.number 0, 1), (.string "0", 2), (.number Binary64.nan, 3),
    (.number (-0), 4), (.number Binary64.nan, 5)] : Container Nat).entries =
      [(.number 0, some 4), (.string "0", some 2), (.number Binary64.nan, none),
        (.number Binary64.nan, none)] := by decide +kernel

end Container

end EplLang
