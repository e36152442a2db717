import EplLang.Export
import EplLang.Proofs.ReadBack
import EplLang.Proofs.Store

/-!
# What an export keeps

The keys of an object have kinds, the names of an exported record are plain texts. Two keys that
are no strings have different texts unless they are one key, since the text of a number is read
back as the number (`Scalar.same_of_bare`); but a string may be the text of any other key. In a
record the later of two fields with one name replaces the earlier one (`Json.ofFields_eq`).

So an exported array has one item for each entry, in order, and an exported record has one field
for each entry of the object, under the text of its key, except for those that a later entry
overtakes: one with the same text, where just one of the two keys is a string. This holds at every
depth, and the export has all entries exactly if none is overtaken (`exported_entries`).
-/

set_option autoImplicit false

namespace EplLang

/-! ## The order of texts -/

namespace Text

theorem eq_of_order {s t : Text} (level : order s t = .eq) : s = t := by
  fun_induction order s t with
  | case1 => rfl
  | case2 => cases level
  | case3 => cases level
  | case4 => cases level
  | case5 => cases level
  | case6 a s b t above below ih =>
    rw [ih level, UInt8.le_antisymm (UInt8.not_lt.mp below) (UInt8.not_lt.mp above)]

theorem order_swap {s t : Text} (above : order s t = .gt) : order t s = .lt := by
  fun_induction order s t with
  | case1 => cases above
  | case2 => cases above
  | case3 => rfl
  | case4 => cases above
  | case5 a s b t _ less => rw [order, if_pos less]
  | case6 a s b t noLess noMore ih => rw [order, if_neg noMore, if_neg noLess, ih above]

theorem order_self (t : Text) : order t t = .eq := by
  induction t with
  | nil => rfl
  | cons b t ih => rw [order, if_neg (UInt8.lt_irrefl b), if_neg (UInt8.lt_irrefl b), ih]

theorem ne_of_order {s t : Text} (less : order s t = .lt) : t ≠ s := by
  rintro rfl
  rw [order_self] at less
  cases less

/-- The order goes on: where the first bytes differ they decide, else the rests do. -/
theorem order_trans {s t u : Text} (first : order s t = .lt) (second : order t u = .lt) :
    order s u = .lt := by
  fun_induction order s t generalizing u with
  | case1 => cases first
  | case2 b t =>
    cases u with
    | nil => cases second
    | cons => rfl
  | case3 => cases first
  | case4 a s b t less =>
    cases u with
    | nil => cases second
    | cons c u =>
      rw [order] at second ⊢
      split at second
      next more => rw [if_pos (UInt8.lt_trans less more)]
      next noMore =>
        split at second
        next => cases second
        next noLess =>
          rw [← UInt8.le_antisymm (UInt8.not_lt.mp noLess) (UInt8.not_lt.mp noMore), if_pos less]
  | case5 => cases first
  | case6 a s b t noLess noMore ih =>
    cases u with
    | nil => cases second
    | cons c u =>
      obtain rfl : a = b := UInt8.le_antisymm (UInt8.not_lt.mp noMore) (UInt8.not_lt.mp noLess)
      rw [order] at second ⊢
      split
      next => rfl
      next noMore' =>
        rw [if_neg noMore'] at second
        split
        next less =>
          rw [if_pos less] at second
          cases second
        next noLess' =>
          rw [if_neg noLess'] at second
          exact ih first second

end Text

/-! ## Fields of a record -/

namespace Json

variable {α : Type}

/-- Fields in the order of their names, each name once. -/
def Ascending (fields : List (Text × α)) : Prop :=
  fields.Pairwise fun f g => Text.order f.1 g.1 = .lt

theorem Ascending.nodup {fields : List (Text × α)} (ascending : Ascending fields) :
    (fields.map Prod.fst).Nodup := by
  refine List.pairwise_map.mpr (ascending.imp fun less => (Text.ne_of_order less).symm)

/-- A field that is set replaces those with its name. -/
theorem insert_perm {fields : List (Text × α)} (ascending : Ascending fields) (name : Text)
    (value : α) :
    (insert name value fields).Perm ((name, value) :: fields.filter (·.1 ≠ name)) := by
  induction fields with
  | nil => exact .refl _
  | cons field rest ih =>
    obtain ⟨other, old⟩ := field
    obtain ⟨first, others⟩ := List.pairwise_cons.mp ascending
    rw [insert]
    cases ordered : Text.order name other with
    | lt =>
      have apart : ∀ f ∈ (other, old) :: rest, Text.order name f.1 = .lt := by
        intro f member
        rcases List.mem_cons.mp member with rfl | after
        · exact ordered
        · exact Text.order_trans ordered (first f after)
      rw [List.filter_eq_self.mpr fun f member =>
        decide_eq_true (Text.ne_of_order (apart f member))]
    | eq =>
      obtain rfl := Text.eq_of_order ordered
      rw [List.filter_cons_of_neg (by simp), List.filter_eq_self.mpr fun f member =>
        decide_eq_true (Text.ne_of_order (first f member))]
    | gt =>
      have apart : name ≠ other := Text.ne_of_order (Text.order_swap ordered)
      rw [List.filter_cons_of_pos (by simpa using apart.symm)]
      exact ((ih others).cons _).trans (.swap ..)

theorem ascending_insert {fields : List (Text × α)} (ascending : Ascending fields) (name : Text)
    (value : α) : Ascending (insert name value fields) := by
  induction fields with
  | nil => exact List.pairwise_singleton _ _
  | cons field rest ih =>
    obtain ⟨other, old⟩ := field
    obtain ⟨first, others⟩ := List.pairwise_cons.mp ascending
    rw [insert]
    cases ordered : Text.order name other with
    | lt =>
      refine List.pairwise_cons.mpr ⟨?_, ascending⟩
      intro f member
      rcases List.mem_cons.mp member with rfl | after
      · exact ordered
      · exact Text.order_trans ordered (first f after)
    | eq =>
      rw [Text.eq_of_order ordered]
      exact List.pairwise_cons.mpr ⟨first, others⟩
    | gt =>
      refine List.pairwise_cons.mpr ⟨?_, ih others⟩
      intro f member
      rcases List.mem_cons.mp ((insert_perm others name value).mem_iff.mp member) with rfl | kept
      · exact Text.order_swap ordered
      · exact first f (List.mem_of_mem_filter kept)

/-- The fields that no later one with the same name replaces. -/
def latest : List (Text × α) → List (Text × α)
  | [] => []
  | f :: rest => if f.1 ∈ rest.map Prod.fst then latest rest else f :: latest rest

/-- Setting fields one after another keeps the latest field of each name. -/
theorem foldl_insert (fields : List (Text × α)) {all : List (Text × α)}
    (ascending : Ascending all) :
    Ascending (fields.foldl (fun all f => insert f.1 f.2 all) all) ∧
    (fields.foldl (fun all f => insert f.1 f.2 all) all).Perm
      (all.filter (·.1 ∉ fields.map Prod.fst) ++ latest fields) := by
  induction fields generalizing all with
  | nil =>
    simp [latest]
    exact ascending
  | cons f rest ih =>
    obtain ⟨ordered, kept⟩ := ih (ascending_insert ascending f.1 f.2)
    refine ⟨ordered, kept.trans ?_⟩
    have set := (insert_perm ascending f.1 f.2).filter (·.1 ∉ rest.map Prod.fst)
    have old : (all.filter (·.1 ≠ f.1)).filter (·.1 ∉ rest.map Prod.fst) =
        all.filter (·.1 ∉ (f :: rest).map Prod.fst) := by
      rw [List.filter_filter]
      congr 1
      funext g
      rw [Bool.eq_iff_iff, Bool.and_eq_true, decide_eq_true_eq, decide_eq_true_eq,
        decide_eq_true_eq, List.map_cons, List.mem_cons, not_or]
      exact and_comm
    rw [latest]
    split
    next again =>
      rw [List.filter_cons_of_neg (by simpa using again), old] at set
      exact set.append_right _
    next last =>
      rw [List.filter_cons_of_pos (by simpa using last), old] at set
      exact (set.append_right _).trans List.perm_middle.symm

theorem ofFields_eq (fields : List (Text × Json)) :
    ∃ sorted, ofFields fields = .object sorted ∧ Ascending sorted ∧
      sorted.Perm (latest fields) := by
  obtain ⟨ordered, kept⟩ := foldl_insert fields List.Pairwise.nil
  exact ⟨_, rfl, ordered, kept⟩

end Json

/-! ## Texts of keys -/

theorem Binary64.decode_ne_nan {x : Float} (number : (x == x) = true) : decode x ≠ .nan := by
  rw [beq_iff_compare] at number
  rw [decode_eq]
  cases unpacked : x.toModel.unpack with
  | notANumber =>
    rw [unpacked] at number
    cases number
  | _ => simp [ofUnpacked]

namespace Scalar

/-- The number of a key that is a number. -/
def number? : Scalar → Option Float
  | .number x => some x
  | _ => none

/-- The text of a key that is no string is read as the key, if it is a number, and else not at
all. -/
theorem readNumber?_bare {k : Scalar} (found : k.isLost = false) (sort : k.form ≠ .string) :
    readNumber? k.bare = k.number? := by
  cases k with
  | number x =>
    have self : (x == x) = true := by simpa [isLost, same] using found
    exact readNumber?_number .language (Binary64.decode_ne_nan self)
  | string t => exact absurd rfl sort
  | boolean b => cases b <;> rfl
  | null => rfl

/-- Keys with the same text, both of them strings or none, are the same key. -/
theorem same_of_bare {k l : Scalar} (found : k.isLost = false) (found' : l.isLost = false)
    (text : k.bare = l.bare) (sort : k.form = .string ↔ l.form = .string) : same k l = true := by
  by_cases string : k.form = .string
  · cases k with
    | string t =>
      cases l with
      | string u => exact beq_iff_eq.mpr text
      | _ => cases sort.mp string
    | _ => cases string
  · have read : k.number? = l.number? := by
      rw [← readNumber?_bare found string, text, readNumber?_bare found' (mt sort.mpr string)]
    cases k with
    | number x =>
      cases l with
      | number y =>
        cases read
        simpa [isLost] using found
      | _ => cases read
    | string t => exact absurd rfl string
    | boolean b =>
      cases l with
      | number y => cases read
      | string t => exact absurd (sort.mpr rfl) string
      | boolean b' => cases b <;> cases b' <;> first | rfl | exact absurd text (by decide)
      | null => cases b <;> exact absurd text (by decide)
    | null =>
      cases l with
      | number y => cases read
      | string t => exact absurd (sort.mpr rfl) string
      | boolean b => cases b <;> exact absurd text (by decide)
      | null => rfl

end Scalar

/-! ## Exported entries -/

/-- A key has the text of another one, and just one of the two is a string. -/
def Scalar.Overtakes (later k : Scalar) : Prop :=
  later.bare = k.bare ∧ (later.form = .string ↔ k.form ≠ .string)

instance (later k : Scalar) : Decidable (later.Overtakes k) := inferInstanceAs (Decidable (_ ∧ _))

namespace Data

/-- An entry is overtaken by a later one. -/
def Overtaken (k : Scalar) (later : List (Scalar × Option Data)) : Prop :=
  ∃ entry ∈ later, entry.1.Overtakes k

/-- Data in whose objects no entry is overtaken. -/
inductive Apart : Data → Prop where
  | scalar (x : Scalar) : Apart (.scalar x)
  | function (site : Nat) (params : List Text) (body : Block) : Apart (.function site params body)
  | array {entries : List (Scalar × Option Data)} :
      (∀ k d, (k, some d) ∈ entries → Apart d) → Apart (.container .array ⟨entries⟩)
  | object {entries : List (Scalar × Option Data)} :
      entries.Pairwise (fun e f => ¬f.1.Overtakes e.1) →
      (∀ k d, (k, some d) ∈ entries → Apart d) → Apart (.container .object ⟨entries⟩)

section Exports

-- The entries that may be missing, given the later ones.
variable (missing : Scalar → List (Scalar × Option Data) → Prop)

mutual

/-- An exported form of data. An array has one item for each entry, in order; an object has one
field for each entry that is not missing, under the text of its key. -/
inductive Exports : Data → Json → Prop where
  | number (x : Float) : Exports (.scalar (.number x)) (jsonNumber x)
  | string (t : Text) : Exports (.scalar (.string t)) (.string t)
  | boolean (b : Bool) : Exports (.scalar (.boolean b)) (.boolean b)
  | null : Exports (.scalar .null) .null
  | function (site : Nat) (params : List Text) (body : Block) :
      Exports (.function site params body) (.string functionText)
  | array {entries : List (Scalar × Option Data)} {items : List Json} :
      ExportsItems entries items → Exports (.container .array ⟨entries⟩) (.array items)
  | object {entries : List (Scalar × Option Data)} {named fields : List (Text × Json)} :
      ExportsFields entries named → fields.Perm named → Json.Ascending fields →
      Exports (.container .object ⟨entries⟩) (.object fields)

/-- One item for each entry. -/
inductive ExportsItems : List (Scalar × Option Data) → List Json → Prop where
  | nil : ExportsItems [] []
  | cons {k : Scalar} {d : Data} {j : Json} {later : List (Scalar × Option Data)}
      {items : List Json} :
      Exports d j → ExportsItems later items → ExportsItems ((k, some d) :: later) (j :: items)

/-- One field for each entry that is not missing. -/
inductive ExportsFields : List (Scalar × Option Data) → List (Text × Json) → Prop where
  | nil : ExportsFields [] []
  | kept {k : Scalar} {d : Data} {j : Json} {later : List (Scalar × Option Data)}
      {named : List (Text × Json)} : ¬missing k later → Exports d j → ExportsFields later named →
      ExportsFields ((k, some d) :: later) ((k.bare, j) :: named)
  | missed {k : Scalar} {d : Data} {later : List (Scalar × Option Data)}
      {named : List (Text × Json)} : missing k later → ExportsFields later named →
      ExportsFields ((k, some d) :: later) named

end

end Exports

/-- An export in which no entry is missing. -/
abbrev ExportsAll : Data → Json → Prop := Exports fun _ _ => False

mutual

/-- Keyed data is exported with all entries but the overtaken ones. -/
theorem exports_of_keyed : ∀ {d : Data}, d.Keyed → ∃ j, d.json? = some j ∧ Exports Overtaken d j
  | .scalar (.number x), _ => ⟨_, by rw [json?], .number x⟩
  | .scalar (.string t), _ => ⟨_, by rw [json?], .string t⟩
  | .scalar (.boolean b), _ => ⟨_, by rw [json?], .boolean b⟩
  | .scalar .null, _ => ⟨_, by rw [json?], .null⟩
  | .function site params body, _ => ⟨_, by rw [json?], .function site params body⟩
  | .container .array ⟨entries⟩, .container keys found parts => by
      obtain ⟨fields, some, -, items, -⟩ := exports_of_entries entries keys found parts
      refine ⟨.array (fields.map Prod.snd), ?_, .array items⟩
      rw [json?, some]
      rfl
  | .container .object ⟨entries⟩, .container keys found parts => by
      obtain ⟨fields, some, -, -, named⟩ := exports_of_entries entries keys found parts
      obtain ⟨sorted, object, ascending, kept⟩ := Json.ofFields_eq fields
      refine ⟨.object sorted, ?_, .object named kept ascending⟩
      rw [json?, some, Option.map_some, object]

theorem exports_of_entries : ∀ (entries : List (Scalar × Option Data)),
    entries.Pairwise (fun e f => Scalar.same e.1 f.1 = false) →
    (∀ entry ∈ entries, entry.1.isLost = false ∧ entry.2.isSome) →
    (∀ k d, (k, some d) ∈ entries → Keyed d) →
    ∃ fields, jsonFields? entries = some fields ∧
      fields.map Prod.fst = entries.map (·.1.bare) ∧
      ExportsItems Overtaken entries (fields.map Prod.snd) ∧
      ExportsFields Overtaken entries (Json.latest fields)
  | [], _, _, _ => ⟨[], by rw [jsonFields?], rfl, .nil, .nil⟩
  | (k, none) :: rest, _, found, _ => nomatch (found (k, none) List.mem_cons_self).2
  | (k, some d) :: rest, keys, found, parts => by
      obtain ⟨first, others⟩ := List.pairwise_cons.mp keys
      obtain ⟨⟨here, -⟩, later⟩ := List.forall_mem_cons.mp found
      obtain ⟨j, value, exports⟩ := exports_of_keyed (parts k d List.mem_cons_self)
      obtain ⟨fields, some, names, items, named⟩ := exports_of_entries rest others later
        fun k d member => parts k d (List.mem_cons_of_mem _ member)
      have overtaken : k.bare ∈ fields.map Prod.fst ↔ Overtaken k rest := by
        rw [names, List.mem_map]
        constructor
        · rintro ⟨entry, member, text⟩
          refine ⟨entry, member, text, ?_⟩
          -- two keys of one sort with one text would be the same key
          by_contra sort
          have alike : k.form = .string ↔ entry.1.form = .string := by tauto
          have same := Scalar.same_of_bare here (later entry member).1 text.symm alike
          rw [first entry member] at same
          cases same
        · rintro ⟨entry, member, text, -⟩
          exact ⟨entry, member, text⟩
      refine ⟨(k.bare, j) :: fields, ?_, ?_, .cons exports items, ?_⟩
      · rw [jsonFields?, value, some]
        rfl
      · rw [List.map_cons, List.map_cons, names]
      · rw [Json.latest]
        split
        next again => exact .missed (overtaken.mp again) named
        next last => exact .kept (mt overtaken.mpr last) exports named

end

/-! ## Exports in which no entry is missing -/

/-- The fields of an object whose entries are all there have the texts of its keys as names. -/
theorem ExportsFields.names : ∀ {entries : List (Scalar × Option Data)}
    {named : List (Text × Json)}, ExportsFields (fun _ _ => False) entries named →
    named.map Prod.fst = entries.map (·.1.bare)
  | _, _, .nil => rfl
  | _, _, .kept _ _ later => congrArg _ later.names

mutual

/-- A record has each name once, so an object whose entries are all there has no two keys with one
text. -/
theorem Exports.apart : ∀ {d : Data} {j : Json}, ExportsAll d j → d.Apart
  | _, _, .number _ | _, _, .string _ | _, _, .boolean _ | _, _, .null => .scalar _
  | _, _, .function site params body => .function site params body
  | _, _, .array items => .array items.apart
  | _, _, .object named kept ascending => by
      have names := (kept.map Prod.fst).nodup_iff.mp ascending.nodup
      rw [named.names] at names
      have differ := List.pairwise_map.mp names
      exact .object (differ.imp fun apart overtakes => apart overtakes.1.symm) named.apart

theorem ExportsItems.apart : ∀ {entries : List (Scalar × Option Data)} {items : List Json},
    ExportsItems (fun _ _ => False) entries items → ∀ k d, (k, some d) ∈ entries → d.Apart
  | _, _, .nil, _, _, member => nomatch member
  | _, _, .cons here later, k, d, member => by
      rcases List.mem_cons.mp member with first | after
      · cases first
        exact here.apart
      · exact later.apart k d after

theorem ExportsFields.apart : ∀ {entries : List (Scalar × Option Data)}
    {named : List (Text × Json)}, ExportsFields (fun _ _ => False) entries named →
    ∀ k d, (k, some d) ∈ entries → d.Apart
  | _, _, .nil, _, _, member => nomatch member
  | _, _, .kept _ here later, k, d, member => by
      rcases List.mem_cons.mp member with first | after
      · cases first
        exact here.apart
      · exact later.apart k d after

end

mutual

/-- Where no entry is overtaken none is missing. -/
theorem Exports.all : ∀ {d : Data} {j : Json}, Exports Overtaken d j → d.Apart → ExportsAll d j
  | _, _, .number x, _ => .number x
  | _, _, .string t, _ => .string t
  | _, _, .boolean b, _ => .boolean b
  | _, _, .null, _ => .null
  | _, _, .function site params body, _ => .function site params body
  | _, _, .array items, .array parts => .array (items.all parts)
  | _, _, .object named kept ascending, .object apart parts =>
      .object (named.all apart parts) kept ascending

theorem ExportsItems.all : ∀ {entries : List (Scalar × Option Data)} {items : List Json},
    ExportsItems Overtaken entries items → (∀ k d, (k, some d) ∈ entries → d.Apart) →
    ExportsItems (fun _ _ => False) entries items
  | _, _, .nil, _ => .nil
  | _, _, .cons here later, parts =>
      .cons (here.all (parts _ _ List.mem_cons_self))
        (later.all fun k d member => parts k d (List.mem_cons_of_mem _ member))

theorem ExportsFields.all : ∀ {entries : List (Scalar × Option Data)}
    {named : List (Text × Json)}, ExportsFields Overtaken entries named →
    entries.Pairwise (fun e f => ¬f.1.Overtakes e.1) →
    (∀ k d, (k, some d) ∈ entries → d.Apart) →
    ExportsFields (fun _ _ => False) entries named
  | _, _, .nil, _, _ => .nil
  | _, _, .kept _ here later, apart, parts =>
      .kept not_false (here.all (parts _ _ List.mem_cons_self))
        (later.all (List.pairwise_cons.mp apart).2
          fun k d member => parts k d (List.mem_cons_of_mem _ member))
  | _, _, .missed overtaken _, apart, _ => by
      obtain ⟨entry, member, overtakes⟩ := overtaken
      exact absurd overtakes ((List.pairwise_cons.mp apart).1 entry member)

end

end Data

/-! ## Containers that are built -/

namespace Data

/-- The entries of a container whose keys can be looked up. -/
theorem keyed_items {shape : Shape} {c : Container Data} (found : ∀ k ∈ c.keys, k.isLost = false)
    (parts : ∀ d ∈ c.values, d.Keyed) : Keyed (.container shape c.items) := by
  refine .container c.pairwise_entries ?_ fun k d member => parts d (c.mem_values.mpr ⟨k, member⟩)
  rintro ⟨k, value⟩ member
  have findable := found k (c.mem_entries.mp member).1
  refine ⟨findable, ?_⟩
  rw [c.formed_entries.complete _ member, findable]
  rfl

/-- The containers that setting keys builds are keyed, if the keys can be looked up. -/
theorem keyed_ofList (shape : Shape) {pairs : List (Scalar × Data)}
    (found : ∀ pair ∈ pairs, pair.1.isLost = false ∧ pair.2.Keyed) :
    Keyed (.container shape (Container.items (.ofList pairs))) := by
  refine keyed_items (fun k member => ?_) fun d member => ?_
  · obtain ⟨pair, there, rfl⟩ := OrderedMap.mem_keys_ofList member
    exact (found pair there).1
  · obtain ⟨pair, there, rfl⟩ := OrderedMap.mem_values_ofList member
    exact (found pair there).2

/-- Data whose keys can be looked up has an exported form. Every array in it has one item for each
entry, in order, and every object one field for each entry that no later entry overtakes, which
carries the exported form of the entry. No entry is missing exactly if none is overtaken. -/
theorem exported_entries {d : Data} (keyed : d.Keyed) :
    ∃ j, d.json? = some j ∧ Exports Overtaken d j ∧ (ExportsAll d j ↔ d.Apart) := by
  obtain ⟨j, value, exports⟩ := exports_of_keyed keyed
  exact ⟨j, value, exports, Exports.apart, exports.all⟩

/-- Keys of all four kinds, two of them with arrays: nothing is missing. -/
theorem exported_entries_nested :
    let inner : Data := .container .array ⟨[(.number (Binary64.ofInt 0), some (.scalar .null))]⟩
    let d : Data := .container .object ⟨[
      (.number (Binary64.ofInt 1), some (.scalar (.string "one"))), (.boolean true, some inner),
      (.string "a", some (.scalar (.boolean false))), (.null, some inner)]⟩
    ∃ j, d.json? = some j ∧ ExportsAll d j := by
  intro inner d
  have item {P : Data → Prop} (scalar : ∀ x, P (.scalar x)) (k : Scalar) (part : Data)
      (member : (k, some part) ∈ [(.number (Binary64.ofInt 0), some (.scalar .null))]) :
      P part := by
    cases List.mem_singleton.mp member
    exact scalar _
  have parts {P : Data → Prop} (scalar : ∀ x, P (.scalar x)) (inside : P inner) (k : Scalar)
      (part : Data) (member : (k, some part) ∈ [
        (.number (Binary64.ofInt 1), some (.scalar (.string "one"))), (.boolean true, some inner),
        (.string "a", some (.scalar (.boolean false))), (.null, some inner)]) : P part := by
    simp only [List.mem_cons, Prod.mk.injEq, Option.some.injEq, List.not_mem_nil,
      or_false] at member
    rcases member with ⟨-, rfl⟩ | ⟨-, rfl⟩ | ⟨-, rfl⟩ | ⟨-, rfl⟩
    · exact scalar _
    · exact inside
    · exact scalar _
    · exact inside
  have keyed : d.Keyed := .container (by decide +kernel) (by decide +kernel)
    (parts .scalar (.container (by decide +kernel) (by decide +kernel) (item .scalar)))
  have apart : d.Apart := .object (by decide +kernel) (parts .scalar (.array (item .scalar)))
  obtain ⟨j, value, -, all⟩ := exported_entries keyed
  exact ⟨j, value, all.mpr apart⟩

/-- The number `1` and the string `"1"` are two keys with one text. -/
theorem exported_entries_one_text :
    let d : Data := .container .object (Container.items (.ofList [
      (.number (Binary64.ofInt 1), .scalar (.string "n")), (.string "1", .scalar (.string "s"))]))
    d.Keyed ∧ d.json? = some (.object [("1", .string "s")]) ∧
      ¬ExportsAll d (.object [("1", .string "s")]) := by
  refine ⟨keyed_ofList _ ?_, by rfl, ?_⟩
  · intro pair member
    simp only [List.mem_cons, List.not_mem_nil, or_false] at member
    rcases member with rfl | rfl
    · exact ⟨Scalar.isLost_ofInt 1, .scalar _⟩
    · exact ⟨Scalar.isLost_string _, .scalar _⟩
  · intro all
    cases all with
    | object named kept ascending =>
      have names := congrArg List.length named.names
      rw [List.length_map, ← kept.length_eq, List.length_map] at names
      revert names
      decide +kernel

end Data

end EplLang
