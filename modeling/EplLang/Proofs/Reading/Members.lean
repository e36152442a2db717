import EplLang.Proofs.Printing
import EplLang.Proofs.Reading

/-!
# Reading groups and lists

Parentheses and brackets hold expressions: one in a group, several as arguments, as elements
or entries of a literal, as segments of a path. Here such a thing is read back from the texts
of its members, whatever way the members are written. All that is needed of a text is that the
nested rule takes it for its expression where no token goes on with it, and that it does not
begin like something else (`Grammar.Takes`).

Where several things can follow, the first tokens decide: a group is never taken for parameters,
since no equals sign follows it; an array is no object, since none of its elements begins with a
name and an equals sign. A rule that repeats something is read along the list of the members, and
its invariant is that what was read so far and what is left make up the whole.
-/

set_option autoImplicit false

namespace EplLang

/-- The nodes that differ from a given one in their lines only. -/
def Node.Like (e n : Node) : Prop := n.bare = e.bare

namespace Style

variable (s : Style)

/-- A segment of an index path, its expression written in some way. -/
def segment (text : Node → List Token) (e : Node) : List Token :=
  match s.dotName e with
  | some t => [s.mark .dot, s.ident t]
  | none => s.bracketed (text e)

/-- An entry of an object, its value written in some way. -/
def field (text : Node → List Token) : Scalar × Option Node → List Token
  | (_, none) => []
  | (k, some e) => s.ident k.bare :: s.mark .assign :: text e

theorem segment_opens (text : Node → List Token) (e : Node) :
    ∃ t others, s.segment text e = t :: others ∧ (t.kind = .openBracket ∨ t.kind = .dot) := by
  unfold segment
  split
  · exact ⟨_, _, rfl, .inr rfl⟩
  · exact ⟨_, _, rfl, .inl rfl⟩

end Style

namespace Parser

/-! ## What a nested rule takes -/

/-- The text of an expression does not begin like an end, like a block or like an entry of an
object. -/
structure Begins (text : List Token) : Prop where
  kind : kindAt text 0 ∉ [.endOfInput, .closeParen, .closeBracket, .openBrace, .assign]
  name : kindAt text 0 = .identifier → kindAt text 1 ≠ .assign

theorem Begins.append {text rest : List Token} (begins : Begins text)
    (follow : kindAt rest 0 ≠ .assign) : Begins (text ++ rest) := by
  obtain ⟨kind, name⟩ := begins
  cases text with
  | nil => exact absurd List.mem_cons_self kind
  | cons t more =>
      refine ⟨kind, fun identifier => ?_⟩
      cases more with
      | nil => exact follow
      | cons t' more => exact name identifier

theorem Begins.ne {text : List Token} (begins : Begins text) (rest : List Token) {kind : Kind}
    (among : kind ∈ [.endOfInput, .closeParen, .closeBracket, .openBrace, .assign]) :
    kindAt (text ++ rest) 0 ≠ kind := by
  obtain ⟨outside, _⟩ := begins
  rintro rfl
  cases text with
  | nil => exact outside List.mem_cons_self
  | cons t more => exact outside among

theorem begins_cons {t : Token} {more : List Token} (kind : t.kind ∉
    [.identifier, .endOfInput, .closeParen, .closeBracket, .openBrace, .assign]) :
    Begins (t :: more) := by
  rw [List.mem_cons, not_or] at kind
  obtain ⟨named, kind⟩ := kind
  exact ⟨kind, fun identifier => absurd identifier named⟩

theorem begins_ident (s : Style) (n : Text) : Begins [s.ident n] :=
  ⟨by simp [kindAt, Style.ident], by simp [kindAt]⟩

theorem begins_scalar (s : Style) (x : Scalar) : Begins [s.scalar x] := by
  cases x <;> exact begins_cons (by simp [Style.scalar, Style.mark])

theorem begins_grouped {s : Style} {inner : List Token} : Begins (s.grouped inner) :=
  begins_cons (by simp [Style.mark])

/-- The nested rule for expressions reads a text as an expression, before whatever does not go
on with it. -/
structure Grammar.Takes (g : Grammar) (e : Node) (text : List Token) : Prop where
  begins : Begins text
  reads : ∀ {rest}, Closed rest → Reads g.expression e.Like (text ++ rest) rest

section Rules

variable {g : Grammar} {s : Style} {e : Node} {text : Node → List Token} {rest after : List Token}
  {Q : Node → Prop}

/-! ## Members are shorter than the whole -/

omit rest in
theorem length_le_flatMap {α : Type} {l : List α} {f : α → List Token} {a : α} (member : a ∈ l) :
    (f a).length ≤ (l.flatMap f).length :=
  (List.sublist_flatten_of_mem (List.mem_map_of_mem member)).length_le

omit rest in
theorem length_le_listed {pieces : List (List Token)} {piece : List Token}
    (member : piece ∈ pieces) : piece.length ≤ (s.listed pieces).length := by
  cases pieces with
  | nil => cases member
  | cons first others =>
      rw [s.listed_cons, List.length_append]
      rcases List.mem_cons.mp member with rfl | there
      · exact Nat.le_add_right _ _
      · have shorter := length_le_flatMap (f := (s.mark .comma :: ·)) there
        rw [List.length_cons] at shorter
        omega

/-! ## Groups -/

theorem parenthesis_group {tokens : List Token} (takes : g.Takes e tokens)
    (ends : kindAt rest 0 ≠ .assign) :
    Reads (parenthesis g) e.Like (s.grouped tokens ++ rest) rest := by
  rw [s.grouped_append]
  refine .advance (.sees_else (takes.begins.ne _ (by simp)) ?_)
  refine .bind (P := fun inner => ∃ n, inner = some n ∧ e.Like n)
    (.map (takes.reads (closed_cons rfl)) fun n like => ⟨n, rfl, like⟩) ?_
  rintro _ ⟨n, rfl, like⟩
  refine .sees ?_
  split
  · rename_i comma
    cases comma
  · refine .expect rfl (.peek_kind fun t same => .peek_kind fun t' _ => ?_)
    rw [if_neg fun both => ends (same.symm.trans both.1)]
    exact .pure like

/-! ## Calls and index paths -/

theorem bareAll_snoc {parsed left whole : List Node} {e n : Node}
    (same : Node.bareAll parsed ++ Node.bareAll (e :: left) = Node.bareAll whole)
    (like : e.Like n) : Node.bareAll (parsed ++ [n]) ++ Node.bareAll left = Node.bareAll whole := by
  rw [← same, Node.bareAll_append]
  simp [Node.bareAll, like.symm]

theorem arguments_listed {args : List Node} (each : ∀ e ∈ args, g.Takes e (text e)) :
    Reads (arguments g) (fun parsed => Node.bareAll parsed = Node.bareAll args)
      (s.grouped (s.listed (args.map text)) ++ rest) rest := by
  rw [s.grouped_append]
  refine .advance (.along
    (I := fun left parsed => Node.bareAll parsed ++ Node.bareAll left = Node.bareAll args ∧
      ∀ e ∈ left, g.Takes e (text e))
    (fun left => s.listed (left.map text) ++ s.mark .closeParen :: rest) ?_ ?_ ⟨rfl, each⟩)
  · rintro parsed ⟨same, _⟩
    refine .sees_then rfl (.advance (.pure ?_))
    simpa [Node.bareAll] using same
  · rintro e left parsed ⟨same, each⟩
    obtain ⟨first, others⟩ := List.forall_mem_cons.mp each
    have noClose (more : List Token) : kindAt (text e ++ more) 0 ≠ .closeParen :=
      first.begins.ne more (by simp)
    cases left with
    | nil =>
        refine .inr (.sees_else (noClose _) ?_)
        refine .bind (first.reads (closed_cons rfl)) fun n like => ?_
        refine .sees_then rfl (.advance (.pure ?_))
        simpa [Node.bareAll] using bareAll_snoc same like
    | cons next left =>
        simp only [List.map_cons, Style.listed, List.append_assoc, List.cons_append]
        refine .inl ⟨.sees_else (noClose _) ?_, by simp; omega⟩
        refine .bind (first.reads (closed_cons rfl)) fun n like => ?_
        refine .sees_else (ne_of_beq_false rfl) (.expect rfl (.pure ?_))
        exact ⟨bareAll_snoc same like, others⟩

/-- A path is over where no other segment follows. -/
theorem path_segments {path : List Node}
    (each : ∀ e ∈ path, s.dotName e = none → g.Takes e (text e))
    (bracket : kindAt rest 0 ≠ .openBracket) (dot : kindAt rest 0 ≠ .dot) :
    Reads (Parser.path g) (fun parsed => Node.bareAll parsed = Node.bareAll path)
      (path.flatMap (s.segment text) ++ rest) rest := by
  refine .along
    (I := fun left parsed => Node.bareAll parsed ++ Node.bareAll left = Node.bareAll path ∧
      ∀ e ∈ left, s.dotName e = none → g.Takes e (text e))
    (fun left => left.flatMap (s.segment text) ++ rest) ?_ ?_ ⟨rfl, each⟩
  · rintro parsed ⟨same, _⟩
    refine .sees_else dot (.sees_else bracket (.pure ?_))
    simpa [Node.bareAll] using same
  · rintro e left parsed ⟨same, each⟩
    obtain ⟨first, others⟩ := List.forall_mem_cons.mp each
    simp only [List.flatMap_cons, Style.segment, List.append_assoc]
    cases name : s.dotName e with
    | some t =>
        obtain rfl := s.eq_text_of_dotName name
        refine .inl ⟨.sees_then rfl (.advance (.expect rfl (.pure ?_))), by simp⟩
        exact ⟨bareAll_snoc same rfl, others⟩
    | none =>
        simp only [s.bracketed_append]
        refine .inl ⟨.sees_else (ne_of_beq_false rfl) (.sees_then rfl (.advance ?_)), by
          simp; omega⟩
        refine .bind ((first name).reads (closed_cons rfl)) fun n like => ?_
        exact .expect rfl (.pure ⟨bareAll_snoc same like, others⟩)

theorem kindAt_segments (s : Style) (text : Node → List Token) {path : List Node}
    (somewhere : path ≠ []) (rest : List Token) :
    kindAt (path.flatMap (s.segment text) ++ rest) 0 = .openBracket ∨
      kindAt (path.flatMap (s.segment text) ++ rest) 0 = .dot := by
  obtain ⟨e, path, rfl⟩ := List.exists_cons_of_ne_nil somewhere
  obtain ⟨t, others, opens, kind⟩ := s.segment_opens text e
  simpa [opens, kindAt] using kind

/-- A call after an operand, and then whatever follows it. -/
theorem suffixes_call {n : Node} {args : List Node}
    (each : ∀ e ∈ args, g.Takes e (text e))
    (next : ∀ parsed, Node.bareAll parsed = Node.bareAll args →
      Reads (suffixes g (.call n parsed)) Q rest after) :
    Reads (suffixes g n) Q (s.grouped (s.listed (args.map text)) ++ rest) after := by
  refine .again (I := fun m => ∃ parsed, m = .call n parsed ∧
    Node.bareAll parsed = Node.bareAll args)
    (show Reads _ _ _ rest from .peek_kind fun t same => ?_) (by simp; omega) ?_
  · have starts : t.kind = .openParen := same
    rw [if_pos starts]
    exact .bind (arguments_listed each) fun parsed alike => .pure ⟨parsed, rfl, alike⟩
  · rintro _ ⟨parsed, rfl, alike⟩
    exact next parsed alike

/-- An index path after an operand, and then whatever follows it. -/
theorem suffixes_index {n : Node} {path : List Node}
    (somewhere : path ≠ []) (each : ∀ e ∈ path, s.dotName e = none → g.Takes e (text e))
    (bracket : kindAt rest 0 ≠ .openBracket) (dot : kindAt rest 0 ≠ .dot)
    (next : ∀ parsed, Node.bareAll parsed = Node.bareAll path →
      Reads (suffixes g (.index n parsed)) Q rest after) :
    Reads (suffixes g n) Q (path.flatMap (s.segment text) ++ rest) after := by
  have opens := kindAt_segments s text somewhere rest
  refine .again (I := fun m => ∃ parsed, m = .index n parsed ∧
    Node.bareAll parsed = Node.bareAll path)
    (show Reads _ _ _ rest from .peek_kind fun t same => ?_) ?_ ?_
  · rw [← same] at opens
    rw [if_neg (by rcases opens with same | same <;> simp [same]), if_pos opens]
    exact .bind (path_segments each bracket dot) fun parsed alike => .pure ⟨parsed, rfl, alike⟩
  · obtain ⟨e, path, rfl⟩ := List.exists_cons_of_ne_nil somewhere
    obtain ⟨t, others, opens, _⟩ := s.segment_opens text e
    simp [opens]
    omega
  · rintro _ ⟨parsed, rfl, alike⟩
    exact next parsed alike

/-! ## Functions -/

theorem moreParams_listed (more : List Text) :
    Reads moreParams (· = more)
      (more.flatMap (fun n => [s.mark .comma, s.ident n]) ++ s.mark .closeParen :: rest)
      (s.mark .closeParen :: rest) := by
  refine .along (I := fun left names => names ++ left = more)
    (fun left => left.flatMap (fun n => [s.mark .comma, s.ident n]) ++ s.mark .closeParen :: rest)
    ?_ ?_ rfl
  · intro names same
    refine .sees_else (ne_of_beq_false rfl) (.pure ?_)
    simpa using same
  · intro n left names same
    refine .inl ⟨.sees_then rfl (.advance (.expect rfl (.pure ?_))), ?_⟩
    · simpa [Style.ident] using same
    · simp only [List.flatMap_cons, List.length_append, List.length_cons]
      omega

theorem name_of_like {a : Text} {n : Node} (like : (Node.name a).Like n) : n = .name a := by
  cases n <;> simp_all [Node.Like, Node.bare]

/-- Names in parentheses before an arrow are parameters, however many there are. -/
theorem parenthesis_params {P : Node → Prop} {params : List Text} {body : List Token}
    (name : ∀ a, g.Takes (.name a) [s.ident a])
    (read : Reads (functionBody g params) P (s.mark .assign :: s.mark .greater :: body) rest) :
    Reads (parenthesis g) P
      (s.grouped (s.listed (params.map fun n => [s.ident n])) ++
        s.mark .assign :: s.mark .greater :: body) rest := by
  rw [s.grouped_append]
  refine .advance ?_
  cases params with
  | nil =>
      refine .sees_then rfl (.bind (P := (· = none)) (.pure rfl) ?_)
      rintro _ rfl
      exact .sees (.expect rfl (.peek (.peek_kind fun t same => by
        rw [if_pos ⟨rfl, same⟩]; exact read)))
  | cons a more =>
      have first {rest : List Token} (closed : Closed rest) :
          Reads (some <$> g.expression) (· = some (.name a)) (s.ident a :: rest) rest :=
        .map ((name a).reads closed) fun n like => by rw [name_of_like like]
      rw [s.listed_names]
      refine .sees_else (ne_of_beq_false rfl) ?_
      cases more with
      | nil =>
          refine .bind (first (closed_cons rfl)) ?_
          rintro _ rfl
          exact .sees (.expect rfl (.peek (.peek_kind fun t same => by
            rw [if_pos ⟨rfl, same⟩]; exact read)))
      | cons b more =>
          refine .bind (first (closed_cons rfl)) ?_
          rintro _ rfl
          refine .sees (.bind (moreParams_listed (b :: more)) ?_)
          rintro _ rfl
          exact .expect rfl read

/-! ## Arrays and objects -/

omit rest in
/-- The keys of a literal stand in the order of its entries. -/
theorem keys_of_bareEntries {parsed left entries : List (Scalar × Option Node)}
    (same : Node.bareEntries parsed ++ Node.bareEntries left = Node.bareEntries entries) :
    parsed.map Prod.fst ++ left.map Prod.fst = entries.map Prod.fst := by
  have keys := congrArg (List.map Prod.fst) same
  simpa only [List.map_append, Node.map_fst_bareEntries] using keys

/-- One entry more: its key is not among those before it, so it is put last. -/
theorem bareEntries_set {items : Items Node} (distinct : items.Distinct)
    {parsed : Container Node} {left : List (Scalar × Option Node)} {k : Scalar} {e n : Node}
    (same : Node.bareEntries parsed.entries ++ Node.bareEntries ((k, some e) :: left) =
      Node.bareEntries items.entries) (known : k.isLost = false) (like : e.Like n) :
    Node.bareEntries (parsed.set k n).entries ++ Node.bareEntries left =
      Node.bareEntries items.entries := by
  have ordered : (items.entries.map Prod.fst).Pairwise fun a b => Scalar.same a b = false :=
    List.pairwise_map.mpr distinct
  rw [← keys_of_bareEntries same, List.pairwise_append] at ordered
  have absent : ∀ entry ∈ parsed.entries, Scalar.same entry.1 k = false := fun entry member =>
    ordered.2.2 _ (List.mem_map_of_mem member) k List.mem_cons_self
  have put := OrderedMap.put_of_absent absent (some n)
  simp only [Container.entries_set, known, Bool.false_eq_true, if_false, put,
    Node.bareEntries_append]
  rw [← same]
  simp [Node.bareEntries, like.symm]

/-- The key of the next element is the number of those before it. -/
theorem key_of_counted {items : Items Node} (counted : items.Counted)
    {parsed : Container Node} {left : List (Scalar × Option Node)} {k : Scalar} {o : Option Node}
    (same : Node.bareEntries parsed.entries ++ Node.bareEntries ((k, o) :: left) =
      Node.bareEntries items.entries) : k = .number (Binary64.ofInt parsed.size) := by
  have keys := congrArg (fun keys => keys[parsed.size]?) (keys_of_bareEntries same)
  simp only [← OrderedMap.length_entries, List.map_cons, List.getElem?_map] at keys
  rw [List.getElem?_append_right (by simp)] at keys
  simp only [List.length_map, Nat.sub_self, List.getElem?_cons_zero] at keys
  obtain ⟨entry, found, key⟩ := Option.map_eq_some_iff.mp keys.symm
  rw [← key, ← OrderedMap.length_entries]
  exact counted _ entry found

/-- Entries that are all present, with values that the nested rule takes. -/
def Grammar.TakesAll (g : Grammar) (text : Node → List Token)
    (entries : List (Scalar × Option Node)) : Prop :=
  ∀ entry ∈ entries, ∃ e, entry.2 = some e ∧ g.Takes e (text e)

theorem Grammar.TakesAll.cons {k : Scalar} {o : Option Node} {left : List (Scalar × Option Node)}
    (all : g.TakesAll text ((k, o) :: left)) :
    (∃ e, o = some e ∧ g.Takes e (text e)) ∧ g.TakesAll text left :=
  List.forall_mem_cons.mp all

theorem objectItems_fields {items : Items Node} (distinct : items.Distinct)
    (named : ∀ entry ∈ items.entries, ∃ t, entry.1 = .string t)
    (all : g.TakesAll text items.entries) :
    Reads (objectItems g)
      (fun parsed => Node.bareEntries parsed.entries = Node.bareEntries items.entries)
      (items.entries.flatMap (s.field text) ++ s.mark .closeBracket :: rest) rest := by
  refine .along
    (I := fun left parsed => Node.bareEntries parsed.entries ++ Node.bareEntries left =
        Node.bareEntries items.entries ∧ (∀ entry ∈ left, ∃ t, entry.1 = .string t) ∧
      g.TakesAll text left)
    (fun left => left.flatMap (s.field text) ++ s.mark .closeBracket :: rest) ?_ ?_
    ⟨rfl, named, all⟩
  · rintro parsed ⟨same, _⟩
    refine .sees_then rfl (.advance (.pure ?_))
    simpa [Node.bareEntries] using same
  · rintro ⟨k, o⟩ left parsed ⟨same, named, all⟩
    obtain ⟨⟨t, key⟩, names⟩ := List.forall_mem_cons.mp named
    obtain rfl : k = .string t := key
    obtain ⟨⟨e, rfl, takes⟩, others⟩ := all.cons
    have closed : Closed (left.flatMap (s.field text) ++ s.mark .closeBracket :: rest) := by
      cases left with
      | nil => exact closed_cons rfl
      | cons entry left =>
          obtain ⟨k, o⟩ := entry
          obtain ⟨⟨_, rfl, _⟩, _⟩ := others.cons
          exact closed_cons rfl
    simp only [List.flatMap_cons, Style.field, List.cons_append, List.append_assoc]
    refine .inl ⟨.sees_else (ne_of_beq_false rfl) (.expect rfl (.expect rfl ?_)), by simp; omega⟩
    refine .bind (takes.reads closed) fun n like => .pure ?_
    exact ⟨bareEntries_set distinct same (Scalar.isLost_string t) like, names, others⟩

/-- The elements of an array, each written in some way. -/
def elements (text : Node → List Token) (entries : List (Scalar × Option Node)) :
    List (List Token) := entries.filterMap fun entry => entry.2.map text

theorem arrayItems_elements {items : Items Node} (distinct : items.Distinct)
    (counted : items.Counted) (all : g.TakesAll text items.entries) :
    Reads (arrayItems g)
      (fun parsed => Node.bareEntries parsed.entries = Node.bareEntries items.entries)
      (s.listed (elements text items.entries) ++ s.mark .closeBracket :: rest) rest := by
  refine .bind (show Reads _ _ _ (s.mark .closeBracket :: rest) from .along
    (I := fun left parsed => Node.bareEntries parsed.entries ++ Node.bareEntries left =
      Node.bareEntries items.entries ∧ g.TakesAll text left)
    (fun left => s.listed (elements text left) ++ s.mark .closeBracket :: rest) ?_ ?_
    ⟨rfl, all⟩) fun parsed same => .expect rfl (.pure same)
  · rintro parsed ⟨same, _⟩
    refine .sees_then rfl (.pure ?_)
    simpa [Node.bareEntries] using same
  · rintro ⟨k, o⟩ left parsed ⟨same, all⟩
    obtain ⟨⟨e, rfl, takes⟩, others⟩ := all.cons
    obtain rfl := key_of_counted counted same
    have longer (n : Node) (like : e.Like n) :=
      bareEntries_set distinct same (Scalar.isLost_ofInt _) like
    have noClose (more : List Token) : kindAt (text e ++ more) 0 ≠ .closeBracket :=
      takes.begins.ne more (by simp)
    cases left with
    | nil =>
        refine .inr (.sees_else (noClose _) ?_)
        refine .bind (takes.reads (closed_cons rfl)) fun n like => ?_
        refine .sees_else (ne_of_beq_false rfl) (.pure ?_)
        simpa [Node.bareEntries] using longer n like
    | cons entry left =>
        obtain ⟨k, o⟩ := entry
        obtain ⟨⟨next, rfl, _⟩, _⟩ := others.cons
        simp only [elements, List.filterMap_cons, Option.map_some, Style.listed,
          List.append_assoc, List.cons_append]
        refine .inl ⟨.sees_else (noClose _) ?_, by simp; omega⟩
        refine .bind (takes.reads (closed_cons rfl)) fun n like => ?_
        exact .sees_then rfl (.advance (.pure ⟨longer n like, others⟩))

/-- The first tokens after a bracket are a name and an equals sign in an object only. -/
theorem begins_elements {entries : List (Scalar × Option Node)} (all : g.TakesAll text entries)
    (identifier : kindAt (s.listed (elements text entries) ++ s.mark .closeBracket :: rest) 0 =
      .identifier) :
    kindAt (s.listed (elements text entries) ++ s.mark .closeBracket :: rest) 1 ≠ .assign := by
  cases entries with
  | nil => cases identifier
  | cons entry left =>
      obtain ⟨k, o⟩ := entry
      obtain ⟨⟨e, rfl, takes⟩, _⟩ := all.cons
      simp only [elements, List.filterMap_cons, Option.map_some, s.listed_cons,
        List.append_assoc] at identifier ⊢
      refine (takes.begins.append ?_).name identifier
      cases List.filterMap (fun entry => Option.map text entry.2) left <;>
        simp [kindAt, Style.mark]

theorem containerLiteral_array {items : Items Node} (distinct : items.Distinct)
    (counted : items.Counted) (all : g.TakesAll text items.entries) :
    Reads (containerLiteral g) (Node.container .array items).Like
      (s.bracketed (s.listed (elements text items.entries)) ++ rest) rest := by
  rw [s.bracketed_append]
  refine .advance (.peek_kind fun t same => .peek_kind fun t' same' => ?_)
  rw [if_neg]
  · refine .bind (arrayItems_elements distinct counted all) fun parsed same => .pure ?_
    simp [Node.Like, Node.bare, Container.items, same]
  · rintro ⟨identifier, assign⟩
    rw [same] at identifier
    rw [same'] at assign
    exact begins_elements all identifier assign

theorem containerLiteral_object {items : Items Node} (distinct : items.Distinct)
    (named : items.Named) (all : g.TakesAll text items.entries) :
    Reads (containerLiteral g) (Node.container .object items).Like
      (s.bracketed (items.entries.flatMap (s.field text)) ++ rest) rest := by
  obtain ⟨some', names⟩ := named
  rw [s.bracketed_append]
  refine .advance (.peek_kind fun t same => .peek_kind fun t' same' => ?_)
  rw [if_pos]
  · refine .bind (objectItems_fields distinct names all) fun parsed same => .pure ?_
    simp [Node.Like, Node.bare, Container.items, same]
  · rw [same, same']
    cases entries : items.entries with
    | nil => exact absurd entries some'
    | cons entry left =>
        obtain ⟨k, o⟩ := entry
        rw [entries] at all
        obtain ⟨⟨e, rfl, _⟩, _⟩ := all.cons
        exact ⟨rfl, rfl⟩

end Rules

end Parser

end EplLang
