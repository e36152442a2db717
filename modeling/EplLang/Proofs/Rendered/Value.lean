import EplLang.Proofs.Contents
import EplLang.Proofs.Rendered
import EplLang.Proofs.RoundTrip
import EplLang.Proofs.Soundness

/-!
# Rendered data reads back

The tokens of data are read as the expression `Data.literal`, whatever follows that does not
go on with it (`expression_data`), and the value of that expression is the data put into the
store (`eval_literal`). So a program that assigns the text of data to a name binds a copy of
the data.

Two things are not as they look. A negative number is read as an operator before a number,
and is computed. And an entry of an object is over because the name of the next one goes on
with no expression.
-/

set_option autoImplicit false

namespace EplLang

/-! ## Containers filled in order -/

namespace Container

variable {α : Type} {filled : Container α} {k : Scalar} {left : List Scalar}

/-- A key that is set after others with which it is no key twice. -/
theorem entries_set_last (distinct : (filled.entries.map Prod.fst ++ k :: left).Pairwise
    fun a b => Scalar.same a b = false) (known : k.isLost = false) (v : α) :
    (filled.set k v).entries = filled.entries ++ [(k, some v)] := by
  have absent : ∀ entry ∈ filled.entries, Scalar.same entry.1 k = false := by
    intro entry member
    exact (List.pairwise_append.mp distinct).2.2 _ (List.mem_map_of_mem member) k
      List.mem_cons_self
  rw [entries_set, known, if_neg Bool.false_ne_true, OrderedMap.put_of_absent absent]

end Container

theorem Shape.ReadableKeys.known {shape : Shape} {keys : List Scalar}
    (readable : shape.ReadableKeys keys) {k : Scalar} (member : k ∈ keys) : k.isLost = false := by
  cases shape with
  | array =>
      obtain ⟨i, found⟩ := List.mem_iff_getElem?.mp member
      rw [readable.2 i k found]
      exact Scalar.isLost_ofInt i
  | object =>
      obtain ⟨t, rfl, _⟩ := readable.2.2 k member
      exact Scalar.isLost_string t

/-- A container literal of which some entries are read and others are left. -/
structure Data.Filling (entries left : List (Scalar × Option Data)) (items : Container Node) :
    Prop where
  whole : items.entries ++ literalEntries left = literalEntries entries
  suffix : left <:+ entries

namespace Data.Filling

variable {entries left : List (Scalar × Option Data)} {items : Container Node}

theorem start (entries : List (Scalar × Option Data)) : Filling entries entries .empty :=
  ⟨rfl, List.suffix_rfl⟩

theorem done (filling : Filling entries [] items) : items.items = ⟨literalEntries entries⟩ := by
  rw [← filling.whole, literalEntries, List.append_nil]
  rfl

theorem keys (filling : Filling entries left items) :
    items.entries.map Prod.fst ++ left.map Prod.fst = entries.map Prod.fst := by
  have all := congrArg (List.map Prod.fst) filling.whole
  simpa only [List.map_append, map_fst_literalEntries] using all

variable {k : Scalar} {d : Data}

/-- One entry more. Its key is not among those before it, so it is put last. -/
theorem step (filling : Filling entries ((k, some d) :: left) items) {shape : Shape}
    (readable : shape.ReadableKeys (entries.map Prod.fst)) :
    Filling entries left (items.set k d.literal) := by
  have keys := filling.keys
  rw [List.map_cons] at keys
  have known : k.isLost = false :=
    readable.known (keys ▸ List.mem_append_right _ List.mem_cons_self)
  refine ⟨?_, (List.suffix_cons _ _).trans filling.suffix⟩
  rw [Container.entries_set_last (keys ▸ readable.1) known, ← filling.whole, literalEntries,
    List.append_assoc, List.singleton_append]

/-- The key of the next element of an array is the number of those before it. -/
theorem counted (filling : Filling entries ((k, some d) :: left) items)
    (readable : Shape.array.ReadableKeys (entries.map Prod.fst)) :
    k = .number (Binary64.ofInt items.size) := by
  refine readable.2 items.size k ?_
  rw [← filling.keys, List.map_cons, ← items.length_entries, List.getElem?_append_right (by simp)]
  simp

end Data.Filling

/-! ## The tokens of data are read as an expression -/

namespace Style

variable (s : Style)

/-- Data opens with no name and no closing bracket. -/
theorem data_opens {d : Data} (readable : d.Readable) :
    ∃ t others, s.data d = t :: others ∧ t.kind ≠ .identifier ∧ t.kind ≠ .closeBracket := by
  cases readable with
  | @scalar x readable =>
      cases x with
      | number x =>
          simp only [data, signed]
          split
          · exact ⟨_, _, rfl, nofun, nofun⟩
          · exact ⟨_, _, rfl, nofun, nofun⟩
      | string t => exact ⟨_, _, rfl, nofun, nofun⟩
      | boolean b => exact ⟨_, _, rfl, nofun, nofun⟩
      | null => exact ⟨_, _, rfl, nofun, nofun⟩
  | @container shape entries =>
      cases shape with
      | array => exact ⟨_, _, rfl, nofun, nofun⟩
      | object => exact ⟨_, _, rfl, nofun, nofun⟩

end Style

namespace Parser

/-- The rules that occur inside others read data of fewer than `n` tokens. -/
structure Grammar.ReadsData (g : Grammar) (s : Style) (n : Nat) : Prop where
  expression {d : Data} {rest : List Token} : d.Readable → (s.data d).length < n → Closed rest →
    Reads g.expression (fun e => e = d.literal) (s.data d ++ rest) rest
  operand {x : Float} {rest : List Token} : 0 < n → Closed rest →
    Reads g.operand (fun e => e = .literal (.number x)) (s.mark (.number x) :: rest) rest

section Data

variable {g : Grammar} {s : Style} {n : Nat} {rest : List Token}

theorem operand_of_atom {P : Node → Prop} {before : List Token}
    (read : Reads (atom g) P before rest) (closed : Closed rest) :
    Reads (operand g) P before rest := by
  have ends := closed.not_attaching
  simp only [attaching, List.mem_cons, List.not_mem_nil, or_false, not_or] at ends
  exact .bind read fun n holds => suffixes_stop holds ends.2.1 ends.2.2.1 ends.2.2.2

theorem operand_number (x : Float) (closed : Closed rest) :
    Reads (operand g) (fun e => e = .literal (.number x)) (s.mark (.number x) :: rest) rest :=
  operand_of_atom (.peek (.advance (.pure rfl))) closed

variable (reads : g.ReadsData s n)
include reads

theorem atom_scalar {x : Scalar} (short : (s.data (.scalar x)).length < n + 1)
    (closed : Closed rest) :
    Reads (atom g) (fun e => e = (Data.scalar x).literal) (s.data (.scalar x) ++ rest) rest := by
  cases x with
  | number x =>
      simp only [Style.data, Style.signed, Data.literal] at short ⊢
      split
      · rename_i negative
        rw [if_pos negative] at short
        refine .peek (.advance ?_)
        refine .bind (reads.operand (x := -x) ?_ closed) fun e same => .pure ?_
        · simp only [List.length_cons, List.length_nil] at short
          omega
        · rw [same]
          rfl
      · exact .peek (.advance (.pure rfl))
  | string t => exact .peek (.advance (.pure rfl))
  | boolean b => exact .peek (.advance (.pure rfl))
  | null => exact .peek (.advance (.pure rfl))

section Entries

variable {entries : List (Scalar × Option Data)} (present : ∀ entry ∈ entries, entry.2.isSome)
  (readable : ∀ k d, (k, some d) ∈ entries → d.Readable)
include present readable

theorem arrayItems_data (keys : Shape.array.ReadableKeys (entries.map Prod.fst))
    (short : (s.listed (s.dataElements entries)).length < n) :
    Reads (arrayItems g) (fun items => items.items = ⟨Data.literalEntries entries⟩)
      (s.listed (s.dataElements entries) ++ s.mark .closeBracket :: rest) rest := by
  refine .bind (show Reads _ _ _ (s.mark .closeBracket :: rest) from .along
    (I := fun left items => Data.Filling entries left items ∧
      (s.listed (s.dataElements left)).length < n)
    (fun left => s.listed (s.dataElements left) ++ s.mark .closeBracket :: rest) ?_ ?_
    ⟨.start entries, short⟩) fun items same => .expect rfl (.pure same)
  · rintro items ⟨filling, _⟩
    exact .sees_then rfl (.pure filling.done)
  · rintro ⟨k, value⟩ left items ⟨filling, short⟩
    have member : (k, value) ∈ entries := filling.suffix.subset List.mem_cons_self
    obtain ⟨d, rfl⟩ := Option.isSome_iff_exists.mp (present _ member)
    obtain ⟨t, others, opens, _, noBracket⟩ := s.data_opens (readable k d member)
    have later := filling.step keys
    rw [filling.counted keys] at later
    have starts : ∀ tokens : List Token, kindAt (s.data d ++ tokens) 0 ≠ .closeBracket := by
      intro tokens
      rw [opens]
      exact noBracket
    cases left with
    | nil =>
        simp only [Style.dataElements, Style.listed] at short ⊢
        refine .inr (.sees_else (starts _) ?_)
        refine .bind (reads.expression (readable k d member) short (closed_cons rfl)) ?_
        rintro _ rfl
        exact .sees_else (ne_of_beq_false rfl) (.pure later.done)
    | cons next left =>
        obtain ⟨k', value'⟩ := next
        have member' : (k', value') ∈ entries :=
          filling.suffix.subset (List.mem_cons_of_mem _ List.mem_cons_self)
        obtain ⟨d', rfl⟩ := Option.isSome_iff_exists.mp (present _ member')
        simp only [Style.dataElements, Style.listed, List.length_append, List.length_cons,
          List.append_assoc, List.cons_append] at short ⊢
        refine .inl ⟨.sees_else (starts _) ?_, by omega⟩
        refine .bind (reads.expression (readable k d member) (by omega) (closed_cons rfl)) ?_
        rintro _ rfl
        exact .sees_then rfl (.advance (.pure ⟨later, by omega⟩))

theorem objectItems_data (keys : Shape.object.ReadableKeys (entries.map Prod.fst))
    (short : (s.dataFields entries).length < n) :
    Reads (objectItems g) (fun items => items.items = ⟨Data.literalEntries entries⟩)
      (s.dataFields entries ++ s.mark .closeBracket :: rest) rest := by
  refine .along (I := fun left items => Data.Filling entries left items ∧
      (s.dataFields left).length < n)
    (fun left => s.dataFields left ++ s.mark .closeBracket :: rest) ?_ ?_ ⟨.start entries, short⟩
  · rintro items ⟨filling, _⟩
    exact .sees_then rfl (.advance (.pure filling.done))
  · rintro ⟨k, value⟩ left items ⟨filling, short⟩
    have named : ∀ {k : Scalar} {value : Option Data}, (k, value) ∈ entries → ∃ t, k = .string t :=
      fun member => (keys.2.2 _ (List.mem_map_of_mem member)).imp fun _ => And.left
    have member : (k, value) ∈ entries := filling.suffix.subset List.mem_cons_self
    obtain ⟨d, rfl⟩ := Option.isSome_iff_exists.mp (present _ member)
    obtain ⟨t, rfl⟩ := named member
    -- an entry is over before the name of the next one, and the last one before the bracket
    have closed : Closed (s.dataFields left ++ s.mark .closeBracket :: rest) := by
      cases left with
      | nil => exact closed_cons rfl
      | cons next left =>
          obtain ⟨k', value'⟩ := next
          have member' : (k', value') ∈ entries :=
            filling.suffix.subset (List.mem_cons_of_mem _ List.mem_cons_self)
          obtain ⟨d', rfl⟩ := Option.isSome_iff_exists.mp (present _ member')
          obtain ⟨t', rfl⟩ := named member'
          exact closed_cons rfl
    simp only [Style.dataFields, List.length_append, List.length_cons, List.append_assoc,
      List.cons_append] at short ⊢
    refine .inl ⟨.sees_else (ne_of_beq_false rfl) (.expect rfl (.expect rfl ?_)), by omega⟩
    refine .bind (reads.expression (readable _ d member) (by omega) closed) ?_
    rintro _ rfl
    exact .pure ⟨filling.step keys, by omega⟩

end Entries

/-- An array opens with its first element or is empty, and an object opens with a name before
an equals sign. -/
theorem containerLiteral_data {shape : Shape} {entries : List (Scalar × Option Data)}
    (readable : (Data.container shape ⟨entries⟩).Readable)
    (short : (s.data (.container shape ⟨entries⟩)).length < n + 1) :
    Reads (containerLiteral g) (fun e => e = (Data.container shape ⟨entries⟩).literal)
      (s.data (.container shape ⟨entries⟩) ++ rest) rest := by
  obtain _ | ⟨keys, present, parts⟩ := readable
  cases shape with
  | array =>
      simp only [Style.data, Style.length_bracketed] at short
      simp only [Style.data, Style.bracketed_append]
      refine .advance (.peek_kind fun t same => .peek_kind fun t' _ => ?_)
      rw [if_neg]
      · refine .bind (arrayItems_data reads present parts keys (by omega)) fun items same => ?_
        exact .pure (congrArg (Node.container .array) same)
      · rintro ⟨identifier, _⟩
        rw [same] at identifier
        cases entries with
        | nil => cases identifier
        | cons entry left =>
            obtain ⟨k, value⟩ := entry
            obtain ⟨d, rfl⟩ := Option.isSome_iff_exists.mp (present _ List.mem_cons_self)
            obtain ⟨t, others, opens, noName, _⟩ := s.data_opens (parts k d List.mem_cons_self)
            rw [Style.dataElements, s.listed_cons, opens] at identifier
            exact noName identifier
  | object =>
      simp only [Style.data, Style.length_bracketed] at short
      simp only [Style.data, Style.bracketed_append]
      refine .advance (.peek_kind fun t same => .peek_kind fun t' same' => ?_)
      rw [if_pos]
      · refine .bind (objectItems_data reads present parts keys (by omega)) fun items same => ?_
        exact .pure (congrArg (Node.container .object) same)
      · rw [same, same']
        cases entries with
        | nil => exact absurd rfl keys.2.1
        | cons entry left =>
            obtain ⟨k, value⟩ := entry
            obtain ⟨d, rfl⟩ := Option.isSome_iff_exists.mp (present _ List.mem_cons_self)
            obtain ⟨t, key, _⟩ := keys.2.2 k List.mem_cons_self
            obtain rfl : k = .string t := key
            exact ⟨rfl, rfl⟩

theorem expression_data {d : Data} (readable : d.Readable) (short : (s.data d).length < n + 1)
    (closed : Closed rest) :
    Reads (expression g) (fun e => e = d.literal) (s.data d ++ rest) rest := by
  refine expression_of_operand (operand_of_atom ?_ closed) closed
  cases readable with
  | scalar readable => exact atom_scalar reads short closed
  | @container shape entries keys present parts =>
      have read : Reads (containerLiteral g) _ _ rest :=
        containerLiteral_data reads (.container keys present parts) short
      cases shape with
      | array => exact .peek read
      | object => exact .peek read

end Data

/-- **Data is read at every depth** that its tokens leave room for. -/
theorem grammar_readsData (s : Style) (n : Nat) : (grammar n).ReadsData s n := by
  induction n with
  | zero =>
      exact ⟨fun _ short => absurd short (Nat.not_lt_zero _),
        fun positive => absurd positive (Nat.lt_irrefl 0)⟩
  | succ n ih =>
      exact ⟨fun readable short closed => expression_data ih readable short closed,
        fun _ closed => operand_number _ closed⟩

section Assignment

variable {s : Style} {n : Nat} (name : Text) {d : Data} (readable : d.Readable)
include readable

theorem assignment_data (short : (s.data d).length < n + 1) (target : Node) :
    Reads (assignment (grammar n) target) (fun e => e = d.literal)
      (s.mark .assign :: s.data d) [] := by
  have read : Reads (expression (grammar n)) (fun e => e = d.literal) (s.data d ++ []) [] :=
    expression_data (grammar_readsData s n) readable short nofun
  rw [List.append_nil] at read
  have plain : Reads compound (fun op => op = none) (s.mark .assign :: s.data d)
      (s.mark .assign :: s.data d) := .peek (.peek_kind fun t _ => .pure rfl)
  refine .bind plain ?_
  rintro _ rfl
  refine .expect rfl (.bind read ?_)
  rintro _ rfl
  exact .pure rfl

theorem statement_data (short : (s.data d).length < n + 1) :
    Reads (statement (grammar n)) (fun st => st = .bind name d.literal)
      (s.ident name :: s.mark .assign :: s.data d) [] := by
  refine .peek (.peek_kind fun next same => .peek_kind fun after _ => ?_)
  have starts : startsBinding next.kind after.kind = true := by
    rw [same]
    rfl
  rw [if_pos ⟨rfl, starts⟩]
  refine .advance (.bind (assignment_data readable short _) ?_)
  rintro _ rfl
  exact .pure rfl

theorem block_data (short : (s.data d).length < n + 1) (line : s.line ≠ noLine) :
    Reads (block (grammar n))
      (fun body => body = [⟨s.line, .newLine⟩, ⟨s.line, .bind name d.literal⟩])
      (s.ident name :: s.mark .assign :: s.data d) [] := by
  have first : Reads (statement (grammar n)) _ (s.ident name :: s.mark .assign :: s.data d) [] :=
    statement_data name readable short
  have shorter : ([] : List Token).length < (s.ident name :: s.mark .assign :: s.data d).length :=
    Nat.zero_lt_succ _
  refine .again (I := fun state : Block × Int =>
    state.1 = [⟨s.line, .newLine⟩, ⟨s.line, .bind name d.literal⟩]) (.peek ?_) shorter ?_
  · rw [if_neg (by rintro (same | same) <;> cases same)]
    refine .bind first ?_
    rintro _ rfl
    refine .pure ?_
    have here : (s.ident name).line = s.line := rfl
    simp [here, line]
  · rintro ⟨statements, last⟩ same
    refine .done (.peek_kind fun t ends => ?_)
    rw [if_pos (.inr ends)]
    exact .pure same

/-- An assignment of data to a name is one statement, with a marker before it. -/
theorem program_data (short : (s.data d).length < n + 1) (line : s.line ≠ noLine) :
    Reads (program (grammar (n + 1)))
      (fun body => body = [⟨s.line, .newLine⟩, ⟨s.line, .bind name d.literal⟩])
      (s.ident name :: s.mark .assign :: s.data d) [] := by
  refine .bind (block_data name readable short line) ?_
  rintro _ rfl
  refine .peek_kind fun t kind => ?_
  have ends : t.kind = .endOfInput := kind
  simp only [ends, ne_eq, not_true_eq_false, if_false]
  exact .pure rfl

end Assignment

end Parser

namespace Style

variable (s : Style) {entries : List (Scalar × Option Data)}

theorem mem_dataElements {piece : List Token} (member : piece ∈ s.dataElements entries) :
    ∃ k d, (k, some d) ∈ entries ∧ piece = s.data d := by
  induction entries with
  | nil => cases member
  | cons entry rest ih =>
      obtain ⟨k, value⟩ := entry
      cases value with
      | none =>
          obtain ⟨k, d, found, same⟩ := ih member
          exact ⟨k, d, List.mem_cons_of_mem _ found, same⟩
      | some d =>
          rcases List.mem_cons.mp member with here | there
          · exact ⟨k, d, List.mem_cons_self, here⟩
          · obtain ⟨k, d, found, same⟩ := ih there
            exact ⟨k, d, List.mem_cons_of_mem _ found, same⟩

theorem inline_dataFields (each : ∀ k d, (k, some d) ∈ entries → Inline (s.data d)) :
    Inline (s.dataFields entries) := by
  induction entries with
  | nil => exact inline_nil
  | cons entry rest ih =>
      have others := ih fun k d member => each k d (List.mem_cons_of_mem _ member)
      obtain ⟨k, value⟩ := entry
      cases k <;> cases value
      case string.some t d =>
        simp [dataFields, ident, mark, others, each _ d List.mem_cons_self]
      all_goals exact others

end Style

/-- Data is written on one line. -/
theorem Style.inline_data (s : Style) {d : Data} (readable : d.Readable) : Inline (s.data d) := by
  induction readable with
  | @scalar x _ =>
      cases x with
      | number x =>
          simp only [data, signed]
          split <;> simp [mark]
      | _ => simp [data, scalar, mark]
  | @container shape entries _ present _ each =>
      cases shape with
      | array =>
          have elements : ∀ piece ∈ s.dataElements entries, Inline piece := by
            intro piece member
            obtain ⟨k, d, found, rfl⟩ := s.mem_dataElements member
            exact each k d found
          simp [data, bracketed, mark, inline_listed elements]
      | object =>
          have fields : Inline (s.dataFields entries) := s.inline_dataFields each
          simp [data, bracketed, mark, fields]

/-- The program that assigns data to a name, from its text. -/
theorem parseSource_data (site : Nat) (name : Text) (identifier : Text.isIdentifier name = true)
    (free : name ∉ Token.reserved) {d : Data} (readable : d.Readable) :
    ∃ site', parseSource site (name ++ " = " ++ d.shown) =
      .ok ([⟨1, .newLine⟩, ⟨1, .bind name d.literal⟩], site') := by
  let s : Style := ⟨1, fun _ => false⟩
  let tokens := s.ident name :: s.mark .assign :: s.data d
  have atEnd : Lexer.EndsToken [] := fun _ none => by cases none
  have value : Lexer.Spells Lexer.segmentTokens s.line d.shown (s.data d) [] :=
    Lexer.spells_data readable atEnd
  have spelt : Lexer.Spells Lexer.segmentTokens 1 (name ++ " = " ++ d.shown) tokens [] :=
    .append (Lexer.spells_key identifier free _) value
  have inline : Style.Inline tokens := by
    simp [tokens, Style.ident, Style.mark, s.inline_data readable]
  have same : (Parser.start site tokens).tokens = tokens :=
    List.filter_eq_self.mpr fun t member => by simpa using inline t member
  have enough := Parser.length_le_tokensWeight tokens
  have short : (s.data d).length < Parser.tokensWeight tokens + 1 := by
    simp only [tokens, List.length_cons] at enough ⊢
    omega
  obtain ⟨body, c, ran, _, rfl⟩ :=
    Parser.program_data name readable short (show s.line ≠ Parser.noLine by decide) _ same
  refine ⟨c.site, ?_⟩
  have parsed : Parser.parseFrom site tokens =
      .ok ([⟨1, .newLine⟩, ⟨1, .bind name d.literal⟩], c.site) := by
    unfold Parser.parseFrom
    rw [ran]
    rfl
  unfold parseSource
  rw [lex_of_spells spelt]
  exact parsed

/-! ## The value is the data -/

namespace Data

mutual

/-- How deep data goes. -/
def depth : Data → Nat
  | .scalar _ | .function .. => 1
  | .container _ ⟨entries⟩ => depthEntries entries + 1

/-- How deep the deepest entry goes. -/
def depthEntries : List (Scalar × Option Data) → Nat
  | [] => 0
  | (_, none) :: rest => depthEntries rest
  | (_, some d) :: rest => max (depth d) (depthEntries rest)

end

theorem depth_le_of_mem {entries : List (Scalar × Option Data)} {k : Scalar} {d : Data}
    (member : (k, some d) ∈ entries) : d.depth ≤ depthEntries entries := by
  induction entries with
  | nil => cases member
  | cons entry rest ih =>
      obtain ⟨k', value⟩ := entry
      rcases List.mem_cons.mp member with here | there
      · cases here
        exact Nat.le_max_left _ _
      · cases value with
        | none => exact ih there
        | some d' => exact Nat.le_trans (ih there) (Nat.le_max_right _ _)

end Data

/-- A negative number is what its size with a minus sign is computed to. -/
theorem neg_neg_of_readable {x : Float} (readable : (Scalar.number x).Readable)
    (negative : Binary64.isNegative x = true) : -(-x) = x := by
  obtain ⟨⟨sign, m, q, finite⟩, positional, reads⟩ := readable
  obtain ⟨size, shape, text⟩ := numberText_numeral finite positional
  rw [Binary64.isNegative, finite] at negative
  obtain rfl : sign = true := negative
  rw [text, if_pos rfl] at reads
  exact (readNumber?_neg shape reads).2

section Evaluation

variable (s : Surroundings) {fuel : Nat}

theorem eval_scalar {x : Scalar} (readable : x.Readable) (enough : 1 < fuel) (m : Machine) :
    (calls fuel s).eval (Data.scalar x).literal m = .ok (.scalar x) m := by
  obtain ⟨fuel, rfl⟩ := Nat.exists_eq_add_of_le' enough
  cases x with
  | number x =>
      simp only [Data.literal]
      split
      · rename_i negative
        have size : (calls (fuel + 1) s).eval (.literal (.number (-x))) m =
            .ok (.scalar (.number (-x))) m := rfl
        have computed : (calls (fuel + 2) s).eval (.unary .minus (.literal (.number (-x)))) m =
            .ok (.scalar (.number (-(-x)))) m := Run.bind_of_ok size
        rw [computed, neg_neg_of_readable readable negative]
      · rfl
  | string t => rfl
  | boolean b => rfl
  | null => rfl

/-- If expressions are evaluated to data that is put into the store, then the entries of a
container of them are set to it, after the entries that are already there. -/
theorem items_written (node : Data → Node) (done : Container Value)
    {entries : List (Scalar × Option Data)} (present : ∀ entry ∈ entries, entry.2.isSome)
    (each : ∀ k d, (k, some d) ∈ entries → ∀ m : Machine, (calls fuel s).eval (node d) m =
      .ok (m.store.write d).1 { m with store := (m.store.write d).2 }) (m : Machine) :
    Eval.items (calls fuel s) done (entries.map fun entry => (entry.1, entry.2.map node)) m =
      .ok ((m.store.writeEntries entries).1.foldl
          (fun c entry => c.set entry.1 (entry.2.getD .null)) done)
        { m with store := (m.store.writeEntries entries).2 } := by
  induction entries generalizing done m with
  | nil =>
      simp only [Store.writeEntries]
      rfl
  | cons entry rest ih =>
      obtain ⟨k, value⟩ := entry
      obtain ⟨here, there⟩ := List.forall_mem_cons.mp present
      obtain ⟨d, rfl⟩ := Option.isSome_iff_exists.mp here
      have first := each k d List.mem_cons_self m
      have step : Eval.items (calls fuel s) done
            (((k, some d) :: rest).map fun entry => (entry.1, entry.2.map node)) m =
          Eval.items (calls fuel s) (done.set k (m.store.write d).1)
            (rest.map fun entry => (entry.1, entry.2.map node))
            { m with store := (m.store.write d).2 } := Run.bind_of_ok first
      rw [step, ih _ there fun k d member => each k d (List.mem_cons_of_mem _ member)]
      simp only [Store.writeEntries]
      rfl

/-- **The value of the expression is the data**, put into the store as new containers. -/
theorem eval_literal {d : Data} (readable : d.Readable) (enough : d.depth < fuel) (m : Machine) :
    (calls fuel s).eval d.literal m =
      .ok (m.store.write d).1 { m with store := (m.store.write d).2 } := by
  induction readable generalizing fuel m with
  | scalar readable => exact eval_scalar s readable enough m
  | @container shape entries keys present _ ih =>
      simp only [Data.depth] at enough
      obtain ⟨fuel, rfl⟩ : ∃ less, fuel = less + 1 := ⟨fuel - 1, by omega⟩
      have each : ∀ k d, (k, some d) ∈ entries → ∀ m : Machine, (calls fuel s).eval d.literal m =
          .ok (m.store.write d).1 { m with store := (m.store.write d).2 } := by
        intro k d member
        have deep := Data.depth_le_of_mem member
        exact ih k d member (by omega)
      have items : Eval.items (calls fuel s) .empty (Data.literalEntries entries) m =
          .ok (Store.ofEntries (m.store.writeEntries entries).1)
            { m with store := (m.store.writeEntries entries).2 } := by
        rw [Data.literalEntries_eq]
        exact items_written s _ .empty present each m
      exact Run.bind_of_ok items

end Evaluation

/-- Keys that can be read are as setting them makes them. -/
theorem Data.Readable.formed {d : Data} (readable : d.Readable) : d.Formed := by
  induction readable with
  | scalar _ => exact .scalar _
  | @container shape entries keys present _ ih =>
      refine .container ⟨List.pairwise_map.mp keys.1, fun entry member => ?_⟩ ih
      rw [present entry member, keys.known (List.mem_map_of_mem member)]
      rfl

/-- **Rendered data reads back.** A program that assigns the text of data to a name, in a
fresh state, binds the name to a value that amounts to the data: the kinds, the keys in
their order and the scalars are the same. -/
theorem rendered_data_reads_back {d : Data} (readable : d.Readable) (s : Surroundings)
    (input : Text) {fuel : Nat} (enough : d.depth + 1 < fuel) :
    ∃ m v, runSource fuel s ("x = " ++ d.shown) (Machine.start input) = .ok () m ∧
      m.bindings.find? "x" = some v ∧ m.store.view v = d := by
  obtain ⟨fuel, rfl⟩ : ∃ less, fuel = less + 1 := ⟨fuel - 1, by omega⟩
  obtain ⟨site, parsed⟩ : ∃ site, parseSource (Machine.start input).site ("x = " ++ d.shown) =
      .ok ([⟨1, .newLine⟩, ⟨1, .bind "x" d.literal⟩], site) :=
    parseSource_data _ "x" rfl (by decide) readable
  let m : Machine := { Machine.start input with site, line := 1 }
  let written := m.store.write d
  let copied := written.2.copy written.1
  have evaluated : (calls fuel s).eval d.literal m = .ok written.1 { m with store := written.2 } :=
    eval_literal s readable (by omega) m
  let last : Machine := { m with store := copied.2, bindings := m.bindings.set "x" copied.1 }
  have bound : (calls (fuel + 1) s).exec ⟨1, .bind "x" d.literal⟩ m = .ok () last :=
    Run.bind_of_ok evaluated
  refine ⟨last, copied.1, ?_, Bindings.find?_set m.bindings "x" copied.1, ?_⟩
  · rw [runSource_eq parsed, Block.run, Eval.block_of_ok rfl (n := m) rfl,
      Eval.block_of_ok rfl bound]
    rfl
  · have contents : written.2.view written.1 = d :=
      Store.viewTo_write d m.store written.2 _ readable.formed (.refl _) (Nat.le_add_left _ _)
    rw [← contents]
    exact Store.view_copy (.refl _)

/-- An array with a fraction below zero, a negative zero and a string, and an object, under
two keys of an object: `[a = [-2.5, -0, "s, t"] b = [c = null]]`. -/
theorem rendered_data_reads_back_nested :
    let fraction := Binary64.ofBits true 0x4004000000000000
    let zero := Binary64.ofBits true 0
    let elements : List (Scalar × Option Data) := [
      (.number (Binary64.ofInt 0), some (.scalar (.number fraction))),
      (.number (Binary64.ofInt 1), some (.scalar (.number zero))),
      (.number (Binary64.ofInt 2), some (.scalar (.string "s, t")))]
    let d : Data := .container .object ⟨[
      (.string "a", some (.container .array ⟨elements⟩)),
      (.string "b", some (.container .object ⟨[(.string "c", some (.scalar .null))]⟩))]⟩
    d.shown = "[a = [-2.5, -0, \"s, t\"] b = [c = null]]" ∧ d.Readable ∧ d.depth + 1 < 9 ∧
    ∃ m v, runSource 9 {} ("x = " ++ d.shown) (Machine.start []) = .ok () m ∧
      m.bindings.find? "x" = some v ∧ m.store.view v = d := by
  intro fraction zero elements d
  have numbers : (Scalar.number fraction).Readable ∧ (Scalar.number zero).Readable := by
    refine ⟨⟨⟨true, 5629499534213120, -51, ?_⟩, ?_, ?_⟩, ⟨true, 0, -1074, ?_⟩, ?_, ?_⟩
    all_goals decide +kernel
  have string : (Scalar.string "s, t").Readable := by
    unfold Scalar.Readable Lexer.Verbatim
    decide +kernel
  have array : (Data.container .array ⟨elements⟩).Readable := by
    refine .container ⟨by decide +kernel, ?_⟩ (by simp [elements]) ?_
    · intro i k found
      match i with
      | 0 | 1 | 2 =>
          cases found
          rfl
      | i + 3 => cases found
    · intro k e member
      simp only [elements, List.mem_cons, Prod.mk.injEq, Option.some.injEq, List.not_mem_nil,
        or_false] at member
      rcases member with ⟨_, rfl⟩ | ⟨_, rfl⟩ | ⟨_, rfl⟩
      · exact .scalar numbers.1
      · exact .scalar numbers.2
      · exact .scalar string
  have object : (Data.container .object ⟨[(.string "c", some (.scalar .null))]⟩).Readable := by
    refine .container ⟨by decide, by simp, ?_⟩ (by simp) ?_
    · intro k member
      cases List.mem_singleton.mp member
      exact ⟨"c", rfl, by decide⟩
    · intro k e member
      cases List.mem_singleton.mp member
      exact .scalar trivial
  have readable : d.Readable := by
    refine .container ⟨by decide, by simp, ?_⟩ (by simp) ?_
    · intro k member
      rcases List.mem_pair.mp member with rfl | rfl
      · exact ⟨"a", rfl, by decide⟩
      · exact ⟨"b", rfl, by decide⟩
    · intro k e member
      simp only [List.mem_cons, Prod.mk.injEq, Option.some.injEq, List.not_mem_nil,
        or_false] at member
      rcases member with ⟨_, rfl⟩ | ⟨_, rfl⟩
      · exact array
      · exact object
  have enough : d.depth + 1 < 9 := by decide
  exact ⟨by decide +kernel, readable, enough, rendered_data_reads_back readable {} [] enough⟩

end EplLang
