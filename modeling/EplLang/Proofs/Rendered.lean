import EplLang.Proofs.Lexing
import EplLang.Proofs.NumberText
import EplLang.Proofs.Printing

/-!
# The text of data

The text of data is meant for a reader, but of most data it is also an expression that
gives the data back. `Data.Readable` says of which: numbers are finite and written without
an exponent, no byte of a string has a meaning of its own in one, an array has the keys
that count its elements, and an object has names for keys.

Here the text is followed to its tokens (`spells_data`). A negative number is two of them,
a sign and a number. And nothing stands between the entries of an object but a blank, which
is enough to end a word or a number.
-/

set_option autoImplicit false

namespace EplLang

open Text (byte isDigit insideName Numeral)

/-! ## Data that its text describes -/

/-- Whether a finite number has a minus sign. -/
def Binary64.isNegative (x : Float) : Bool :=
  match decode x with
  | .finite negative _ _ => negative
  | _ => false

/-- Scalars that their text describes. That the text of a single number is read as the
number is part of it. -/
def Scalar.Readable : Scalar → Prop
  | .number x =>
    (∃ negative m q, Binary64.decode x = .finite negative m q) ∧ byte 'e' ∉ numberText x ∧
      readNumber? (numberText x) = some x
  | .string t => Lexer.Verbatim t
  | .boolean _ | .null => True

/-- The keys of a container of a kind that its text describes: none occurs twice, an array
has the numbers from zero on, and an object has at least one, and names only. -/
def Shape.ReadableKeys (shape : Shape) (keys : List Scalar) : Prop :=
  (keys.Pairwise fun a b => Scalar.same a b = false) ∧
  match shape with
  | .array => ∀ (i : Nat) k, keys[i]? = some k → k = .number (Binary64.ofInt i)
  | .object => keys ≠ [] ∧
    ∀ k ∈ keys, ∃ t, k = .string t ∧ Text.isIdentifier t = true ∧ t ∉ Token.reserved

/-- Data that its text describes. -/
inductive Data.Readable : Data → Prop where
  | scalar {x : Scalar} : x.Readable → Readable (.scalar x)
  | container {shape : Shape} {entries : List (Scalar × Option Data)} :
      shape.ReadableKeys (entries.map Prod.fst) → (∀ entry ∈ entries, entry.2.isSome) →
      (∀ k d, (k, some d) ∈ entries → Readable d) → Readable (.container shape ⟨entries⟩)

namespace Data

mutual

/-- The expression that the text of data is. -/
def literal : Data → Node
  | .scalar (.number x) =>
    if Binary64.isNegative x then .unary .minus (.literal (.number (-x))) else .literal (.number x)
  | .scalar x => .literal x
  | .function site params body => .function site params body
  | .container shape ⟨entries⟩ => .container shape ⟨literalEntries entries⟩

/-- The entries of a container as expressions. -/
def literalEntries : List (Scalar × Option Data) → List (Scalar × Option Node)
  | [] => []
  | (k, none) :: rest => (k, none) :: literalEntries rest
  | (k, some d) :: rest => (k, some (literal d)) :: literalEntries rest

end

theorem literalEntries_eq (entries : List (Scalar × Option Data)) :
    literalEntries entries = entries.map fun entry => (entry.1, entry.2.map literal) := by
  induction entries with
  | nil => rfl
  | cons entry rest ih =>
      obtain ⟨k, value⟩ := entry
      cases value <;> simp [literalEntries, ih]

theorem map_fst_literalEntries (entries : List (Scalar × Option Data)) :
    (literalEntries entries).map Prod.fst = entries.map Prod.fst := by
  rw [literalEntries_eq]
  exact List.map_map

end Data

/-! ## The tokens of data -/

namespace Style

variable (s : Style)

/-- A number, with its sign as a token of its own. -/
def signed (x : Float) : List Token :=
  if Binary64.isNegative x then [s.mark .minus, s.mark (.number (-x))] else [s.mark (.number x)]

mutual

/-- The tokens of data. -/
def data : Data → List Token
  | .scalar (.number x) => s.signed x
  | .scalar x => [s.scalar x]
  | .function .. => []
  | .container .array ⟨entries⟩ => s.bracketed (s.listed (dataElements entries))
  | .container .object ⟨entries⟩ => s.bracketed (dataFields entries)

/-- The tokens of the elements of an array. -/
def dataElements : List (Scalar × Option Data) → List (List Token)
  | [] => []
  | (_, none) :: rest => dataElements rest
  | (_, some d) :: rest => data d :: dataElements rest

/-- The tokens of the entries of an object. -/
def dataFields : List (Scalar × Option Data) → List Token
  | [] => []
  | (.string t, some d) :: rest => s.ident t :: s.mark .assign :: (data d ++ dataFields rest)
  | _ :: rest => dataFields rest

end

end Style

/-! ## The text of data spells its tokens -/

namespace Lexer

section Data

variable {segment : Int → Text → Except Stop (List Token)} {s : Style} {rest : Text}

theorem spells_number {x : Float} (readable : (Scalar.number x).Readable) (ends : EndsToken rest) :
    Spells segment s.line (numberText x) (s.signed x) rest := by
  obtain ⟨⟨negative, m, q, finite⟩, positional, reads⟩ := readable
  obtain ⟨size, shape, text⟩ := numberText_numeral finite positional
  have sign : Binary64.isNegative x = negative := by rw [Binary64.isNegative, finite]
  unfold Style.signed
  rw [sign]
  cases negative with
  | false =>
      simp only [Bool.false_eq_true, if_false] at text ⊢
      rw [text] at reads ⊢
      exact .number shape ends.number reads
  | true =>
      simp only [if_true] at text ⊢
      rw [text] at reads ⊢
      have minus : Spells segment s.line [byte '-'] [s.mark .minus] (size ++ rest) :=
        .mark fun _ => rfl
      exact minus.append (.number shape ends.number (readNumber?_neg shape reads).1)

theorem spells_scalar {x : Scalar} (readable : x.Readable) (ends : EndsToken rest) :
    Spells segment s.line x.shown (s.data (.scalar x)) rest := by
  cases x with
  | number x => exact spells_number readable ends
  | string t => exact Spells.string readable
  | boolean b =>
      have true_word : Spells segment s.line "true" _ rest := .word rfl ends.word
      have false_word : Spells segment s.line "false" _ rest := .word rfl ends.word
      cases b with
      | true => exact true_word
      | false => exact false_word
  | null =>
      have word : Spells segment s.line "null" _ rest := .word rfl ends.word
      exact word

/-- The elements of an array. Each is over at the comma after it or at the bracket. -/
theorem spells_elements {entries : List (Scalar × Option Data)}
    (present : ∀ entry ∈ entries, entry.2.isSome)
    (each : ∀ k d, (k, some d) ∈ entries → ∀ rest, EndsToken rest →
      Spells segment s.line d.shown (s.data d) rest) (ends : EndsToken rest) :
    Spells segment s.line (Text.join ", " (Data.shownValues entries))
      (s.listed (s.dataElements entries)) rest := by
  induction entries with
  | nil => exact .nil
  | cons entry others ih =>
      obtain ⟨k, value⟩ := entry
      obtain ⟨here, there⟩ := List.forall_mem_cons.mp present
      obtain ⟨d, rfl⟩ := Option.isSome_iff_exists.mp here
      have first := each k d List.mem_cons_self
      have later := ih there fun k d member => each k d (List.mem_cons_of_mem _ member)
      cases others with
      | nil => exact first rest ends
      | cons next others =>
          obtain ⟨k', value'⟩ := next
          obtain ⟨d', rfl⟩ := Option.isSome_iff_exists.mp (there _ List.mem_cons_self)
          have comma : ∀ rest, Spells segment s.line [byte ',', byte ' '] [s.mark .comma] rest :=
            fun rest => .append (.mark fun _ => rfl) .blank
          have whole : Spells segment s.line
              (d.shown ++ ([byte ',', byte ' '] ++
                Text.join ", " (Data.shownValues ((k', some d') :: others))))
              (s.data d ++ ([s.mark .comma] ++
                s.listed (s.dataElements ((k', some d') :: others)))) rest := by
            refine .append (first _ ?_) (.append (comma _) later)
            intro b same
            cases same
            decide
          rw [← List.append_assoc] at whole
          exact whole

/-- A key and the equals sign after it. -/
theorem spells_key {t : Text} (identifier : Text.isIdentifier t = true)
    (free : t ∉ Token.reserved) (rest : Text) :
    Spells segment s.line (t ++ [byte ' ', byte '=', byte ' ']) [s.ident t, s.mark .assign]
      rest := by
  have token : Token.ofWord s.line t = s.ident t := Token.ofWord_of_free s.line free
  have equals : Spells segment s.line ([byte ' '] ++ ([byte '='] ++ [byte ' ']))
      ([] ++ ([s.mark .assign] ++ [])) rest := by
    refine .append .blank (.append (.assign ?_) .blank)
    intro same
    cases same
  rw [← token]
  refine .append (.word identifier fun b same => ?_) equals
  cases same
  decide

/-- The entries of an object. Each is over at the blank after it or at the bracket. -/
theorem spells_fields {entries : List (Scalar × Option Data)}
    (names : ∀ k ∈ entries.map Prod.fst,
      ∃ t, k = .string t ∧ Text.isIdentifier t = true ∧ t ∉ Token.reserved)
    (present : ∀ entry ∈ entries, entry.2.isSome)
    (each : ∀ k d, (k, some d) ∈ entries → ∀ rest, EndsToken rest →
      Spells segment s.line d.shown (s.data d) rest) (ends : EndsToken rest) :
    Spells segment s.line (Text.join " " (Data.shownEntries entries)) (s.dataFields entries)
      rest := by
  induction entries with
  | nil => exact .nil
  | cons entry others ih =>
      obtain ⟨k, value⟩ := entry
      obtain ⟨here, there⟩ := List.forall_mem_cons.mp present
      obtain ⟨d, rfl⟩ := Option.isSome_iff_exists.mp here
      obtain ⟨⟨t, key, identifier, free⟩, more⟩ := List.forall_mem_cons.mp names
      obtain rfl : k = .string t := key
      have label : (Scalar.string t).label = t := if_pos identifier
      have first : ∀ rest, EndsToken rest → Spells segment s.line
          (t ++ [byte ' ', byte '=', byte ' '] ++ d.shown)
          ([s.ident t, s.mark .assign] ++ s.data d) rest := fun rest ends =>
        .append (spells_key identifier free _) (each _ d List.mem_cons_self rest ends)
      have later := ih more there fun k d member => each k d (List.mem_cons_of_mem _ member)
      cases others with
      | nil =>
          simp only [Data.shownEntries, Text.join, label, Style.dataFields, List.append_nil]
          exact first rest ends
      | cons next others =>
          obtain ⟨k', value'⟩ := next
          obtain ⟨d', rfl⟩ := Option.isSome_iff_exists.mp (there _ List.mem_cons_self)
          have whole : Spells segment s.line
              (t ++ [byte ' ', byte '=', byte ' '] ++ d.shown ++ ([byte ' '] ++
                Text.join " " (Data.shownEntries ((k', some d') :: others))))
              ([s.ident t, s.mark .assign] ++ s.data d ++ ([] ++
                s.dataFields ((k', some d') :: others))) rest := by
            refine .append (first _ ?_) (.append .blank later)
            intro b same
            cases same
            decide
          rw [← List.append_assoc] at whole
          simp only [Data.shownEntries, Text.join, label] at whole ⊢
          exact whole

theorem spells_data {d : Data} (readable : d.Readable) (ends : EndsToken rest) :
    Spells segment s.line d.shown (s.data d) rest := by
  induction readable generalizing rest with
  | scalar readable => exact spells_scalar readable ends
  | @container shape entries keys present _ each =>
      have each' : ∀ k d, (k, some d) ∈ entries → ∀ rest, EndsToken rest →
          Spells segment s.line d.shown (s.data d) rest := fun k d member rest => each k d member
      have bracketed : ∀ {text : Text} {tokens : List Token},
          Spells segment s.line text tokens ([byte ']'] ++ rest) →
          Spells segment s.line ([byte '['] ++ text ++ [byte ']']) (s.bracketed tokens) rest := by
        intro text tokens inner
        exact .append (.append (.mark fun _ => rfl) inner) (.mark fun _ => rfl)
      have closing : EndsToken ([byte ']'] ++ rest) := by
        intro b same
        cases same
        decide
      cases shape with
      | array => exact bracketed (spells_elements present each' closing)
      | object => exact bracketed (spells_fields keys.2.2 present each' closing)

end Data

end Lexer

end EplLang
