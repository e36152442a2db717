import EplLang.Node

/-!
# Values as data

A value at run time refers to containers by their place in a store. `Data` is
what such a value amounts to at one moment: the same value with the contents of
its containers written out, all the way down. Everything that only looks at a
value (its text, its export) is a function of its data.
-/

set_option autoImplicit false

namespace EplLang

/-- A value with its contents written out. -/
inductive Data where
  | scalar (s : Scalar)
  | function (site : Nat) (params : List Text) (body : Block)
  | container (shape : Shape) (items : Items Data)

namespace Data

/-- The kind of a piece of data. -/
def form : Data → Form
  | .scalar s => s.form
  | .function .. => .function
  | .container shape _ => shape.form

/-- How any function is shown. -/
def functionText : Text := "<function>"

/-- How an entry without a value is shown. -/
def absentText : Text := "null"

mutual

/-- The text of data inside other text: strings stand between quotes. -/
def shown : Data → Text
  | .scalar s => s.shown
  | .function .. => functionText
  | .container .array ⟨entries⟩ => "[" ++ Text.join ", " (shownValues entries) ++ "]"
  | .container .object ⟨entries⟩ => "[" ++ Text.join " " (shownEntries entries) ++ "]"

/-- The texts of the values of entries. -/
def shownValues : List (Scalar × Option Data) → List Text
  | [] => []
  | (_, some d) :: rest => shown d :: shownValues rest
  | (_, none) :: rest => absentText :: shownValues rest

/-- The texts of entries with their keys. -/
def shownEntries : List (Scalar × Option Data) → List Text
  | [] => []
  | (k, some d) :: rest => (k.label ++ " = " ++ shown d) :: shownEntries rest
  | (k, none) :: rest => (k.label ++ " = " ++ absentText) :: shownEntries rest

end

/-- The text of data on its own: a string stands as it is. -/
def bare : Data → Text
  | .scalar s => s.bare
  | d => d.shown

/-- The text of a binding's value in a listing: scalars are shown, anything else
is named by its kind. -/
def summary : Data → Text
  | .scalar s => s.shown
  | d => d.form.label

end Data

end EplLang
