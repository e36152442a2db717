import EplLang.Number.Layout
import EplLang.Text.Utf8

/-!
# JSON data

Plain data as it leaves a program: null, truth values, numbers, strings, lists
and records. The fields of a record are kept in the order of their names and
have distinct names, so a record is a finite map and two records with the same
fields are equal.

Numbers come in two kinds. A double is what a program exports; a whole number of
any size is what counting and integer literals give. Both are written as
numerals.
-/

set_option autoImplicit false

namespace EplLang

/-- Plain data. -/
inductive Json where
  | null
  | boolean (b : Bool)
  | whole (n : Int)
  | number (x : Float)
  | string (t : Text)
  | array (items : List Json)
  | object (fields : List (Text × Json))

namespace Json

/-- Fields in the order of their names, with one more set: in its place if the
name is there, else where the order puts it. -/
def insert {α : Type} (name : Text) (value : α) : List (Text × α) → List (Text × α)
  | [] => [(name, value)]
  | (other, old) :: rest =>
    match Text.order name other with
    | .lt => (name, value) :: (other, old) :: rest
    | .eq => (name, value) :: rest
    | .gt => (other, old) :: insert name value rest

/-- The field of a name. -/
def find? {α : Type} (name : Text) : List (Text × α) → Option α
  | [] => none
  | (other, value) :: rest => if other = name then some value else find? name rest

/-- A record from fields in any order. Of two fields with one name the later
one stays. -/
def ofFields (fields : List (Text × Json)) : Json :=
  .object (fields.foldl (fun all (name, value) => insert name value all) [])

end Json

end EplLang
