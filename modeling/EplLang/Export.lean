import EplLang.Machine
import EplLang.Query.Prelude
import EplLang.Yaml.Writer

/-!
# Exported bindings

What a program has bound can be shown as a listing with one line per name, or
exported as JSON or YAML, or a query is asked about them and its results are
written as JSON, one on a line. JSON has no functions and no infinite numbers: the
former are exported as the text that stands for any function, the latter as
their texts. YAML keeps the order of bindings and entries; in JSON the fields of
a record are ordered by name, and keys of different kinds with the same text are
one field.

An entry whose key cannot be looked up has no value to export. Data that holds
such an entry has no exported form.
-/

set_option autoImplicit false

namespace EplLang

/-- Bindings with their data in order. -/
abbrev Listing := List (Text × Data)

namespace Data

/-- A number as JSON: one that is not finite is its text. -/
def jsonNumber (x : Float) : Json :=
  match Binary64.decode x with
  | .finite .. => .number x
  | _ => .string (numberText x)

mutual

/-- Data as JSON, if all of its entries have values. -/
def json? : Data → Option Json
  | .scalar (.number x) => some (jsonNumber x)
  | .scalar (.string t) => some (.string t)
  | .scalar (.boolean b) => some (.boolean b)
  | .scalar .null => some .null
  | .function .. => some (.string functionText)
  | .container .array ⟨entries⟩ => (jsonFields? entries).map fun fields => .array (fields.map Prod.snd)
  | .container .object ⟨entries⟩ => (jsonFields? entries).map Json.ofFields

/-- Entries as fields named by the texts of their keys. -/
def jsonFields? : List (Scalar × Option Data) → Option (List (Text × Json))
  | [] => some []
  | (_, none) :: _ => none
  | (k, some d) :: rest => do
    let value ← json? d
    return (k.bare, value) :: (← jsonFields? rest)

end

/-- The YAML token of a number. -/
def numberToken (x : Float) : Text :=
  match Binary64.decode x with
  | .nan => ".nan"
  | .infinite negative => if negative then "-.inf" else ".inf"
  | .finite .. => numberText x

mutual

/-- Data as YAML, if all of its entries have values. -/
def yaml? : Data → Option Yaml
  | .scalar (.number x) => some (.token (numberToken x))
  | .scalar (.string t) => some (.string t)
  | .scalar s => some (.token s.bare)
  | .function .. => some (.string functionText)
  | .container .array ⟨entries⟩ =>
    (yamlEntries? entries).map fun entries => .sequence (entries.map Prod.snd)
  | .container .object ⟨entries⟩ => (yamlEntries? entries).map .mapping

/-- Entries under the texts of their keys. -/
def yamlEntries? : List (Scalar × Option Data) → Option (List (Text × Yaml))
  | [] => some []
  | (_, none) :: _ => none
  | (k, some d) :: rest => do
    let value ← yaml? d
    return (k.bare, value) :: (← yamlEntries? rest)

end

end Data

/-- The bindings of a state to export. The names of built-in functions are left
out, whatever they are bound to, unless everything is asked for. -/
def Machine.listing (m : Machine) (everything : Bool) : Listing :=
  (m.bindings.pairs.filter fun (n, _) => everything || !Bindings.builtinNames.contains n).map fun (n, v) =>
    (n, m.store.view v)

namespace Listing

/-- The heading of a listing. -/
def heading : Text := "\n\n\n-------- ENV --------\n"

/-- The bindings under a heading, one line each. -/
def text (all : Listing) : Text :=
  heading ++ all.flatMap fun (name, d) => (name ++ " = " ++ d.summary ++ "\n" : Text)

/-- The bindings as one record, if they can be exported. -/
def json? (all : Listing) : Option Json := do
  let fields ← all.mapM fun (name, d) => do return (name, ← d.json?)
  return Json.ofFields fields

/-- The bindings as the entries of a YAML document, if they can be exported. -/
def yaml? (all : Listing) : Option (List (Text × Yaml)) :=
  all.mapM fun (name, d) => do return (name, ← d.yaml?)

end Listing

/-- The forms in which bindings leave a program. -/
inductive ExportForm where
  | listing
  | json
  | yaml
  | query (text : Text)

/-- Why an export ends early. -/
inductive ExportFailure where
  /-- An entry cannot be looked up and has no value. -/
  | lostEntry
  /-- A string is no valid UTF-8. -/
  | invalidText
  | badQuery (query complaint : Text)
  | queryFailed (p : Query.Problem)
  /-- A result holds a number without a numeral. -/
  | noNumeral (name : Text)

/-- The message of a failure. -/
def ExportFailure.message : ExportFailure → Text
  | .lostEntry => "entry without a value"
  | .invalidText => "encoding environment: yaml: cannot marshal invalid UTF-8 data as !!str"
  | .badQuery query complaint => "invalid query " ++ Text.quoted query ++ ": " ++ complaint
  | .queryFailed p => "query failed: " ++ p.message
  | .noNumeral name => "encoding query result: json: unsupported value: " ++ name

/-- The fuel of a query: more than any query of ordinary length uses up. -/
def queryFuel : Nat := 1000000000000000000

/-- Results on lines of their own, up to what ends them. -/
def resultLines : Query.Results Json → Text × Option ExportFailure
  | .done => ([], none)
  | .failed p => ([], some (.queryFailed p))
  | .next j rest =>
    match j.compact with
    | .error name => ([], some (.noNumeral name))
    | .ok t =>
      let (more, failure) := resultLines (rest ())
      (t ++ "\n" ++ more, failure)

/-- The bindings in one of these forms: what is written, and what ended it early. -/
def Listing.write (all : Listing) : ExportForm → Text × Option ExportFailure
  | .listing => (all.text, none)
  | .json =>
    match all.json? with
    | none => ([], some .lostEntry)
    | some j =>
      match j.indented with
      | .ok t => (t ++ "\n", none)
      | .error name => ([], some (.noNumeral name))
  | .yaml =>
    match all.yaml? with
    | none => ([], some .lostEntry)
    | some entries =>
      match Yaml.document? entries with
      | some t => (t, none)
      | none => ([], some .invalidText)
  | .query text =>
    match Query.parse text with
    | .error complaint => ([], some (.badQuery text complaint))
    | .ok f =>
      match all.json? with
      | none => ([], some .lostEntry)
      | some j => resultLines (f.results queryFuel j)

end EplLang
