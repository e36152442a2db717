import EplLang.Path
import EplLang.Query.Parser
import EplLang.Text.Words
import EplLang.Yaml.Reader

/-!
# Settings

Settings come from a file: the one named on the command line, else the one named
by the environment, else `epl.yaml` if there is one. Only the last may be missing.
A file is a mapping of the settings it changes.

A file is read as far as it can be: a field of the wrong kind or with an unknown
name is reported and the others are taken. Settings that could be read are then
checked, and everything that is wrong with them is reported at once.
-/

set_option autoImplicit false

namespace EplLang

open Text (byte)

/-- The settings of a run. They are kept as they were given, so that a wrong one
can be shown. -/
structure Settings where
  display : Text := "none"
  format : Text := "text"
  query : Text := []
  logToStderr : Bool := false
  verbose : Int := 0
  maxImportDepth : Int := 64
  color : Text := "auto"

namespace Settings

/-! ## Checking -/

/-- The complaint about a setting that is none of the three words it may be. -/
def wordComplaint (name : Text) (value : Text) (first second third : String) : List Text :=
  if value = first ∨ value = second ∨ value = third then []
  else
    [name ++ " must be " ++ first.text ++ ", " ++ second.text ++ " or " ++ third.text ++ ", not " ++
      Text.quoted value]

/-- Everything that is wrong with settings. -/
def complaints (s : Settings) : List Text :=
  wordComplaint "display" s.display "none" "user" "full" ++
    wordComplaint "format" s.format "text" "json" "yaml" ++
    wordComplaint "color" s.color "auto" "always" "never" ++
    (if s.verbose < 0 then [("verbose must not be negative" : Text)] else []) ++
    (if s.maxImportDepth < 1 then [("max_import_depth must be at least 1" : Text)] else []) ++
    (if s.query.isEmpty then []
    else
      match Query.parse s.query with
      | .ok _ => []
      | .error complaint => [("query: " : Text) ++ complaint])

/-- Complaints as one message. -/
def summary (all : List Text) : Text :=
  let count : Text :=
    if all.length = 1 then "1 error occurred:" else Text.ofNat all.length ++ " errors occurred:"
  count ++ all.flatMap (fun complaint => (("\n\t* " : Text) ++ complaint)) ++ "\n\n"

/-- The message about wrong settings, if they are wrong. -/
def validate (s : Settings) : Option Text :=
  match s.complaints with
  | [] => none
  | all => some (summary all)

/-! ## Reading -/

/-- The name of what a scalar denotes. -/
def tagName : Yaml.Plain → Text
  | .null => "!!null"
  | .boolean _ => "!!bool"
  | .whole _ => "!!int"
  | .number _ => "!!float"
  | .date => "!!timestamp"
  | .string => "!!str"

/-- What a scalar denotes: between quotes it is a string. -/
def denoted (text : Text) (isQuoted : Bool) : Yaml.Plain :=
  if isQuoted then .string else Yaml.plain text

/-- The text of a scalar in a complaint, cut if it is long. -/
def shortened (text : Text) : Text :=
  if 10 < text.length then text.take 7 ++ "..." else text

/-- The complaint about a part that is not of a kind. -/
def mismatch (part : Yaml.Written) (kind : Text) : Text :=
  let found : Text :=
    match part with
    | .scalar _ text isQuoted =>
      tagName (denoted text isQuoted) ++ " \x60" ++ shortened text ++ "\x60"
    | .sequence _ => "!!seq"
    | .mapping .. => "!!map"
  "line " ++ Text.ofNat part.line ++ ": cannot unmarshal " ++ found ++ " into " ++ kind

/-- The value of a part that must be of a kind, none if it is null. -/
def valueOf {α : Type} (kind : Text) (convert : Text → Yaml.Plain → Option α)
    (part : Yaml.Written) : Except Text (Option α) :=
  match part with
  | .scalar _ text isQuoted =>
    match denoted text isQuoted with
    | .null => .ok none
    | meaning =>
      match convert text meaning with
      | some a => .ok (some a)
      | none => .error (mismatch part kind)
  | part => .error (mismatch part kind)

/-- The text of a part. -/
def textOf : Yaml.Written → Except Text (Option Text) := valueOf "string" fun text _ => some text

/-- The truth value of a part; some words are understood too. -/
def truthOf : Yaml.Written → Except Text (Option Bool) :=
  valueOf "bool" fun text meaning =>
    match meaning with
    | .boolean b => some b
    | .string =>
      if (["y", "Y", "yes", "on"] : List Text).contains text then some true
      else if (["n", "N", "no", "off"] : List Text).contains text then some false
      else none
    | _ => none

/-- The integer of a part. A number with a fraction is cut; one below the range
of integers gives the least of them. -/
def integerOf : Yaml.Written → Except Text (Option Int) :=
  valueOf "int" fun _ meaning =>
    match meaning with
    | .whole n => if n ≤ Word.greatest then some n else none
    | .number x =>
      if x ≤ Binary64.ofInt Word.half then some ((Binary64.toInt64? x).getD Word.least) else none
    | _ => none

/-- The settings with a value set, if there is one. -/
def update {α : Type} (s : Settings) (value : Except Text (Option α)) (set : α → Settings) :
    Except Text Settings :=
  value.map fun value => (value.map set).getD s

/-- The text of a key. -/
def keyText : Yaml.Written → Text
  | .scalar _ text _ => text
  | _ => []

/-- The settings with one entry of a file taken. -/
def take (s : Settings) (key value : Yaml.Written) : Except Text Settings :=
  let name := keyText key
  if name = "display" then s.update (textOf value) fun display => { s with display }
  else if name = "format" then s.update (textOf value) fun format => { s with format }
  else if name = "query" then s.update (textOf value) fun query => { s with query }
  else if name = "logtostderr" then
    s.update (truthOf value) fun logToStderr => { s with logToStderr }
  else if name = "verbose" then s.update (integerOf value) fun verbose => { s with verbose }
  else if name = "max_import_depth" then
    s.update (integerOf value) fun maxImportDepth => { s with maxImportDepth }
  else if name = "color" then s.update (textOf value) fun color => { s with color }
  else
    .error ("line " ++ Text.ofNat key.line ++ ": field " ++ name ++
      " not found in type main.Config")

/-- The complaints about keys that stand in a file twice. -/
def repeatedKeys : List (Yaml.Written × Yaml.Written) → List Text
  | [] => []
  | (key, _) :: rest =>
    (rest.filter fun (other, _) => keyText other == keyText key).map (fun (other, _) =>
      ("line " : Text) ++ Text.ofNat other.line ++ ": mapping key " ++
        Text.quoted (keyText other) ++ " already defined at line " ++ Text.ofNat key.line) ++
      repeatedKeys rest

/-- The settings with all entries of a file taken that can be, and the complaints
about the others. -/
def takeAll (s : Settings) : List (Yaml.Written × Yaml.Written) → Settings × List Text
  | [] => (s, [])
  | (key, value) :: rest =>
    match s.take key value with
    | .ok s => s.takeAll rest
    | .error complaint =>
      let (s, more) := s.takeAll rest
      (s, complaint :: more)

/-- The settings of a document, and the complaints about it. -/
def ofDocument (s : Settings) : Yaml.Written → Settings × List Text
  | .mapping _ entries =>
    match repeatedKeys entries with
    | [] => s.takeAll entries
    | complaints => (s, complaints)
  | .scalar line text isQuoted =>
    match denoted text isQuoted with
    | .null => (s, [])
    | _ => (s, [mismatch (.scalar line text isQuoted) "main.Config"])
  | part => (s, [mismatch part "main.Config"])

/-- The settings of a text, and what is wrong with the text. -/
def ofText (s : Settings) (t : Text) : Settings × Option Text :=
  match Yaml.read t with
  | .error refusal => (s, some refusal.message)
  | .ok none => (s, some "EOF")
  | .ok (some document) =>
    match s.ofDocument document with
    | (s, []) => (s, none)
    | (s, complaints) =>
      (s, some ("yaml: unmarshal errors:" ++ complaints.flatMap fun c => ("\n  " : Text) ++ c))

/-! ## Loading -/

/-- The file that is read when none is named. -/
def defaultFile : Text := "epl.yaml"

/-- The message about a file that is not there. -/
def missing (path : Text) : Text := "open " ++ Path.clean path ++ ": file does not exist"

/-- The settings of a file that must be there, and what is wrong with them. -/
def ofFile (files : Text → Option Text) (path : Text) : Settings × Option Text :=
  match files (Path.clean path) with
  | none => ({}, some ("reading config " ++ path ++ ": " ++ missing path))
  | some t =>
    if (Text.trim t).isEmpty then ({}, none)
    else
      match ({} : Settings).ofText t with
      | (s, some problem) => (s, some ("parsing config " ++ path ++ ": " ++ problem))
      | (s, none) => (s, s.validate)

/-- The settings of a run, given the file named on the command line and the one
named by the environment, and what is wrong with them. -/
def load (files : Text → Option Text) (explicit environment : Text) : Settings × Option Text :=
  if !explicit.isEmpty then ofFile files explicit
  else if !environment.isEmpty then ofFile files environment
  else if (files defaultFile).isSome then ofFile files defaultFile
  else ({}, none)

end Settings

end EplLang
