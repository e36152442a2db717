import EplLang.Number.Reading
import EplLang.Query.Data
import EplLang.Text.Words

/-!
# Functions on data

The functions that take data and arguments to data, known by their names and the
number of their arguments. Data that a function is not made for is a problem that
names the function.
-/

set_option autoImplicit false

namespace EplLang.Query

/-- A function: its name, the number of its arguments, and its result. -/
structure Function where
  name : String
  arity : Nat
  apply : List Json → Json → Except Problem Json

namespace Function

/-- The problem of a function without arguments. -/
def unfit (name : String) (j : Json) : Except Problem Json := .error (.inapplicable name [] j)

/-- The problem of a function with one argument. -/
def unfitWith (name : String) (arg j : Json) : Except Problem Json :=
  .error (.inapplicable name [arg] j)

/-- A function without arguments. -/
def plain (name : String) (f : Json → Except Problem Json) : Function where
  name
  arity := 0
  apply _ := f

/-- A function of texts. -/
def onText (name : String) (f : Text → Json) : Function :=
  plain name fun
    | .string t => .ok (f t)
    | j => unfit name j

/-- A function of numbers that leaves whole numbers as they are. -/
def onNumber (name : String) (f : Float → Float) : Function :=
  plain name fun
    | .whole n => .ok (.whole n)
    | .number x => .ok (.number (f x))
    | j => unfit name j

/-- A function of lists. -/
def onArray (name : String) (f : List Json → Except Problem Json) : Function :=
  plain name fun
    | .array items => f items
    | j => unfit name j

/-- A function with one argument. -/
def withOne (name : String) (f : Json → Json → Except Problem Json) : Function where
  name
  arity := 1
  apply
    | [arg], j => f arg j
    | _, j => unfit name j

/-- A function that asks something of two texts. -/
def onTexts (name : String) (f : Text → Text → Json) : Function :=
  withOne name fun arg j =>
    match arg, j with
    | .string s, .string t => .ok (f s t)
    | arg, j => unfitWith name arg j

/-! ## Single functions -/

/-- The length of data: of a text its characters, of a number its size. -/
def length : Json → Except Problem Json
  | .null => .ok (.whole 0)
  | .whole n => .ok (.whole n.natAbs)
  | .number x => .ok (.number x.abs)
  | .string t => .ok (.whole (Utf8.count t))
  | .array items => .ok (.whole items.length)
  | .object fields => .ok (.whole fields.length)
  | j => unfit "length" j

/-- The keys of a list or record. -/
def keys (name : String) : Json → Except Problem Json
  | .array items => .ok (.array ((List.range items.length).map fun i => .whole (Int.ofNat i)))
  | .object fields => .ok (.array (fields.map fun (n, _) => .string n))
  | j => unfit name j

/-- The sum of the parts of data. -/
def total : Json → Except Problem Json
  | .array items => items.foldlM sum .null
  | .object fields => (fields.map Prod.snd).foldlM sum .null
  | j => unfit "add" j

/-- Data as text: a string is its own. -/
def asText : Json → Text
  | .string t => t
  | j => j.shown

/-- The number that data stands for. -/
def asNumber : Json → Except Problem Json
  | .whole n => .ok (.whole n)
  | .number x => .ok (.number x)
  | .string t =>
    match t with
    | [] => unfit "tonumber" (.string t)
    | t =>
      if t.all Text.isDigit then .ok (.whole (Text.digitsValue t))
      else
        match readNumber? t with
        | some x => .ok (.number x)
        | none => unfit "tonumber" (.string t)
  | j => unfit "tonumber" j

/-- A list with lists inside it written out, to a depth. -/
def flat : Nat → List Json → List Json
  | _, [] => []
  | 0, items => items
  | depth + 1, items => items.flatMap fun
    | .array inner => flat depth inner
    | j => [j]

/-- The entries of a record as records. -/
def toEntries : Json → Except Problem Json
  | .object fields =>
    .ok (.array (fields.map fun (n, v) => .object [("key", .string n), ("value", v)]))
  | j => unfit "to_entries" j

/-- The first of some fields that is there and not null or false. -/
def firstField (names : List Text) (fields : List (Text × Json)) : Json :=
  ((names.filterMap fun n => Json.find? n fields).find? truthy).getD .null

/-- A record from records of keys and values. -/
def fromEntries : Json → Except Problem Json
  | .array items => do
    let fields ← items.mapM fun
      | .object fields => do
        let value := firstField ["value", "v", "Value", "V"] fields
        match firstField ["key", "k", "name", "Name", "Key", "K"] fields with
        | .string n => return (n, value)
        | .null => return (("null" : Text), value)
        | .boolean b => return ((if b then "true" else "false" : Text), value)
        | .whole n => return ((Json.whole n).shown, value)
        | .number x => return ((Json.number x).shown, value)
        | key => throw (.objectKey key)
      | j => throw (.expectedObject j)
    return Json.ofFields fields
  | j => unfit "from_entries" j

/-- Whether a list or record has a key. -/
def has (key j : Json) : Except Problem Json :=
  match j, key with
  | .object fields, .string n => .ok (.boolean (Json.find? n fields).isSome)
  | .array items, key =>
    match whole? key with
    | some i => .ok (.boolean (0 ≤ i && i < items.length))
    | none => unfitWith "has" key j
  | j, key => unfitWith "has" key j

/-- Whether data contains other data: texts as parts, lists and records item by
item. -/
def contains : Nat → Json → Json → Except Problem Bool
  | 0, _, _ => .error .outOfFuel
  | fuel + 1, part, j =>
    match j, part with
    | .string t, .string s => .ok (Text.occursIn s t)
    | .array items, .array parts =>
      parts.allM fun p => items.anyM fun item =>
        match contains fuel p item with
        | .ok b => .ok b
        | .error _ => .ok false
    | .object fields, .object parts =>
      parts.allM fun (n, p) =>
        match Json.find? n fields with
        | some value => contains fuel p value
        | none => .ok false
    | j, part =>
      if rank j = rank part || (rank j ∈ [1, 2] && rank part ∈ [1, 2]) then .ok (same j part)
      else .error (.inapplicable "contains" [part] j)

/-- The texts of items put between separators. -/
def join (separator : Json) (j : Json) : Except Problem Json :=
  match separator, j with
  | _, .array [] => .ok (.string [])
  | .string s, .array items => do
    let texts ← items.mapM fun
      | .string t => .ok t
      | .null => .ok []
      | .array items => .error (.inapplicable "join" [separator] (.array items))
      | .object fields => .error (.inapplicable "join" [separator] (.object fields))
      | j => .ok j.shown
    return .string (Text.join s texts)
  | separator, j => unfitWith "join" separator j

/-- The places of a text or list inside another. -/
def indices (part j : Json) : Except Problem (List Int) :=
  match part, j with
  | _, .null => .ok []
  | .string s, .string t =>
    let whole := (Utf8.pieces t).map fun p => Json.string p.bytes
    let inner := (Utf8.pieces s).map fun p => Json.string p.bytes
    .ok ((positions inner whole).map Int.ofNat)
  | .array inner, .array whole => .ok ((positions inner whole).map Int.ofNat)
  | part, .array whole => .ok ((positions [part] whole).map Int.ofNat)
  | part, j => .error (.inapplicable "indices" [part] j)

/-- Items with their keys, both in lists of one length. -/
def keyed (name : String) (keys j : Json) : Except Problem (List (Json × Json)) :=
  match keys, j with
  | .array keys, .array items => .ok (keys.zip items)
  | _, j => .error (.inapplicable name [] j)

/-- Pairs in the order of their keys. -/
def sortedPairs (pairs : List (Json × Json)) : List (Json × Json) :=
  pairs.mergeSort fun a b => order a.1 b.1 != .gt

/-- Pairs in runs of the same key. -/
def runs : List (Json × Json) → List (List (Json × Json))
  | [] => []
  | pair :: rest =>
    match runs rest with
    | (next :: run) :: more =>
      if same pair.1 next.1 then (pair :: next :: run) :: more else [pair] :: (next :: run) :: more
    | more => [pair] :: more

/-- The pair whose key comes first of all, or last of all; of equals the first,
or the last. -/
def extreme (greatest : Bool) : List (Json × Json) → Option (Json × Json)
  | [] => none
  | pair :: rest => some (rest.foldl (fun best pair =>
      let replace := if greatest then order best.1 pair.1 != .gt else order pair.1 best.1 == .lt
      if replace then pair else best) pair)

/-- The item of the extreme pair. -/
def extremeItem (greatest : Bool) (pairs : List (Json × Json)) : Json :=
  ((extreme greatest pairs).map Prod.snd).getD .null

/-- Items as their own keys. -/
def ownKeys (items : List Json) : List (Json × Json) := items.map fun j => (j, j)

/-- The rows of a table turned into columns. -/
def transpose (rows : List Json) : Except Problem Json := do
  let rows ← rows.mapM fun
    | .array items => .ok items
    | j => .error (.expectedArray j)
  let width := rows.foldl (fun n row => max n row.length) 0
  return .array ((List.range width).map fun i => .array (rows.map fun row => row[i]?.getD .null))

/-- A path given as data. -/
def place (name : String) (path j : Json) : Except Problem Place :=
  match path with
  | .array keys => .ok keys
  | path => .error (.inapplicable name [path] j)

/-! ## All functions -/

/-- The functions. -/
def all : List Function :=
  [plain "length" length,
   onText "utf8bytelength" fun t => .whole t.length,
   plain "not" fun j => .ok (.boolean !(truthy j)),
   plain "keys" (keys "keys"),
   plain "type" fun j => .ok (.string (kindName j)),
   plain "add" total,
   plain "tostring" fun j => .ok (.string (asText j)),
   plain "tojson" fun j => .ok (.string j.shown),
   plain "tonumber" asNumber,
   plain "to_entries" toEntries,
   plain "from_entries" fromEntries,
   plain "reverse" fun
    | .null => .ok (.array [])
    | .string t => .ok (.string ((Utf8.pieces t).reverse.flatMap Utf8.Piece.bytes))
    | .array items => .ok (.array items.reverse)
    | j => unfit "reverse" j,
   onArray "sort" fun items => .ok (.array (sorted items)),
   onArray "unique" fun items =>
    .ok (.array ((runs (sortedPairs (ownKeys items))).filterMap fun run => run.head?.map Prod.snd)),
   onArray "min" fun items => .ok (extremeItem false (ownKeys items)),
   onArray "max" fun items => .ok (extremeItem true (ownKeys items)),
   onArray "flatten" fun items => .ok (.array (flat 10000 items)),
   onArray "transpose" transpose,
   onNumber "floor" Float.floor,
   onNumber "ceil" Float.ceil,
   onNumber "round" Float.round,
   plain "abs" fun
    | .whole n => .ok (.whole n.natAbs)
    | .number x => .ok (.number x.abs)
    | j => unfit "abs" j,
   plain "sqrt" fun j =>
    match double? j with
    | some x => .ok (.number x.sqrt)
    | none => unfit "sqrt" j,
   plain "nan" fun _ => .ok (.number Binary64.nan),
   plain "infinite" fun _ => .ok (.number (Binary64.infinity false)),
   plain "isnan" fun j =>
    match double? j with
    | some x => .ok (.boolean x.isNaN)
    | none => unfit "isnan" j,
   plain "isinfinite" fun j =>
    match double? j with
    | some x => .ok (.boolean x.isInf)
    | none => unfit "isinfinite" j,
   onText "ascii_downcase" fun t => .string (Text.lowerAscii t),
   onText "ascii_upcase" fun t => .string (Text.upperAscii t),
   onText "explode" fun t => .array ((Utf8.chars t).map fun c => .whole c.toNat),
   onArray "implode" fun items => do
    let codes ← items.mapM fun j =>
      match whole? j with
      | some n => .ok n.toNat
      | none => .error (.inapplicable "implode" [] (.array items))
    return .string (codes.flatMap fun n => Utf8.encodeChar (Char.ofNat n)),
   onText "trim" fun t => .string (Text.trim t),
   plain "error" fun j => .error (.raised j),
   withOne "error" fun j _ => .error (.raised j),
   withOne "has" has,
   withOne "contains" fun part j => do return .boolean (← contains 10000 part j),
   onTexts "startswith" fun s t => .boolean (s.isPrefixOf t),
   onTexts "endswith" fun s t => .boolean (s.isSuffixOf t),
   withOne "ltrimstr" fun arg j =>
    match arg, j with
    | .string s, .string t => .ok (.string (if s.isPrefixOf t then t.drop s.length else t))
    | _, j => .ok j,
   withOne "rtrimstr" fun arg j =>
    match arg, j with
    | .string s, .string t =>
      .ok (.string (if s.isSuffixOf t then t.take (t.length - s.length) else t))
    | _, j => .ok j,
   onTexts "split" fun s t => .array ((splitText s t).map .string),
   withOne "join" join,
   withOne "flatten" fun depth j =>
    match whole? depth, j with
    | some n, .array items => .ok (.array (flat n.toNat items))
    | _, j => unfitWith "flatten" depth j,
   withOne "indices" fun part j => do return .array ((← indices part j).map .whole),
   withOne "index" fun part j => do return (((← indices part j).head?).map Json.whole).getD .null,
   withOne "rindex" fun part j => do
    return (((← indices part j).getLast?).map Json.whole).getD .null,
   withOne "delpaths" fun paths j =>
    match paths with
    | .array paths => do
      let places ← paths.mapM fun p => place "delpaths" p j
      deleteAll places j
    | paths => unfitWith "delpaths" paths j,
   { name := "setpath", arity := 2
     apply
      | [path, value], j => do changeAt (fun _ => .ok value) (← place "setpath" path j) j
      | _, j => unfit "setpath" j },
   withOne "_sort_by" fun keys j => do
    return .array ((sortedPairs (← keyed "sort_by" keys j)).map Prod.snd),
   withOne "_group_by" fun keys j => do
    return .array ((runs (sortedPairs (← keyed "group_by" keys j))).map fun run =>
      .array (run.map Prod.snd)),
   withOne "_unique_by" fun keys j => do
    return .array ((runs (sortedPairs (← keyed "unique_by" keys j))).filterMap fun run =>
      run.head?.map Prod.snd),
   withOne "_min_by" fun keys j => do return extremeItem false (← keyed "min_by" keys j),
   withOne "_max_by" fun keys j => do return extremeItem true (← keyed "max_by" keys j)]

/-- The function of a name and a number of arguments. -/
def find? (name : Text) (arity : Nat) : Option Function :=
  all.find? fun f => f.name.text == name && f.arity == arity

end Function

end EplLang.Query
