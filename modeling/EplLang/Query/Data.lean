import EplLang.Query.Problem

/-!
# Operations on data

The order of data, the operators, and access to the parts of data: indexing,
slicing, and reading, setting and deleting the place a path leads to. A path is a
list of keys, outermost first.

Data of different kinds is ordered by kind: null, false, true, numbers, strings,
lists, records. Lists are compared item by item, records by their names first.
Nan comes before every number.
-/

set_option autoImplicit false

namespace EplLang.Query

/-! ## Order and truth -/

/-- Everything but null and false counts as true. -/
def truthy : Json → Bool
  | .null | .boolean false => false
  | _ => true

/-- The place of a kind in the order. -/
def rank : Json → Nat
  | .null => 0
  | .boolean false => 1
  | .boolean true => 2
  | .whole _ | .number _ => 3
  | .string _ => 4
  | .array _ => 5
  | .object _ => 6

/-- The order of doubles, nan first. -/
def orderNumbers (x y : Float) : Ordering :=
  if x < y || x.isNaN then .lt else if x == y then .eq else .gt

mutual

/-- The order of data. -/
def order : Json → Json → Ordering
  | .whole m, .whole n => compare m n
  | .whole m, .number y => orderNumbers (Binary64.ofInt m) y
  | .number x, .whole n => orderNumbers x (Binary64.ofInt n)
  | .number x, .number y => orderNumbers x y
  | .string s, .string t => Text.order s t
  | .array xs, .array ys => orderItems xs ys
  | .object xs, .object ys =>
    (orderNames (xs.map Prod.fst) (ys.map Prod.fst)).then (orderFields xs ys)
  | a, b => compare (rank a) (rank b)

/-- The order of lists. -/
def orderItems : List Json → List Json → Ordering
  | [], [] => .eq
  | [], _ :: _ => .lt
  | _ :: _, [] => .gt
  | x :: xs, y :: ys => (order x y).then (orderItems xs ys)

/-- The order of the values of fields with the same names. -/
def orderFields : List (Text × Json) → List (Text × Json) → Ordering
  | (_, x) :: xs, (_, y) :: ys => (order x y).then (orderFields xs ys)
  | _, _ => .eq

/-- The order of lists of names. -/
def orderNames : List Text → List Text → Ordering
  | [], [] => .eq
  | [], _ :: _ => .lt
  | _ :: _, [] => .gt
  | s :: ss, t :: ts => (Text.order s t).then (orderNames ss ts)

end

/-- Whether two pieces of data are the same. -/
def same (a b : Json) : Bool := order a b == .eq

/-- Data in order; equal data keeps its order. -/
def sorted (items : List Json) : List Json := items.mergeSort fun a b => order a b != .gt

/-! ## Operators -/

/-- A number as a double. -/
def double? : Json → Option Float
  | .whole n => some (Binary64.ofInt n)
  | .number x => some x
  | _ => none

/-- A number cut to a whole one; beyond 64 bits, the bound. -/
def whole? : Json → Option Int
  | .whole n => some n
  | .number x =>
    some ((Binary64.toInt64? x).getD (if x < 0 then Word.least else if x.isNaN then 0 else Word.greatest))
  | _ => none

/-- Two records put together, records under one name in both put together too. -/
def mergeDeep : Nat → List (Text × Json) → List (Text × Json) → List (Text × Json)
  | 0, _, ys => ys
  | fuel + 1, xs, ys =>
    ys.foldl (fun all (name, y) =>
      match Json.find? name all, y with
      | some (.object a), .object b => Json.insert name (.object (mergeDeep fuel a b)) all
      | _, y => Json.insert name y all) xs

/-- The pieces of a text between the occurrences of another; with an empty one,
its characters. -/
def splitText (separator : Text) (t : Text) : List Text :=
  if t.isEmpty then []
  else if separator.isEmpty then (Utf8.pieces t).map Utf8.Piece.bytes
  else go t.length [] t
where
  /-- The pieces of a rest, `piece` being the piece begun, last byte first. -/
  go : Nat → Text → Text → List Text
    | 0, piece, rest => [piece.reverse ++ rest]
    | _, piece, [] => [piece.reverse]
    | fuel + 1, piece, b :: rest =>
      if separator.isPrefixOf (b :: rest) then
        piece.reverse :: go fuel [] ((b :: rest).drop separator.length)
      else go fuel (b :: piece) rest

/-- The depth to which records are put together. -/
def mergeDepth : Nat := 10000

/-- A number operator on whole numbers if both are whole, else on doubles. -/
def numeric (op : Operator) (wholes : Int → Int → Json) (doubles : Float → Float → Json)
    (a b : Json) : Except Problem Json :=
  match a, b with
  | .whole m, .whole n => .ok (wholes m n)
  | a, b =>
    match double? a, double? b with
    | some x, some y => .ok (doubles x y)
    | _, _ => .error (.operands op a b)

/-- The sum of data. Null adds nothing. -/
def sum : Json → Json → Except Problem Json
  | .null, b => .ok b
  | a, .null => .ok a
  | .string s, .string t => .ok (.string (s ++ t))
  | .array xs, .array ys => .ok (.array (xs ++ ys))
  | .object xs, .object ys =>
    .ok (.object (ys.foldl (fun all (name, y) => Json.insert name y all) xs))
  | a, b => numeric .add (fun m n => .whole (m + n)) (fun x y => .number (x + y)) a b

/-- The difference of data. A list loses every item of the other. -/
def difference : Json → Json → Except Problem Json
  | .array xs, .array ys => .ok (.array (xs.filter fun x => !ys.any (same x)))
  | a, b => numeric .subtract (fun m n => .whole (m - n)) (fun x y => .number (x - y)) a b

/-- A text repeated; nothing is left of it when it is repeated less than once. -/
def repeated (t : Text) (count : Float) : Json :=
  if count ≤ 0 || count.isNaN then .null
  else .string (List.replicate (max 1 ((Binary64.toInt64? count).getD 0).toNat) t).flatten

/-- The product of data. A text is repeated; records are put together deeply. -/
def product (a b : Json) : Except Problem Json :=
  match a, b with
  | .object xs, .object ys => .ok (.object (mergeDeep mergeDepth xs ys))
  | .string t, b =>
    match double? b with
    | some x => .ok (repeated t x)
    | none => .error (.operands .multiply a b)
  | a, .string t =>
    match double? a with
    | some x => .ok (repeated t x)
    | none => .error (.operands .multiply a b)
  | a, b => numeric .multiply (fun m n => .whole (m * n)) (fun x y => .number (x * y)) a b

/-- The quotient of data. A text is split. -/
def quotient (a b : Json) : Except Problem Json :=
  match a, b with
  | .string s, .string t => .ok (.array ((splitText t s).map .string))
  | .whole m, .whole n =>
    if n = 0 then if m = 0 then .ok (.number Binary64.nan) else .error (.zeroDivisor .divide a b)
    else if m.tmod n = 0 then .ok (.whole (m.tdiv n))
    else .ok (.number (Binary64.ofInt m / Binary64.ofInt n))
  | a, b =>
    match double? a, double? b with
    | some x, some y =>
      if y == 0 then
        if x == 0 then .ok (.number Binary64.nan) else .error (.zeroDivisor .divide a b)
      else .ok (.number (x / y))
    | _, _ => .error (.operands .divide a b)

/-- The remainder of numbers cut to whole ones, with the sign of the first. -/
def remainder (a b : Json) : Except Problem Json :=
  match whole? a, whole? b with
  | some m, some n =>
    if n = 0 then .error (.zeroDivisor .modulo a b) else .ok (.whole (m.tmod n))
  | _, _ => .error (.operands .modulo a b)

/-- An operator applied to data. -/
def Operator.apply (op : Operator) (a b : Json) : Except Problem Json :=
  match op with
  | .add => sum a b
  | .subtract => difference a b
  | .multiply => product a b
  | .divide => quotient a b
  | .modulo => remainder a b
  | .equal => .ok (.boolean (order a b == .eq))
  | .unequal => .ok (.boolean (order a b != .eq))
  | .less => .ok (.boolean (order a b == .lt))
  | .atMost => .ok (.boolean (order a b != .gt))
  | .greater => .ok (.boolean (order a b == .gt))
  | .atLeast => .ok (.boolean (order a b != .lt))

/-- A number with its sign changed. -/
def negated : Json → Except Problem Json
  | .whole n => .ok (.whole (-n))
  | .number x => .ok (.number (-x))
  | j => .error (.sign "negate" j)

/-! ## Parts -/

/-- The item of a list at a position, counted from the end if it is negative. -/
def itemAt {α : Type} (items : List α) (i : Int) : Option α :=
  let i := if i < 0 then i + items.length else i
  if i < 0 then none else items[i.toNat]?

/-- A position within bounds, counted from the end if it is negative. -/
def within (i : Int) (least size : Nat) : Nat :=
  let i := if i < 0 then i + size else i
  min (max i.toNat least) size

/-- A bound of a slice, if there is one. -/
def bound (wrong : Json → Problem) : Json → Except Problem (Option Int)
  | .null => .ok none
  | j =>
    match whole? j with
    | some i => .ok (some i)
    | none => .error (wrong j)

/-- The positions between which a slice of a sequence lies. -/
def sliceBounds (wrong : Json → Problem) (size : Nat) (first last : Json) :
    Except Problem (Nat × Nat) := do
  let start := ((← bound wrong first).map fun i => within i 0 size).getD 0
  let stop := ((← bound wrong last).map fun i => within i start size).getD size
  return (start, stop)

/-- The slice of a list or of the characters of a text. -/
def slice (j first last : Json) : Except Problem Json :=
  match j with
  | .null => .ok .null
  | .array items => do
    let (start, stop) ← sliceBounds .arrayIndex items.length first last
    return .array ((items.take stop).drop start)
  | .string t => do
    let pieces := Utf8.pieces t
    let (start, stop) ← sliceBounds .stringIndex pieces.length first last
    return .string (((pieces.take stop).drop start).flatMap Utf8.Piece.bytes)
  | j => .error (.expectedArray j)

/-- The positions at which a list starts inside another. -/
def positions (part whole : List Json) : List Nat :=
  if part.isEmpty then []
  else
    (List.range whole.length).filter fun i =>
      let here := (whole.drop i).take part.length
      here.length == part.length && (here.zip part).all fun (a, b) => same a b

/-- The part of data under a key. -/
def index (j key : Json) : Except Problem Json :=
  match key, j with
  | .string _, .null => .ok .null
  | .string name, .object fields => .ok ((Json.find? name fields).getD .null)
  | .string _, j => .error (.expectedObject j)
  | .object _, .null => .ok .null
  | .object bounds, j =>
    match Json.find? "start" bounds, Json.find? "end" bounds with
    | some first, some last => slice j first last
    | _, _ => .error (.sliceBounds (.object bounds))
  | .array _, .null => .ok .null
  | .array part, .array items =>
    .ok (.array ((positions part items).map fun i => .whole (Int.ofNat i)))
  | .array _, j => .error (.expectedArray j)
  | key, j =>
    match whole? key, j with
    | some _, .null => .ok .null
    | some i, .array items => .ok ((itemAt items i).getD .null)
    | some i, .string t =>
      .ok (((itemAt (Utf8.pieces t) i).map fun p => Json.string p.bytes).getD .null)
    | some _, j => .error (.expectedArray j)
    | none, .array _ => .error (.arrayIndex key)
    | none, .string _ => .error (.stringIndex key)
    | none, _ => .error (.objectKey key)

/-- The keys and values of the parts of a list or record. -/
def children : Json → Except Problem (List (Json × Json))
  | .array items => .ok (items.zipIdx.map fun (item, i) => (.whole i, item))
  | .object fields => .ok (fields.map fun (name, value) => (.string name, value))
  | j => .error (.notIterable j)

/-! ## Places -/

/-- A path to a place in data. -/
abbrev Place := List Json

/-- The data at a place. -/
def getAt (j : Json) (place : Place) : Except Problem Json := place.foldlM index j

/-- A list with an item set, made longer if it is too short. -/
def setItem (items : List Json) (i : Nat) (value : Json) : List Json :=
  if i < items.length then items.set i value
  else items ++ List.replicate (i - items.length) .null ++ [value]

/-- The data with what is at a place changed. -/
def changeAt (change : Json → Except Problem Json) : Place → Json → Except Problem Json
  | [], j => change j
  | .string name :: rest, .null => do
    return .object [(name, ← changeAt change rest .null)]
  | .string name :: rest, .object fields => do
    let value ← changeAt change rest ((Json.find? name fields).getD .null)
    return .object (Json.insert name value fields)
  | .string _ :: _, j => .error (.expectedObject j)
  | .object bounds :: rest, j =>
    match Json.find? "start" bounds, Json.find? "end" bounds, j with
    | some first, some last, .array items => do
      let (start, stop) ← sliceBounds .arrayIndex items.length first last
      match ← changeAt change rest (.array ((items.take stop).drop start)) with
      | .array new => return .array (items.take start ++ new ++ items.drop stop)
      | other => throw (.expectedArray other)
    | some _, some _, .null => changeAt change rest .null
    | some _, some _, j => .error (.expectedArray j)
    | _, _, _ => .error (.sliceBounds (.object bounds))
  | key :: rest, j =>
    match whole? key, j with
    | none, .array _ => .error (.arrayIndex key)
    | none, _ => .error (.objectKey key)
    | some i, j => do
      let items ←
        match j with
        | .null => pure []
        | .array items => pure items
        | j => throw (.expectedArray j)
      let place := if i < 0 then i + items.length else i
      if place < 0 then throw (.negativeIndex i)
      let value ← changeAt change rest ((itemAt items i).getD .null)
      return .array (setItem items place.toNat value)

/-- The data without what is at a place. -/
def deleteAt : Place → Json → Except Problem Json
  | [], _ => .ok .null
  | _, .null => .ok .null
  | [.string name], .object fields => .ok (.object (fields.filter fun (n, _) => n != name))
  | [.object bounds], .array items =>
    match Json.find? "start" bounds, Json.find? "end" bounds with
    | some first, some last => do
      let (start, stop) ← sliceBounds .arrayIndex items.length first last
      return .array (items.take start ++ items.drop stop)
    | _, _ => .error (.sliceBounds (.object bounds))
  | [key], j =>
    match key, whole? key, j with
    | .string _, _, j => .error (.expectedObject j)
    | _, some i, .array items =>
      let place := if i < 0 then i + items.length else i
      .ok (.array (if place < 0 then items else items.eraseIdx place.toNat))
    | _, some _, j => .error (.expectedArray j)
    | _, none, _ => .error (.objectKey key)
  | key :: next :: rest, j => do
    match ← index j key with
    | .null => return j
    | part =>
      let smaller ← deleteAt (next :: rest) part
      changeAt (fun _ => .ok smaller) [key] j

/-- The data without what is at any of the places: the last place first, so that
no deletion moves a place still to come. -/
def deleteAll (places : List Place) (j : Json) : Except Problem Json :=
  (sorted (places.map .array)).reverse.foldlM (fun j place =>
    match place with
    | .array keys => deleteAt keys j
    | _ => .ok j) j

end EplLang.Query
