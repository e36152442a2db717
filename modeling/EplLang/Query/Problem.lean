import EplLang.Json.Writer
import EplLang.Query.Filter

/-!
# What can go wrong in a query

A query that can be read may still name something that is not defined, and may
meet data that a filter cannot be applied to. Messages show the data by its kind
and the start of its text. A query may also raise a problem of its own, with any
data.
-/

set_option autoImplicit false

namespace EplLang.Query

/-- The name of the kind of data. -/
def kindName : Json → Text
  | .null => "null"
  | .boolean _ => "boolean"
  | .whole _ | .number _ => "number"
  | .string _ => "string"
  | .array _ => "array"
  | .object _ => "object"

/-- The length in bytes up to which the text of data is shown whole. -/
def previewLength : Nat := 30

/-- What ends a text that is not shown whole. -/
def cutMark : Json → Text
  | .string _ => " ...\""
  | .array _ => " ...]"
  | .object _ => " ...\x7d"
  | _ => " ..."

/-- As many whole pieces from the front as fit a length. -/
def fitting (room : Nat) : List Utf8.Piece → Text
  | [] => []
  | p :: rest => if p.bytes.length ≤ room then p.bytes ++ fitting (room - p.bytes.length) rest else []

/-- The start of the text of data. -/
def preview (j : Json) : Text :=
  let t := j.shown
  if t.length ≤ previewLength then t
  else fitting (previewLength - (cutMark j).length) (Utf8.pieces t) ++ cutMark j

/-- Data in a message: its kind and the start of its text. -/
def described : Json → Text
  | .null => "null"
  | j => kindName j ++ " (" ++ preview j ++ ")"

/-- The verb of an operator in messages. -/
def Operator.verb : Operator → Text
  | .add => "add"
  | .subtract => "subtract"
  | .multiply => "multiply"
  | .divide => "divide"
  | .modulo => "modulo"
  | _ => "compare"

/-- Why a query has no further results. -/
inductive Problem where
  | undefinedFunction (name : Text) (arity : Nat)
  | undefinedReference (name : Text)
  | undefinedLabel (name : Text)
  | unknownFormat (name : Text)
  | expectedObject (got : Json)
  | expectedArray (got : Json)
  | notIterable (got : Json)
  | arrayIndex (key : Json)
  | stringIndex (key : Json)
  | objectKey (key : Json)
  | sliceBounds (key : Json)
  | inapplicable (function : Text) (args : List Json) (input : Json)
  | operands (op : Operator) (left right : Json)
  | zeroDivisor (op : Operator) (left right : Json)
  | sign (verb : Text) (of : Json)
  | negativeIndex (i : Int)
  | notPlace (here : Json)
  | raised (j : Json)
  /-- A label was left; it is known by the fuel left where it stands. -/
  | leaving (label : Nat)
  | outOfFuel

namespace Problem

/-- The message of a problem. -/
def message : Problem → Text
  | .undefinedFunction name arity => "function not defined: " ++ name ++ "/" ++ Text.ofNat arity
  | .undefinedReference name => "variable not defined: " ++ name
  | .undefinedLabel name => "label not defined: " ++ name
  | .unknownFormat name => "format not defined: " ++ name
  | .expectedObject got => "expected an object but got: " ++ described got
  | .expectedArray got => "expected an array but got: " ++ described got
  | .notIterable got => "cannot iterate over: " ++ described got
  | .arrayIndex key => "expected a number for indexing an array but got: " ++ described key
  | .stringIndex key => "expected a number for indexing a string but got: " ++ described key
  | .objectKey key => "expected a string for object key but got: " ++ described key
  | .sliceBounds key => "expected \"start\" and \"end\" for slicing but got: " ++ described key
  | .inapplicable function [] input => function ++ " cannot be applied to: " ++ described input
  | .inapplicable function args input =>
    function ++ "(" ++ Text.join "; " (args.map preview) ++ ") cannot be applied to: " ++
      described input
  | .operands op left right =>
    "cannot " ++ op.verb ++ ": " ++ described left ++ " and " ++ described right
  | .zeroDivisor op left right =>
    "cannot " ++ op.verb ++ ": " ++ described left ++ " by: " ++ described right
  | .sign verb of => "cannot " ++ verb ++ ": " ++ described of
  | .negativeIndex i => "array index should not be negative: " ++ Text.ofInt i
  | .notPlace here => "invalid path against: " ++ described here
  | .raised (.string t) => "error: " ++ t
  | .raised j => "error: " ++ j.shown
  | .leaving _ => "break"
  | .outOfFuel => "out of fuel"

/-- The data a handler is given. -/
def data : Problem → Json
  | .raised j => j
  | p => .string p.message

end Problem

/-! ## Results -/

/-- The results of a filter in order, each found only when it is asked for, up to
a problem if there is one. -/
inductive Results (α : Type) where
  | done
  | failed (p : Problem)
  | next (a : α) (rest : Unit → Results α)

namespace Results

variable {α β : Type}

/-- A single result. -/
def one (a : α) : Results α := .next a fun _ => .done

/-- Results one after another. -/
def ofList : List α → Results α
  | [] => .done
  | a :: rest => .next a fun _ => ofList rest

/-- A single result or a problem. -/
def ofExcept : Except Problem α → Results α
  | .ok a => one a
  | .error p => .failed p

/-- All results of the first and then all of the second, unless the first end in
a problem. -/
def append : Results α → (Unit → Results α) → Results α
  | .done, second => second ()
  | .failed p, _ => .failed p
  | .next a rest, second => .next a fun _ => append (rest ()) second

/-- The results of a filter on each result. -/
def bind : Results α → (α → Results β) → Results β
  | .done, _ => .done
  | .failed p, _ => .failed p
  | .next a rest, f => append (f a) fun _ => bind (rest ()) f

/-- Each result changed. -/
def map (f : α → β) : Results α → Results β
  | .done => .done
  | .failed p => .failed p
  | .next a rest => .next (f a) fun _ => map f (rest ())

/-- All results, or the problem they end in. -/
def all : Results α → Except Problem (List α)
  | .done => .ok []
  | .failed p => .error p
  | .next a rest => do return a :: (← all (rest ()))

/-- The results before a problem, and the problem. -/
def collect : Results α → List α × Option Problem
  | .done => ([], none)
  | .failed p => ([], some p)
  | .next a rest =>
    let (more, p) := collect (rest ())
    (a :: more, p)

/-- The results with their problem, if any, handled. -/
def handle (handler : Problem → Results α) : Results α → Results α
  | .done => .done
  | .failed p => handler p
  | .next a rest => .next a fun _ => handle handler (rest ())

/-- The results with a property, up to a problem, which is dropped. -/
def filterQuietly (keep : α → Bool) : Results α → Results α
  | .done => .done
  | .failed (.leaving label) => .failed (.leaving label)
  | .failed _ => .done
  | .next a rest =>
    if keep a then .next a fun _ => filterQuietly keep (rest ()) else filterQuietly keep (rest ())

/-- The first result, a problem, or neither. -/
def first? : Results α → Except Problem (Option α)
  | .done => .ok none
  | .failed p => .error p
  | .next a _ => .ok (some a)

/-- A state changed by each result in turn. -/
def foldFrom (step : β → α → Except Problem β) : β → Results α → Except Problem β
  | b, .done => .ok b
  | _, .failed p => .error p
  | b, .next a rest => do foldFrom step (← step b a) (rest ())

end Results

end EplLang.Query
