import EplLang.Number.Layout

/-!
# Scalars and kinds

Scalars are the values without parts: numbers, strings, truth values and null.
They are what a literal denotes and what may serve as a key of an array or an
object. As keys they are compared by kind and value; two numbers are the same
key when they are equal as doubles, so `0` and `-0` are one key, and a nan is
the same key as nothing, not even itself.

`Form` names every kind of program node and of value; messages refer to both by
the same names.
-/

set_option autoImplicit false

namespace EplLang

/-- A value without parts. -/
inductive Scalar where
  | number (x : Float)
  | string (t : Text)
  | boolean (b : Bool)
  | null
  deriving DecidableEq

/-- The two kinds of container. -/
inductive Shape where
  | array
  | object
  deriving DecidableEq, Repr

/-- The kinds of nodes and values. -/
inductive Form where
  | newLine
  | number
  | string
  | boolean
  | null
  | array
  | object
  | arithmetic
  | unary
  | condition
  | length
  | name
  | index
  | bind
  | assign
  | give
  | leave
  | load
  | branch
  | loop
  | range
  | each
  | function
  | call
  | native
  | unknown
  deriving DecidableEq, Repr

/-- The name of a kind in messages and program listings. -/
def Form.label : Form → Text
  | .newLine => "NewLine"
  | .number => "Number"
  | .string => "String"
  | .boolean => "Boolean"
  | .null => "Null"
  | .array => "Array"
  | .object => "Object"
  | .arithmetic => "BinOp"
  | .unary => "UnOp"
  | .condition => "Cond"
  | .length => "LengthOp"
  | .name => "VarGet"
  | .index => "Index"
  | .bind => "Var"
  | .assign => "DSO"
  | .give => "Return"
  | .leave => "Break"
  | .load => "Import"
  | .branch => "If"
  | .loop => "While"
  | .range => "ForRange"
  | .each => "ForEach"
  | .function => "Function"
  | .call => "Call"
  | .native => "Attach"
  | .unknown => "Unknown"

/-- The kind of a container. -/
def Shape.form : Shape → Form
  | .array => .array
  | .object => .object

namespace Scalar

/-- The kind of a scalar. -/
def form : Scalar → Form
  | .number _ => .number
  | .string _ => .string
  | .boolean _ => .boolean
  | .null => .null

/-- Whether two scalars are the same key. -/
def same : Scalar → Scalar → Bool
  | .number x, .number y => x == y
  | .string s, .string t => s == t
  | .boolean a, .boolean b => a == b
  | .null, .null => true
  | _, _ => false

/-- Whether a scalar is a key no look-up can find: it differs from itself. -/
def isLost (k : Scalar) : Bool := !same k k

/-- The text of a scalar on its own: a string stands as it is. -/
def bare : Scalar → Text
  | .number x => numberText x
  | .string t => t
  | .boolean b => if b then "true" else "false"
  | .null => "null"

/-- The text of a scalar inside other text: a string stands between quotes,
its content unchanged. -/
def shown : Scalar → Text
  | .string t => Text.between "\"" t
  | s => s.bare

/-- The text of a key in a shown object: an identifier needs no quotes. -/
def label : Scalar → Text
  | .string t => if Text.isIdentifier t then t else (Scalar.string t).shown
  | s => s.shown

end Scalar

end EplLang
