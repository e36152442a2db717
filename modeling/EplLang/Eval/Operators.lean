import EplLang.Machine

/-!
# Operators

Arithmetic works on numbers; a sum with a string on either side joins the texts
of both. Conditions join truth values or compare.

Strings compare byte by byte and with strings only; a string is different from
anything else. Numbers, truth values and null compare on the number line, null
being zero and `true` one; a nan is neither below nor above anything, and so
counts as equal. Containers and functions are equal to themselves only and are
not ordered.
-/

set_option autoImplicit false

namespace EplLang

/-- The place of a scalar on the number line; strings have none. -/
def Scalar.rank? : Scalar → Option Float
  | .number x => some x
  | .boolean b => some (if b then 1 else 0)
  | .null => some 0
  | .string _ => none

namespace Operator

/-- Arithmetic on two numbers. -/
def calculate (a : Float) (op : Kind) (b : Float) : Except Cause Float :=
  match op with
  | .plus => .ok (a + b)
  | .minus => .ok (a - b)
  | .times => .ok (a * b)
  | .divide => if b == 0 then .error .divisionByZero else .ok (a / b)
  | .power => .ok (Float.pow a b)
  | _ => .error (.unknownOperator op)

/-- A value joined or combined with another by an arithmetic operator. -/
def arithmetic (store : Store) (left : Value) (op : Kind) (right : Value) : Except Cause Value :=
  if left.form = .string ∨ right.form = .string then
    if op = .plus then .ok (.text ((store.view left).bare ++ (store.view right).bare))
    else .error (.wrongType .string .number)
  else
    match left, right with
    | .scalar (.number a), .scalar (.number b) => (calculate a op b).map Value.number
    | .scalar (.number _), _ => .error (.wrongType right.form .number)
    | _, _ => .error (.wrongType left.form .number)

/-- A sign or negation before a value. -/
def unary (op : Kind) (v : Value) : Except Cause Value :=
  match op, v with
  | .minus, .scalar (.number x) => .ok (.number (-x))
  | .minus, _ => .error (.wrongType v.form .number)
  | .not, .scalar (.boolean b) => .ok (.truth !b)
  | .not, _ => .error (.wrongType v.form .boolean)
  | _, _ => .error (.unknownUnary op)

/-- Whether a comparison holds, given how its sides are ordered. -/
def holds (op : Kind) (o : Ordering) : Bool :=
  match op with
  | .equal => o == .eq
  | .notEqual => o != .eq
  | .less => o == .lt
  | .lessEqual => o != .gt
  | .greater => o == .gt
  | .greaterEqual => o != .lt
  | _ => false

/-- The order of two places on the number line; a nan is beside everything. -/
def rankOrder (a b : Float) : Ordering :=
  if a < b then .lt else if b < a then .gt else .eq

/-- A comparison whose sides can only be equal or different. -/
def alike (same : Bool) (op : Kind) (otherwise : Cause) : Except Cause Bool :=
  match op with
  | .equal => .ok same
  | .notEqual => .ok !same
  | _ => .error otherwise

/-- Whether a comparison of two values holds. -/
def compare (left : Value) (op : Kind) (right : Value) : Except Cause Bool :=
  match left, right with
  | .scalar (.string s), .scalar (.string t) => .ok (holds op (Text.order s t))
  | .scalar (.string _), _ => alike false op (.wrongType right.form .string)
  | _, .scalar (.string _) => alike false op (.wrongType left.form .string)
  | .scalar s, .scalar t =>
    match s.rank?, t.rank? with
    | some a, some b => .ok (holds op (rankOrder a b))
    | _, _ => alike false op (.wrongType left.form .string)
  | .scalar _, _ => alike false op (.wrongType right.form .number)
  | _, _ => alike (left.identical right) op (.wrongType left.form .number)

/-- The operators that compare. -/
def compares : Kind → Bool
  | .equal | .notEqual | .less | .lessEqual | .greater | .greaterEqual => true
  | _ => false

/-- A condition on two values. -/
def condition (left : Value) (op : Kind) (right : Value) : Except Cause Value :=
  match op, left, right with
  | .and, .scalar (.boolean a), .scalar (.boolean b) => .ok (.truth (a && b))
  | .or, .scalar (.boolean a), .scalar (.boolean b) => .ok (.truth (a || b))
  | _, _, _ =>
    if compares op then (compare left op right).map Value.truth
    else .error (.conditionOperator op)

/-- Whether a value counts as true: numbers but zero, strings and containers but
the empty ones, `true`, and every function. -/
def truthy (store : Store) : Value → Bool
  | .scalar (.number x) => x != 0
  | .scalar (.string t) => !t.isEmpty
  | .scalar (.boolean b) => b
  | .scalar .null => false
  | .function .. => true
  | .container _ ref => (store.get ref).size != 0

/-- The length of a value: a number is its own, a string has as many as
characters, a container as many as entries, anything else has none. -/
def length (store : Store) : Value → Value
  | .scalar (.number x) => .number x
  | .scalar (.string t) => .number (Binary64.ofInt (Utf8.count t))
  | .container _ ref => .number (Binary64.ofInt (store.get ref).size)
  | _ => .null

/-- The character of a string at a place; places below zero count from the
end. -/
def characterAt (t : Text) (x : Float) : Except Cause Value :=
  let characters := Utf8.chars t
  let place := (Binary64.toInt64? x).map fun (i : Int) =>
    if i < 0 then i + characters.length else i
  match place with
  | some i =>
    if i < 0 then .error (.stringIndex x)
    else
      match characters[i.toNat]? with
      | some c => .ok (.text (Utf8.encodeChar c))
      | none => .error (.stringIndex x)
  | none => .error (.stringIndex x)

end Operator

end EplLang
