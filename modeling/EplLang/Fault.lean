import EplLang.Scalar
import EplLang.Text.Quoted
import EplLang.Token

/-!
# Faults

A fault ends a program: there is no way to catch one from inside. It has a line
and a cause. Every cause belongs to one of nine classes, which give the fault its
name and its exit code, and has one wording.

`Stop` is everything that can end a computation before its result: a fault, a
tree that no source text makes and that cannot be given a meaning (such as a
string indexed by nothing), or the end of the fuel.
-/

set_option autoImplicit false

namespace EplLang

/-- The classes of faults. -/
inductive FaultClass where
  | character
  | syntactic
  | division
  | conditionOperator
  | naming
  | argument
  | typing
  | index
  | load
  deriving DecidableEq, Repr

/-- The name of a class of faults. -/
def FaultClass.name : FaultClass → Text
  | .character => "InvalidCharacterError"
  | .syntactic => "InvalidSyntaxError"
  | .division => "DivisionByZeroError"
  | .conditionOperator => "InvalidConditionOperatorError"
  | .naming => "VariableError"
  | .argument => "FunctionArgumentError"
  | .typing => "TypeError"
  | .index => "IndexError"
  | .load => "ImportError"

/-- The exit code a program ends with. -/
def FaultClass.exitCode : FaultClass → Nat
  | .character => 127
  | .syntactic => 1
  | .division => 5
  | .conditionOperator => 5
  | .naming => 4
  | .argument => 3
  | .typing => 6
  | .index => 7
  | .load => 8

/-- What is wrong with a token where it stands. -/
inductive Complaint where
  | expected (kind : Kind)
  | closingBracket
  | functionCall
  | assignmentTarget
  | keyword
  | expectedIn
  | literalAtEnd
  | literal
  | parameterName
  | interpolation
  deriving DecidableEq

/-- The wording of a complaint. -/
def Complaint.message : Complaint → Text
  | .expected kind => "Expected " ++ kind.name ++ "."
  | .closingBracket => "Unexpected closing bracket."
  | .functionCall => "Expected Function call."
  | .assignmentTarget => "Invalid assignment target."
  | .keyword => "Unexpected keyword."
  | .expectedIn => "Expected \"in\"."
  | .literalAtEnd => "Expected Literal, got null."
  | .literal => "Expected Literal."
  | .parameterName => "Expected parameter name."
  | .interpolation => "Unexpected token in string interpolation."

/-- Why a program cannot go on. -/
inductive Cause where
  | unexpectedCharacter (shown : Text)
  | illegalToken (kind : Kind) (spelling : Text) (complaint : Complaint)
  | notStatement (form : Form)
  | notExpression (form : Form)
  | unknownOperator (op : Kind)
  | unknownUnary (op : Kind)
  | divisionByZero
  | conditionOperator (op : Kind)
  | nameTaken (name : Text)
  | nameUnbound (name : Text)
  | argumentCount (given expected : Nat)
  | wrongType (got expected : Form)
  | rangeBounds (first last : Float)
  | randomBounds (low high : Float)
  | randomEmpty (low high : Int)
  | randomWide (low high : Int)
  | notNumeric (t : Text)
  | notIndexable (form : Form)
  | missingKey (key : Scalar) (form : Form)
  | notKey (form : Form)
  | stringIndex (x : Float)
  | notAssignable (form : Form)
  | importCycle (trail : List Text)
  | importDepth (limit : Nat) (path : Text)
  | importMissing (path : Text)
  deriving DecidableEq

namespace Cause

/-- The class of a cause. -/
def faultClass : Cause → FaultClass
  | .unexpectedCharacter _ => .character
  | .illegalToken .. | .notStatement _ | .notExpression _ | .unknownOperator _
  | .unknownUnary _ => .syntactic
  | .divisionByZero => .division
  | .conditionOperator _ => .conditionOperator
  | .nameTaken _ | .nameUnbound _ => .naming
  | .argumentCount .. => .argument
  | .wrongType .. | .rangeBounds .. | .randomBounds .. | .randomEmpty .. | .randomWide ..
  | .notNumeric _ => .typing
  | .notIndexable _ | .missingKey .. | .notKey _ | .stringIndex _ | .notAssignable _ => .index
  | .importCycle _ | .importDepth .. | .importMissing _ => .load

/-- The wording of a cause. -/
def message : Cause → Text
  | .unexpectedCharacter shown => "Unexpected Character " ++ Text.quoted shown ++ " appeared."
  | .illegalToken kind spelling complaint =>
    "Illegal Syntax Occured \"" ++ kind.name ++ " : " ++ spelling ++ "\". " ++ complaint.message
  | .notStatement form => form.label ++ " cannot be used as a statement."
  | .notExpression form => form.label ++ " is not an expression."
  | .unknownOperator op => "Unknown operator " ++ op.name ++ "."
  | .unknownUnary op => "Unknown unary operator " ++ op.name ++ "."
  | .divisionByZero => "Cannot divide by 0, result undefined."
  | .conditionOperator op =>
    "Invalid Operator in Condition detected " ++ Text.quoted op.name ++ "."
  | .nameTaken name => "Variable " ++ name ++ " already exists."
  | .nameUnbound name => "Variable " ++ name ++ " does not exist."
  | .argumentCount given expected =>
    "Number of Arguments " ++ Text.ofNat given ++
      " does not match with number of paramaters " ++ Text.ofNat expected ++ "."
  | .wrongType got expected => "Wrong Type " ++ got.label ++ ", expected " ++ expected.label ++ "."
  | .rangeBounds first last =>
    "Range " ++ numberText first ++ ", " ++ numberText last ++ " does not fit an integer."
  | .randomBounds low high =>
    "random(" ++ numberText low ++ ", " ++ numberText high ++ ") needs integer bounds."
  | .randomEmpty low high =>
    "Empty range for random(" ++ Text.ofInt low ++ ", " ++ Text.ofInt high ++ ")."
  | .randomWide low high =>
    "Range too wide for random(" ++ Text.ofInt low ++ ", " ++ Text.ofInt high ++ ")."
  | .notNumeric t => "Cannot convert " ++ Text.quoted t ++ " to Number."
  | .notIndexable form => "Cannot index into " ++ form.label ++ "."
  | .missingKey key form => "Key " ++ key.shown ++ " does not exist in " ++ form.label ++ "."
  | .notKey form => "A " ++ form.label ++ " cannot be used as a key."
  | .stringIndex x => "String index " ++ numberText x ++ " out of range."
  | .notAssignable form => "Cannot assign into " ++ form.label ++ "."
  | .importCycle trail => "Import cycle detected: " ++ Text.join " -> " trail ++ "."
  | .importDepth limit path =>
    "Import depth " ++ Text.ofNat limit ++ " exceeded importing " ++ path ++ "."
  | .importMissing path => "reading " ++ path ++ ": open " ++ path ++ ": file does not exist"

end Cause

/-- A cause and the line it is reported at. -/
structure Fault where
  line : Int
  cause : Cause
  deriving DecidableEq

/-- The whole message of a fault. -/
def Fault.message (f : Fault) : Text :=
  f.cause.faultClass.name ++ " LINE " ++ Text.ofInt f.line ++ ": " ++ f.cause.message

/-- What can end a computation before its result. -/
inductive Stop where
  | fault (f : Fault)
  /-- The tree has no meaning at the place reached. -/
  | malformed
  /-- The segments of a string do not lie in its text one after another. -/
  | misplaced
  /-- The bound on the number of steps was reached. -/
  | outOfFuel
  deriving DecidableEq

/-- The stop at a token that cannot stand where it is. -/
def Token.illegal (t : Token) (complaint : Complaint) : Stop :=
  .fault ⟨t.line, .illegalToken t.kind t.spelling complaint⟩

end EplLang
