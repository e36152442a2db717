import EplLang.Text.Quoted
import EplLang.Number.Reading

/-!
# Flags

A flag has a name, used after two dashes, and may have a letter, used after one.
A switch stands alone, or has its value after an equals sign; any other flag has a
value, after an equals sign or as the next argument. Letters may stand together
after one dash; the first that has a value takes all that follows it. Two dashes
alone end the flags, and what is no flag and no value of one is an argument of the
command.
-/

set_option autoImplicit false

namespace EplLang.Command

open Text (byte)

/-- What the flags of a command line say. -/
structure Options where
  interpret : Bool := false
  compile : Bool := false
  display : Bool := false
  full : Bool := false
  ast : Bool := false
  watch : Bool := false
  format : Option Text := none
  query : Option Text := none
  config : Text := []
  logToStderr : Option Bool := none
  verbose : Option Int := none

/-- What a flag does with its value. -/
inductive Effect where
  | switch (set : Bool → Options → Options)
  | text (set : Text → Options → Options)
  | integer (set : Int → Options → Options)

/-- A flag. -/
structure Flag where
  name : Text
  letter : Option UInt8 := none
  effect : Effect

namespace Flag

/-- Whether a flag can stand without a value. -/
def isSwitch (f : Flag) : Bool :=
  match f.effect with
  | .switch _ => true
  | _ => false

/-- The flags that every command has. -/
def common : List Flag :=
  [{ name := "config", effect := .text fun config o => { o with config } },
   { name := "logtostderr", effect := .switch fun b o => { o with logToStderr := some b } },
   { name := "verbose", letter := some (byte 'v')
     effect := .integer fun n o => { o with verbose := some n } }]

/-- The flags for running a program. -/
def running : List Flag :=
  [{ name := "interpret", letter := some (byte 'i')
     effect := .switch fun interpret o => { o with interpret } },
   { name := "compile", letter := some (byte 'c')
     effect := .switch fun compile o => { o with compile } },
   { name := "display", letter := some (byte 'd')
     effect := .switch fun display o => { o with display } },
   { name := "full", letter := some (byte 'f'), effect := .switch fun full o => { o with full } },
   { name := "format", effect := .text fun format o => { o with format := some format } },
   { name := "query", effect := .text fun query o => { o with query := some query } },
   { name := "ast", effect := .switch fun ast o => { o with ast } },
   { name := "watch", effect := .switch fun watch o => { o with watch } }]

/-- A flag as messages name it. -/
def shown (f : Flag) : Text :=
  match f.letter with
  | some b => "-" ++ [b] ++ ", --" ++ f.name
  | none => "--" ++ f.name

end Flag

/-! ## Values -/

/-- Why a text is no integer. -/
inductive NotInteger where
  | invalid
  | outOfRange

/-- The truth value of a word. -/
def truth? (t : Text) : Option Bool :=
  if (["1", "t", "T", "TRUE", "true", "True"] : List Text).contains t then some true
  else if (["0", "f", "F", "FALSE", "false", "False"] : List Text).contains t then some false
  else none

/-- The base of an unsigned integer and its digits. -/
def baseOf : Text → Nat × Text
  | z :: x :: d :: rest =>
    if z ≠ byte '0' then (10, z :: x :: d :: rest)
    else if x = byte 'b' ∨ x = byte 'B' then (2, d :: rest)
    else if x = byte 'o' ∨ x = byte 'O' then (8, d :: rest)
    else if x = byte 'x' ∨ x = byte 'X' then (16, d :: rest)
    else (8, x :: d :: rest)
  | [z, x] => if z = byte '0' then (8, [x]) else (10, [z, x])
  | t => (10, t)

/-- Whether every underscore stands between digits, given what came before. A mark
of the base counts as a digit. -/
def underscoresApart (afterDigit afterUnderscore : Bool) : Text → Bool
  | [] => !afterUnderscore
  | b :: rest =>
    if b = byte '_' then afterDigit && underscoresApart false true rest
    else underscoresApart true false rest

/-- The size of an unsigned integer. -/
def magnitude? (t : Text) : Option Nat :=
  let (base, digits) := baseOf t
  let values := (digits.filter (· != byte '_')).map fun b => (Reading.hexValue? b).getD 16
  if t.isEmpty || values.any (base ≤ ·) || !underscoresApart (digits.length < t.length) false digits
  then none
  else some (values.foldl (fun n d => n * base + d) 0)

/-- The integer of a text, if it is one of 64 bits. -/
def integer (t : Text) : Except NotInteger Int :=
  let (negative, digits) : Bool × Text :=
    match t with
    | s :: rest => if s = byte '-' then (true, rest) else if s = byte '+' then (false, rest) else (false, t)
    | [] => (false, [])
  match magnitude? digits with
  | none => .error .invalid
  | some n =>
    if negative then if n ≤ Word.half then .ok (-n) else .error .outOfRange
    else if n < Word.half then .ok n
    else .error .outOfRange

/-! ## Reading a command line -/

/-- What is wrong with a command line. -/
inductive Misuse where
  | unknownFlag (name : Text)
  | unknownLetter (letter : UInt8) (group : Text)
  | malformed (arg : Text)
  | noValue (name : Text)
  | noLetterValue (letter : UInt8) (group : Text)
  | notTruth (flag : Flag) (value : Text)
  | notInteger (flag : Flag) (value : Text) (why : NotInteger)
  | argumentCount (expected given : Nat)
  | extraArgument (arg : Text) (command : Text)

/-- The message about a wrong value. -/
def wrongValue (flag : Flag) (value reader problem : Text) : Text :=
  "invalid argument " ++ Text.quoted value ++ " for " ++ Text.quoted flag.shown ++ " flag: strconv." ++
    reader ++ ": parsing " ++ Text.quoted value ++ ": " ++ problem

/-- The message about a misuse. -/
def Misuse.message : Misuse → Text
  | .unknownFlag name => "unknown flag: --" ++ name
  | .unknownLetter letter group =>
    "unknown shorthand flag: " ++ Text.quotedChar (Char.ofNat letter.toNat) ++ " in -" ++ group
  | .malformed arg => "bad flag syntax: " ++ arg
  | .noValue name => "flag needs an argument: --" ++ name
  | .noLetterValue letter group =>
    "flag needs an argument: " ++ Text.quotedChar (Char.ofNat letter.toNat) ++ " in -" ++ group
  | .notTruth flag value => wrongValue flag value "ParseBool" "invalid syntax"
  | .notInteger flag value .invalid => wrongValue flag value "ParseInt" "invalid syntax"
  | .notInteger flag value .outOfRange => wrongValue flag value "ParseInt" "value out of range"
  | .argumentCount expected given =>
    "accepts " ++ Text.ofNat expected ++ " arg(s), received " ++ Text.ofNat given
  | .extraArgument arg command =>
    "unknown command " ++ Text.quoted arg ++ " for " ++ Text.quoted command

/-- The options after a flag with a value. -/
def Flag.apply (f : Flag) (value : Text) (o : Options) : Except Misuse Options :=
  match f.effect with
  | .switch set =>
    match truth? value with
    | some b => .ok (set b o)
    | none => .error (.notTruth f value)
  | .text set => .ok (set value o)
  | .integer set =>
    match integer value with
    | .ok n => .ok (set n o)
    | .error why => .error (.notInteger f value why)

/-- The options after a long flag without its dashes, and the arguments left. -/
def longFlag (flags : List Flag) (o : Options) (arg : Text) (rest : List Text) :
    Except Misuse (Options × List Text) :=
  let name := arg.takeWhile (· != byte '=')
  if name.isEmpty || name.head? == some (byte '-') then .error (.malformed ("--" ++ arg))
  else
    match flags.find? (·.name == name), arg.drop name.length, rest with
    | none, _, _ => .error (.unknownFlag name)
    | some f, _ :: value, rest => do return (← f.apply value o, rest)
    | some f, [], rest =>
      if f.isSwitch then do return (← f.apply "true" o, rest)
      else
        match rest with
        | value :: rest => do return (← f.apply value o, rest)
        | [] => .error (.noValue name)

/-- The options after letters, and the arguments left. -/
def letterFlags (flags : List Flag) (o : Options) (rest : List Text) :
    Text → Except Misuse (Options × List Text)
  | [] => .ok (o, rest)
  | b :: group =>
    match flags.find? (·.letter == some b) with
    | none => .error (.unknownLetter b (b :: group))
    | some f =>
      match group with
      | e :: v :: value =>
        if e = byte '=' then do return (← f.apply (v :: value) o, rest)
        else if f.isSwitch then do letterFlags flags (← f.apply "true" o) rest (e :: v :: value)
        else do return (← f.apply group o, rest)
      | group =>
        if f.isSwitch then do letterFlags flags (← f.apply "true" o) rest group
        else if !group.isEmpty then do return (← f.apply group o, rest)
        else
          match rest with
          | value :: rest => do return (← f.apply value o, rest)
          | [] => .error (.noLetterValue b [b])

/-- The options of a command line, and its arguments. -/
def readFlags (flags : List Flag) : Nat → Options → List Text →
    Except Misuse (Options × List Text)
  | 0, o, args => .ok (o, args)
  | _, o, [] => .ok (o, [])
  | fuel + 1, o, arg :: rest =>
    match arg with
    | a :: b :: more =>
      if a ≠ byte '-' then do
        let (o, args) ← readFlags flags fuel o rest
        return (o, arg :: args)
      else if b ≠ byte '-' then do
        let (o, rest) ← letterFlags flags o rest (b :: more)
        readFlags flags fuel o rest
      else if more.isEmpty then .ok (o, rest)
      else do
        let (o, rest) ← longFlag flags o more rest
        readFlags flags fuel o rest
    | _ => do
      let (o, args) ← readFlags flags fuel o rest
      return (o, arg :: args)

/-! ## Finding the command -/

/-- Whether an argument is a flag whose value is the next argument. -/
def takesNext (flags : List Flag) (arg : Text) : Bool :=
  let isSwitchNamed (name : Text) := (flags.find? (·.name == name)).any Flag.isSwitch
  let isSwitchLetter (b : UInt8) := (flags.find? (·.letter == some b)).any Flag.isSwitch
  !arg.contains (byte '=') &&
    match arg with
    | [a, b] => a == byte '-' && !isSwitchLetter b
    | a :: b :: name => a == byte '-' && b == byte '-' && !isSwitchNamed name
    | _ => false

/-- Whether an argument looks like a flag. -/
def isFlagLike (arg : Text) : Bool := arg.head? == some (byte '-')

/-- The arguments that are no flags and no values of flags. -/
def words (flags : List Flag) : List Text → List Text
  | [] => []
  | [arg] =>
    if arg.isEmpty || isFlagLike arg then [] else [arg]
  | [arg, next] =>
    if arg = "--" ∨ takesNext flags arg then []
    else (if arg.isEmpty || isFlagLike arg then [] else [arg]) ++ words flags [next]
  | arg :: next :: third :: rest =>
    if arg = "--" then []
    else if takesNext flags arg then words flags (third :: rest)
    else
      (if arg.isEmpty || isFlagLike arg then [] else [arg]) ++ words flags (next :: third :: rest)

/-- The arguments without the first that is a given word. -/
def withoutWord (flags : List Flag) (word : Text) : List Text → List Text
  | [] => []
  | [arg] => if arg = word then [] else [arg]
  | arg :: next :: rest =>
    if arg = "--" then arg :: next :: rest
    else if takesNext flags arg then arg :: next :: withoutWord flags word rest
    else if arg = word then next :: rest
    else arg :: withoutWord flags word (next :: rest)

end EplLang.Command
