import EplLang.Command.Flag
import EplLang.Command.Help
import EplLang.Eval
import EplLang.Export
import EplLang.Settings
import EplLang.Watch

/-!
# The command line

The command runs a program from a file and exports its bindings as asked; two
further commands tell the version and describe the built-in functions. Flags win
over settings.

What is wrong is found in this order: the flags, the number of arguments, the
settings, the name of the file, flags that exclude each other, settings with the
flags laid over them, the file, the program. Every failure has a message and an
exit code, and messages are coloured once settings that ask for it are loaded.
-/

set_option autoImplicit false

namespace EplLang.Command

open Text (byte)

/-- Why a command fails. -/
inductive Failure where
  | fault (f : Fault)
  | fileName (path : Text)
  | settings (message : Text)
  | misuse (m : Misuse)
  | unreadable (path : Text)
  | unwatchable (path : Text)
  | unexported (f : ExportFailure)
  /-- The program is a tree without a meaning, or has no end within the fuel. -/
  | unfinished (stop : Stop)

namespace Failure

/-- The message of a failure. -/
def message : Failure → Text
  | .fault f => f.message
  | .fileName path => "Invalid File Name " ++ path
  | .settings message => message
  | .misuse m => m.message
  | .unreadable path => "reading " ++ path ++ ": " ++ Settings.missing path
  | .unwatchable path => Watch.unwatchable path
  | .unexported f => f.message
  | .unfinished _ => "program without an end"

/-- The exit code of a failure. -/
def exitCode : Failure → Nat
  | .fault f => f.cause.faultClass.exitCode
  | .fileName _ => 9
  | .settings _ => 10
  | _ => 2

/-- Whether the message can be coloured. -/
def takesColor : Failure → Bool
  | .fileName _ => false
  | _ => true

/-- The failure of a run that stopped. -/
def ofStop : Stop → Failure
  | .fault f => .fault f
  | stop => .unfinished stop

end Failure

/-- What a command leaves behind. -/
structure Outcome where
  output : Text := []
  failure : Option Failure := none
  colored : Bool := false
  /-- The pauses made, in nanoseconds. -/
  paused : Int := 0

namespace Outcome

/-- What is written about the failure. -/
def errorText (o : Outcome) : Text :=
  match o.failure with
  | none => []
  | some f =>
    if o.colored && f.takesColor then "\x1b[31;1m" ++ f.message ++ "\x1b[0;22m\n"
    else f.message ++ "\n"

/-- The exit code. -/
def exitCode (o : Outcome) : Nat := (o.failure.map Failure.exitCode).getD 0

end Outcome

/-- What a command is given besides its arguments. -/
structure Setting where
  surroundings : Surroundings := {}
  input : Text := []
  /-- The settings file named by the environment. -/
  environment : Text := []
  version : Text := "dev"
  date : Text := []
  width : Int := 80
  /-- Whether a path is that of a directory that can be watched. -/
  isDirectory : Text → Bool := fun _ => true

/-! ## Running a program -/

/-- The ending of a program's file. -/
def sourceEnding : Text := "epl"

/-- Whether a file may hold a program: what follows the first dot of its name, up
to the next one, must be the ending. -/
def isSourceName (path : Text) : Bool :=
  ((Text.splitOn (byte '.') (Path.base path)).drop 1).head? == some sourceEnding

/-- The statements of a program, one on a line. Their places in memory and the
room of the list are not told. -/
def treeText (body : Block) : Text :=
  let lines := body.map fun s =>
    (" (*main.Node)(ADDR)(<" ++ s.node.form.label ++ ">)" : Text)
  if body.isEmpty then "([]*main.Node) <nil>\n"
  else
    "([]*main.Node) (len=" ++ Text.ofNat body.length ++ " cap=N) \x7b\n" ++
      Text.join ",\n" lines ++ "\n\x7d\n"

/-- What is to be done with a program. -/
structure Plan where
  compile : Bool
  showTree : Bool
  /-- The form in which bindings are exported, if they are. -/
  form : Option ExportForm
  full : Bool
  maxDepth : Nat

/-- What a plan says of a program that was read. -/
def Plan.runBlock (plan : Plan) (s : Setting) (path : Text) (body : Block) (site : Nat) :
    Outcome :=
  let tree : Text := if plan.showTree then treeText body else []
  if plan.compile then { output := tree ++ "Compilation coming soon.\n" }
  else
    let surroundings :=
      { s.surroundings with source := some (Path.clean path), maxDepth := plan.maxDepth }
    let left (m : Machine) (exported : Text) (failure : Option Failure) : Outcome :=
      { output := tree ++ m.output ++ exported, failure, paused := m.slept.foldl (· + ·) 0 }
    match Block.run ample surroundings body { Machine.start s.input with site } with
    | .error stop m => left m [] (some (.ofStop stop))
    | .ok _ m =>
      match plan.form with
      | none => left m [] none
      | some form =>
        let (exported, failure) := (m.listing plan.full).write form
        left m exported (failure.map .unexported)

/-- What a plan says of a program's file. -/
def Plan.runFile (plan : Plan) (s : Setting) (path : Text) : Outcome :=
  match s.surroundings.files (Path.clean path) with
  | none => { failure := some (.unreadable path) }
  | some source =>
    match parseSource Native.all.length source with
    | .error stop => { failure := some (.ofStop stop) }
    | .ok (body, site) => plan.runBlock s path body site

/-! ## From options to plans -/

/-- The settings with the flags of a run laid over them. -/
def overlaid (s : Settings) (o : Options) : Settings :=
  let display : Text := if o.display then "user" else s.display
  { s with
    display := if o.full && display != ("none" : Text) then "full" else display
    format := o.format.getD s.format
    query := o.query.getD s.query }

/-- The form that settings export bindings in, if they do: a query wins over a
format, and the listing is made only on demand. -/
def exportForm (s : Settings) : Option ExportForm :=
  if !s.query.isEmpty then some (.query s.query)
  else if s.format = "json" then some .json
  else if s.format = "yaml" then some .yaml
  else if s.display ≠ "none" then some .listing
  else none

/-- The plan of checked settings. -/
def planOf (s : Settings) (o : Options) : Plan where
  compile := o.compile
  showTree := o.ast
  form := exportForm s
  full := s.display == "full"
  maxDepth := s.maxImportDepth.toNat

/-- The settings of a command: those of the file, with the flags for logging laid
over them. -/
def loadSettings (s : Setting) (o : Options) : Except Failure Settings :=
  match Settings.load s.surroundings.files o.config s.environment with
  | (_, some message) => .error (.settings message)
  | (settings, none) =>
    .ok { settings with
      logToStderr := o.logToStderr.getD settings.logToStderr
      verbose := o.verbose.getD settings.verbose }

/-! ## Commands -/

/-- The commands. -/
inductive Name where
  | run
  | builtins
  | version
  deriving DecidableEq, Repr

namespace Name

/-- The flags of a command. -/
def flags : Name → List Flag
  | .run => Flag.running ++ Flag.common
  | _ => Flag.common

/-- How messages name a command. -/
def shown : Name → Text
  | .run => "epl"
  | .builtins => "epl builtins"
  | .version => "epl version"

/-- What is wrong with the arguments of a command. -/
def misuse? (command : Name) (args : List Text) : Option Misuse :=
  match command, args with
  | .run, [_] => none
  | .run, args => some (.argumentCount 1 args.length)
  | _, [] => none
  | command, arg :: _ => some (.extraArgument arg command.shown)

end Name

/-- The command that arguments ask for, and its own arguments. -/
def find (args : List Text) : Name × List Text :=
  let flags := Name.run.flags
  match words flags args with
  | [] => (.run, args)
  | word :: _ =>
    if word = "builtins" then (.builtins, withoutWord flags word args)
    else if word = "version" then (.version, withoutWord flags word args)
    else (.run, args)

/-- The text of the version. -/
def versionText (s : Setting) : Text :=
  let date : Text := if s.date.isEmpty then [] else " (" ++ s.date ++ ")"
  "epl " ++ s.version ++ date ++ "\n"

/-- What a command does next: it is done, or it keeps running the program of a file
as often as the file changes. -/
inductive Step where
  | done (o : Outcome)
  | watch (path : Text) (plan : Plan) (colored : Bool)

/-- Runs a program once as planned. -/
def runOnce (s : Setting) (path : Text) (plan : Plan) (colored : Bool) : Outcome :=
  { plan.runFile s path with colored }

/-- What the command for running a program does with its settings loaded. -/
def runStep (s : Setting) (settings : Settings) (o : Options) (path : Text) : Step :=
  let colored := settings.color == "always"
  let failed (failure : Failure) : Step := .done { failure := some failure, colored }
  if !isSourceName path then failed (.fileName path)
  else if o.interpret && o.compile then
    failed (.settings "--interpret and --compile are mutually exclusive")
  else
    let settings := overlaid settings o
    match settings.validate with
    | some message => failed (.settings message)
    | none =>
      let plan := planOf settings o
      if !o.watch then .done (runOnce s path plan colored)
      else if !(s.isDirectory (Path.directory path)) then failed (.unwatchable path)
      else .watch path plan colored

/-- What the command line asks for. -/
def start (s : Setting) (args : List Text) : Step :=
  let (command, args) := find args
  let failed (failure : Failure) : Step := .done { failure := some failure }
  match readFlags command.flags (args.length + 1) {} args with
  | .error m => failed (.misuse m)
  | .ok (o, args) =>
    match command.misuse? args with
    | some m => failed (.misuse m)
    | none =>
      match loadSettings s o with
      | .error failure => failed failure
      | .ok settings =>
        match command, args with
        | .builtins, _ => .done { output := help (settings.color == "always") s.width }
        | .version, _ => .done { output := versionText s }
        | .run, path :: _ => runStep s settings o path
        | .run, [] => failed (.misuse (.argumentCount 1 0))

/-- What a command line leaves behind, a watched program being run once. -/
def execute (s : Setting) (args : List Text) : Outcome :=
  match start s args with
  | .done o => o
  | .watch path plan colored => runOnce s path plan colored

end EplLang.Command
