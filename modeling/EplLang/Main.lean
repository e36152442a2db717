import EplLang.Command

/-!
# The program

The outer layer: it reads arguments, files and standard input, lets the command
line decide, and writes what it leaves behind.

A command is a function of the files it is given. The files that a command line
names are read first; when a program turns out to import one that was not read, it
is read and the command is asked again.
-/

set_option autoImplicit false

namespace EplLang.Program

/-- A text as a string, if it is one. -/
def stringOf (t : Text) : String := (String.fromUTF8? ⟨t.toArray⟩).getD ""

/-- The contents of a file, if it can be read. -/
def contents (path : Text) : IO (Option Text) :=
  try return some (← IO.FS.readBinFile (stringOf path)).data.toList
  catch _ => return none

/-- Whether a path is that of a directory. -/
def isDirectory (path : Text) : IO Bool :=
  try (← IO.FS.realPath (stringOf path)).isDir
  catch _ => return false

/-- Everything that is left on a stream. -/
partial def drain (stream : IO.FS.Stream) : IO Text := do
  let chunk ← stream.read 65536
  if chunk.isEmpty then return []
  return chunk.data.toList ++ (← drain stream)

/-- Files that were read, by their clean paths. -/
abbrev Files := List (Text × Text)

/-- The files with those of some paths added that can be read. -/
def readInto (files : Files) (paths : List Text) : IO Files :=
  paths.foldlM (fun files path => do
    match ← contents path with
    | some t => return (Path.clean path, t) :: files
    | none => return files) files

/-- The paths that a command line may name: its arguments, and what follows their
equals signs. -/
def namedPaths (args : List Text) : List Text :=
  args.flatMap fun arg => [arg, (arg.dropWhile (· != Text.byte '=')).drop 1]

/-- The time of the clock: seconds since 1970 and nanoseconds, told by the date of
a file made for it. -/
def clock : IO (Int × Int) := do
  let (_, path) ← IO.FS.createTempFile
  let changed := (← path.metadata).modified
  IO.FS.removeFile path
  return (changed.sec, changed.nsec.toNat)

/-- The number drawn at a position of a sequence that starts from a seed. -/
def draw (seed : UInt64) (i : Nat) : Nat :=
  let x := seed + (i + 1).toUInt64 * 0x9E3779B97F4A7C15
  let x := (x ^^^ (x >>> 30)) * 0xBF58476D1CE4E5B9
  let x := (x ^^^ (x >>> 27)) * 0x94D049BB133111EB
  (x ^^^ (x >>> 31)).toNat

/-- A seed that differs from run to run. -/
def seed : IO UInt64 := do
  return (← IO.getRandomBytes 8).data.toList.foldl (fun n b => n * 256 + b.toUInt64) 0

/-- The path of the file whose import failed because it was not read. -/
def wanted (o : Command.Outcome) : Option Text :=
  match o.failure with
  | some (.fault ⟨_, .importMissing path⟩) => some path
  | _ => none

/-- What a command gives once every file it imports has been read. -/
partial def settled (run : Files → Command.Outcome) (files : Files) :
    IO (Command.Outcome × Files) := do
  let o := run files
  match wanted o with
  | none => return (o, files)
  | some path =>
    match ← contents path with
    | some t => settled run ((path, t) :: files)
    | none => return (o, files)

/-- Writes a text. -/
def write (stream : IO.FS.Stream) (t : Text) : IO Unit := do
  stream.write ⟨t.toArray⟩
  stream.flush

/-- Writes what a command leaves behind, after its pauses. -/
def report (o : Command.Outcome) : IO Unit := do
  IO.sleep (o.paused / 1000000).toNat.toUInt32
  write (← IO.getStdout) o.output
  write (← IO.getStderr) o.errorText

/-- Runs a program as often as its file changes. -/
partial def watch (path : Text) (run : Files → Command.Outcome) (files : Files) : IO Unit := do
  let before ← contents path
  let fresh ← readInto (files.filter fun (name, _) => name != Path.clean path) [path]
  let (o, _) ← settled run fresh
  report o
  let rec wait : IO Unit := do
    IO.sleep 100
    if (← contents path) == before then wait
  wait
  watch path run files

/-- What a command line needs: the files that it names, and the world around it.
The input of a program is what was sent to it; a terminal sends nothing. -/
def prepare (args : List Text) : IO (Command.Setting × Files) := do
  let environment := ((← IO.getEnv "EPL_CONFIG").getD "").text
  let files ← readInto [] (environment :: Settings.defaultFile :: namedPaths args)
  let stdin ← IO.getStdin
  let input ← if ← stdin.isTty then pure [] else drain stdin
  let now ← clock
  let draws := draw (← seed)
  let directories ← (args.map Path.directory).filterM isDirectory
  let setting : Command.Setting :=
    { surroundings := { now, draws }, input, environment
      isDirectory := fun path => directories.contains path }
  return (setting, files)

/-- A setting with the files that were read. -/
def withFiles (s : Command.Setting) (files : Files) : Command.Setting :=
  { s with surroundings :=
    { s.surroundings with files := fun path => (files.find? (·.1 == path)).map Prod.snd } }

/-- Does what a command line asks for, and gives the exit code. -/
def run (args : List Text) : IO Nat := do
  let (s, files) ← prepare args
  match Command.start (withFiles s files) args with
  | .watch path plan colored =>
    watch path (fun files => Command.runOnce (withFiles s files) path plan colored) files
    return 0
  | .done _ =>
    let (o, _) ← settled (fun files => Command.execute (withFiles s files) args) files
    report o
    return o.exitCode

end EplLang.Program

/-- The command line. -/
def main (args : List String) : IO UInt32 := do
  return (← EplLang.Program.run (args.map String.text)).toUInt32
