import EplLang.Path

/-!
# Watching a file

A program can be run again whenever its file changes. The directory of the file is
watched, so that a file that is replaced is seen too. A change counts when it is of
the watched file and wrote or created it.
-/

set_option autoImplicit false

namespace EplLang.Watch

/-- What can happen to a file. -/
inductive Event where
  | create
  | write
  | remove
  | rename
  | chmod
  deriving DecidableEq, Repr

/-- A change in a watched directory. Several things may have happened at once. -/
structure Change where
  name : Text
  events : List Event

/-- Whether a change of a file calls for another run. -/
def Change.callsFor (target : Text) (c : Change) : Bool :=
  Path.clean c.name == Path.clean target && (c.events.contains .write || c.events.contains .create)

/-- The message about a directory that cannot be watched. -/
def unwatchable (path : Text) : Text :=
  "watching " ++ Path.directory path ++ ": no such file or directory"

/-- A history of runs: how many there were, and the reports of those that failed. -/
structure History where
  runs : Nat := 0
  reports : List Text := []

/-- The history with one more run, which may have failed. -/
def History.run (h : History) (problem : Nat → Option Text) : History :=
  ⟨h.runs + 1, h.reports ++ (problem h.runs).toList⟩

/-- The runs of a watched program over some changes: one at once, and one for each
change that calls for it. `problem` tells how the runs fail, counted from zero. -/
def follow (target : Text) (problem : Nat → Option Text) (changes : List Change) : History :=
  changes.foldl (fun h c => if c.callsFor target then h.run problem else h) (({} : History).run problem)

end EplLang.Watch
