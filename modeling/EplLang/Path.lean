import EplLang.Text.Basic

/-!
# File paths

Paths are texts with slashes. A clean path is the shortest one that names the
same place without looking at any directory: no empty and no `.` components, and
`..` only at the front of a path that is not rooted.
-/

set_option autoImplicit false

namespace EplLang.Path

open Text (byte)

/-- One component put after the components before it, which are given last
first. -/
def follow (rooted : Bool) (before : List Text) (component : Text) : List Text :=
  if component = [] ∨ component = "." then before
  else if component = ".." then
    match before with
    | [] => if rooted then [] else [component]
    | last :: rest => if last = ".." then component :: before else rest
  else component :: before

/-- The clean form of a path. -/
def clean (path : Text) : Text :=
  let rooted := path.head? = some (byte '/')
  let components := ((Text.splitOn (byte '/') path).foldl (follow rooted) []).reverse
  let joined := Text.join "/" components
  if rooted then byte '/' :: joined else if joined.isEmpty then "." else joined

/-- The last component of a path, trailing slashes left out. -/
def base (path : Text) : Text :=
  if path.isEmpty then "."
  else
    match ((Text.splitOn (byte '/') path).filter (!·.isEmpty)).getLast? with
    | some name => name
    | none => "/"

/-- The directory of a path in its clean form. -/
def directory (path : Text) : Text :=
  clean (path.reverse.dropWhile (· != byte '/')).reverse

end EplLang.Path
