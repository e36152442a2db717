import EplLang.Text.Words

/-!
# Help on the built-in functions

A page with an entry for each built-in function in the order of their names: a
heading with its parameters and the kind of its result, and below it what it does,
broken to a width and indented.
-/

set_option autoImplicit false

namespace EplLang.Command

/-- What is told about a built-in function. -/
structure HelpEntry where
  name : Text
  params : Text
  result : Text
  action : Text

namespace HelpEntry

/-- The built-in functions in the order of their names. -/
def all : List HelpEntry :=
  [⟨"input", "prompt", "string",
    "Prints prompt without a newline and reads one line from standard input."⟩,
   ⟨"log", "value", "null", "Prints the value followed by a newline."⟩,
   ⟨"random", "a,b", "number", "Uniformly chosen integer in the inclusive range a to b."⟩,
   ⟨"sleep", "seconds", "null", "Pauses evaluation for the given number of seconds."⟩,
   ⟨"time", "", "number", "Seconds since the unix epoch, with a fractional part."⟩,
   ⟨"tonumber", "value", "number", "Converts a string, boolean or number to a number."⟩,
   ⟨"tostring", "value", "string", "Renders any value as a string."⟩]

/-- The indentation of what a function does. -/
def indent : Nat := 4

/-- A heading, in bold if colours are on. -/
def heading (colored : Bool) (t : Text) : Text :=
  if colored then "\x1b[1m" ++ t ++ "\x1b[0m" else t

/-- The entry of a function on a page of some width. -/
def page (colored : Bool) (width : Int) (entry : HelpEntry) : Text :=
  heading colored (entry.name ++ "(" ++ entry.params ++ ")") ++ " -> " ++ entry.result ++ "\n" ++
    (Text.wrap entry.action (width - indent)).flatMap fun line =>
      (Text.spaces indent ++ line ++ "\n" : Text)

end HelpEntry

/-- The page on all built-in functions. -/
def help (colored : Bool) (width : Int) : Text :=
  HelpEntry.all.flatMap (HelpEntry.page colored width)

end EplLang.Command
