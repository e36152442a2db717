import EplLang.Json

/-!
# Filters

A filter takes data and gives any number of results. The simplest is the
identity; filters are put together by pipes, by commas, by operators, by indexing
and by the constructors of lists and records. A filter may give names to data and
to other filters.

A string with holes is a filter too: its pieces are joined, each hole written in
the string's format.
-/

set_option autoImplicit false

namespace EplLang.Query

/-- The operators that take two pieces of data. -/
inductive Operator where
  | add
  | subtract
  | multiply
  | divide
  | modulo
  | equal
  | unequal
  | less
  | atMost
  | greater
  | atLeast
  deriving DecidableEq, Repr

/-- How a place in data is updated. -/
inductive Update where
  /-- By the results of a filter on the whole. -/
  | assign
  /-- By the result of a filter on what is there. -/
  | modify
  /-- By an operator on what is there and a result on the whole. -/
  | compute (op : Operator)
  /-- As `compute`, with the alternative operator. -/
  | default
  deriving DecidableEq, Repr

/-- How data is taken apart and its parts named. -/
inductive Pattern where
  | name (n : Text)
  | list (parts : List Pattern)
  | record (parts : List (Text × Pattern))

/-- A filter. -/
inductive Filter where
  | identity
  | literal (j : Json)
  /-- Texts put together. -/
  | joined (parts : List Filter)
  /-- Each result as text in a format. -/
  | format (name : Text) (of : Filter)
  | pipe (first second : Filter)
  | comma (first second : Filter)
  | alternative (first second : Filter)
  | conjunction (first second : Filter)
  | disjunction (first second : Filter)
  | operator (op : Operator) (left right : Filter)
  | negate (of : Filter)
  | keep (of : Filter)
  | update (how : Update) (place value : Filter)
  | index (of key : Filter)
  | slice (of : Filter) (first last : Option Filter)
  | iterate (of : Filter)
  | attempt (body : Filter) (handler : Option Filter)
  | list (of : Option Filter)
  | record (fields : List (Filter × Filter))
  | branch (condition yes : Filter) (no : Option Filter)
  | fold (source : Filter) (pattern : Pattern) (start step : Filter)
  | scan (source : Filter) (pattern : Pattern) (start step : Filter) (out : Option Filter)
  | naming (source : Filter) (pattern : Pattern) (body : Filter)
  | define (name : Text) (params : List Text) (meaning body : Filter)
  | call (name : Text) (args : List Filter)
  | reference (name : Text)
  | label (name : Text) (body : Filter)
  | leave (name : Text)

end EplLang.Query
