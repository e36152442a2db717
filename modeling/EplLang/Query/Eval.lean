import EplLang.Query.Function
import EplLang.Query.Parser

/-!
# Results of filters

A filter is given data at a spot. When the places of results are asked for, a
spot knows how it was reached: by a path from where the filter started, or as
something new that has no place. Indexing what has no place is then a problem.

Where two filters take part in one operation, the second is run first, and the
first is run for each of its results.

Names are looked up in a scope, innermost first. A function sees the scope it was
defined in and itself; an argument sees the scope of its call.
-/

set_option autoImplicit false

namespace EplLang.Query

/-- How a spot was reached. -/
inductive Trace where
  /-- Nobody asks. -/
  | unasked
  /-- By a path, innermost key first. -/
  | along (keys : List Json)
  /-- It is something new. -/
  | nowhere

/-- Data and how it was reached. -/
structure Spot where
  value : Json
  trace : Trace := .unasked

namespace Spot

/-- New data made at a spot. -/
def fresh (s : Spot) (j : Json) : Spot :=
  match s.trace with
  | .unasked => ⟨j, .unasked⟩
  | _ => ⟨j, .nowhere⟩

/-- A part of a spot with its key. -/
def part (s : Spot) (key value : Json) : Except Problem Spot :=
  match s.trace with
  | .unasked => .ok ⟨value, .unasked⟩
  | .along keys => .ok ⟨value, .along (key :: keys)⟩
  | .nowhere => .error (.notPlace s.value)

/-- The part of a spot under a key. -/
def descend (s : Spot) (key : Json) : Except Problem Spot := do s.part key (← index s.value key)

/-- The parts of a spot. -/
def parts (s : Spot) : Except Problem (List Spot) := do
  (← children s.value).mapM fun (key, value) => s.part key value

/-- The place of a spot. -/
def place (s : Spot) : Except Problem Place :=
  match s.trace with
  | .along keys => .ok keys.reverse
  | _ => .error (.notPlace s.value)

end Spot

/-- What a name in scope stands for. -/
inductive Binding where
  | value (name : Text) (j : Json)
  | function (name : Text) (params : List Text) (meaning : Filter)
  | argument (name : Text) (meaning : Filter) (scope : List Binding)
  | label (name : Text) (id : Nat)

/-- Names in scope, innermost first. -/
abbrev Scope := List Binding

namespace Scope

/-- The data of a reference. -/
def reference? (n : Text) : Scope → Option Json
  | [] => none
  | .value name j :: rest => if name = n then some j else reference? n rest
  | _ :: rest => reference? n rest

/-- The label of a name. -/
def label? (n : Text) : Scope → Option Nat
  | [] => none
  | .label name id :: rest => if name = n then some id else label? n rest
  | _ :: rest => label? n rest

/-- What a call stands for: parameters, a filter, and the scope of the filter. -/
def call? (n : Text) (arity : Nat) : Scope → Option (List Text × Filter × Scope)
  | [] => none
  | .function name params meaning :: rest =>
    if name = n ∧ params.length = arity then
      some (params, meaning, .function name params meaning :: rest)
    else call? n arity rest
  | .argument name meaning scope :: rest =>
    if name = n ∧ arity = 0 then some ([], meaning, scope) else call? n arity rest
  | _ :: rest => call? n arity rest

/-- The scope with references added. -/
def withValues (scope : Scope) (named : List (Text × Json)) : Scope :=
  named.foldl (fun scope (n, j) => .value n j :: scope) scope

end Scope

mutual

/-- The references of a pattern and what they stand for in data. -/
def Pattern.take : Pattern → Json → Except Problem (List (Text × Json))
  | .name n, j => .ok [(n, j)]
  | .list parts, j =>
    match j with
    | .null | .array _ => takeItems parts 0 j
    | j => .error (.expectedArray j)
  | .record parts, j => takeFields parts j

/-- The references of the parts of a list pattern from a position on. -/
def takeItems : List Pattern → Nat → Json → Except Problem (List (Text × Json))
  | [], _, _ => .ok []
  | p :: rest, i, j => do
    let first ← p.take (← index j (.whole i))
    return first ++ (← takeItems rest (i + 1) j)

/-- The references of the parts of a record pattern. -/
def takeFields : List (Text × Pattern) → Json → Except Problem (List (Text × Json))
  | [], _ => .ok []
  | (name, p) :: rest, j => do
    let first ← p.take (← index j (.string name))
    return first ++ (← takeFields rest j)

end

/-- Data as text in a format. -/
def formatted (name : Text) (j : Json) : Except Problem Text :=
  if name = "@text" then .ok (Function.asText j)
  else if name = "@json" then .ok j.shown
  else .error (.unknownFormat name)

/-- The whole numbers or doubles from one bound up to another. -/
def rangeFrom : Nat → Json → Json → Json → Results Json
  | 0, _, _, _ => .failed .outOfFuel
  | fuel + 1, first, last, step =>
    let goesOn : Bool :=
      match order step (.whole 0) with
      | .gt => order first last == .lt
      | .lt => order first last == .gt
      | .eq => order first last == .lt
    if goesOn then
      .next first fun _ =>
        match sum first step with
        | .ok next => rangeFrom fuel next last step
        | .error p => .failed p
    else .done

/-- Every way to choose one result of each, the last chosen first. -/
def choices {α : Type} : List (Unit → Results α) → Results (List α)
  | [] => .one []
  | first :: rest =>
    (choices rest).bind fun later => (first ()).map fun a => a :: later

/-- As `choices`, with the first chosen first. -/
def choicesInOrder {α : Type} : List (Unit → Results α) → Results (List α)
  | [] => .one []
  | first :: rest =>
    (first ()).bind fun a => (choicesInOrder rest).map fun later => a :: later

/-- The results of a step on a state for each item in turn: every state it gives
is shown, and the last one is the next state. -/
def scanWith {α β : Type} (step : β → α → Results β) (out : α → β → Results β) :
    β → Results α → Results β
  | _, .done => .done
  | _, .failed p => .failed p
  | state, .next a rest => go a (fun last => scanWith step out last (rest ())) state (step state a)
where
  /-- The states given for one item, and then what follows the last of them. -/
  go (a : α) (following : β → Results β) (last : β) : Results β → Results β
    | .done => following last
    | .failed p => .failed p
    | .next b more => (out a b).append fun _ => go a following b (more ())

/-- The results of a filter at a spot. -/
def eval : Nat → Scope → Filter → Spot → Results Spot
  | 0, _, _, _ => .failed .outOfFuel
  | fuel + 1, scope, f, s =>
    let values (f : Filter) (j : Json) : Results Json :=
      (eval fuel scope f ⟨j, .unasked⟩).map Spot.value
    let made (results : Results Json) : Results Spot := results.map s.fresh
    let places (f : Filter) (j : Json) : Except Problem (List Place) := do
      (← (eval fuel scope f ⟨j, .along []⟩).all).mapM Spot.place
    let changed (place : Filter) (change : Json → Except Problem Json) : Except Problem Spot := do
      return s.fresh (← (← places place s.value).foldlM (fun j p => changeAt change p j) s.value)
    match f with
    | .identity => .one s
    | .literal j => .one (s.fresh j)
    | .joined parts =>
      made ((choices (parts.map fun part _ => values part s.value)).map fun texts =>
        .string (texts.flatMap Function.asText))
    | .format name of =>
      (values of s.value).bind fun j =>
        .ofExcept do return s.fresh (.string (← formatted name j))
    | .pipe first second => (eval fuel scope first s).bind fun s => eval fuel scope second s
    | .comma first second => (eval fuel scope first s).append fun _ => eval fuel scope second s
    | .alternative first second =>
      match (eval fuel scope first s).filterQuietly fun s => truthy s.value with
      | .done => eval fuel scope second s
      | results => results
    | .conjunction first second =>
      made ((values first s.value).bind fun a =>
        if truthy a then (values second s.value).map fun b => .boolean (truthy b)
        else .one (.boolean false))
    | .disjunction first second =>
      made ((values first s.value).bind fun a =>
        if truthy a then .one (.boolean true)
        else (values second s.value).map fun b => .boolean (truthy b))
    | .operator op left right =>
      made ((values right s.value).bind fun b =>
        (values left s.value).bind fun a => .ofExcept (op.apply a b))
    | .negate of => made ((values of s.value).bind fun j => .ofExcept (negated j))
    | .keep of =>
      made ((values of s.value).bind fun j =>
        if (double? j).isSome then .one j else .failed (.sign "plus" j))
    | .update .assign place value =>
      (values value s.value).bind fun j => .ofExcept (changed place fun _ => .ok j)
    | .update .modify place value =>
      .ofExcept do
        let ps ← places place s.value
        let (j, dropped) ← ps.foldlM (fun (j, dropped) p => do
          let old ← getAt j p
          match ← (values value old).first? with
          | some new => return (← changeAt (fun _ => .ok new) p j, dropped)
          | none => return (j, p :: dropped)) (s.value, ([] : List Place))
        return s.fresh (← deleteAll dropped j)
    | .update (.compute op) place value =>
      (values value s.value).bind fun b => .ofExcept (changed place fun a => op.apply a b)
    | .update .default place value =>
      (values value s.value).bind fun b =>
        .ofExcept (changed place fun a => .ok (if truthy a then a else b))
    | .index of key =>
      (values key s.value).bind fun k =>
        (eval fuel scope of s).bind fun s => .ofExcept (s.descend k)
    | .slice of first last =>
      let bound (f : Option Filter) : Results Json := (f.map fun f => values f s.value).getD (.one .null)
      (bound first).bind fun first => (bound last).bind fun last =>
        (eval fuel scope of s).bind fun s =>
          .ofExcept (s.descend (.object [("end", last), ("start", first)]))
    | .iterate of =>
      (eval fuel scope of s).bind fun s =>
        match s.parts with
        | .ok parts => .ofList parts
        | .error p => .failed p
    | .attempt body handler =>
      (eval fuel scope body s).handle fun
        | .leaving label => .failed (.leaving label)
        | .outOfFuel => .failed .outOfFuel
        | p => (handler.map fun h => eval fuel scope h (s.fresh p.data)).getD .done
    | .list none => .one (s.fresh (.array []))
    | .list (some of) => .ofExcept do return s.fresh (.array (← (values of s.value).all))
    | .record fields =>
      let field (key value : Filter) : Results (Text × Json) :=
        (values key s.value).bind fun k =>
          match k with
          | .string name => (values value s.value).map fun j => (name, j)
          | k => .failed (.objectKey k)
      made ((choicesInOrder (fields.map fun (key, value) _ => field key value)).map Json.ofFields)
    | .branch condition yes no =>
      (values condition s.value).bind fun c =>
        if truthy c then eval fuel scope yes s
        else (no.map fun no => eval fuel scope no s).getD (.one s)
    | .fold source pattern start step =>
      (eval fuel scope start s).bind fun state =>
        .ofExcept ((values source s.value).foldFrom (fun state j => do
          let inner := scope.withValues (← pattern.take j)
          let states ← (eval fuel inner step state).all
          return states.getLast?.getD (s.fresh .null)) state)
    | .scan source pattern start step out =>
      (eval fuel scope start s).bind fun state =>
        let inner (j : Json) (go : Scope → Results Spot) : Results Spot :=
          match pattern.take j with
          | .ok named => go (scope.withValues named)
          | .error p => .failed p
        scanWith (fun state j => inner j fun inner => eval fuel inner step state)
          (fun j state => inner j fun inner =>
            (out.map fun out => eval fuel inner out state).getD (.one state))
          state (values source s.value)
    | .naming source pattern body =>
      (values source s.value).bind fun j =>
        match pattern.take j with
        | .ok named => eval fuel (scope.withValues named) body s
        | .error p => .failed p
    | .define name params meaning body => eval fuel (.function name params meaning :: scope) body s
    | .reference name =>
      match scope.reference? name with
      | some j => .one (s.fresh j)
      | none => .failed (.undefinedReference name)
    | .label name body =>
      (eval fuel (.label name fuel :: scope) body s).handle fun
        | .leaving label => if label = fuel then .done else .failed (.leaving label)
        | p => .failed p
    | .leave name =>
      match scope.label? name with
      | some label => .failed (.leaving label)
      | none => .failed (.undefinedLabel name)
    | .call name args =>
      match scope.call? name args.length with
      | some (params, meaning, home) =>
        let bindParam (inner : Scope) (param : Text) (arg : Filter) : Results Scope :=
          if param.head? = some (Text.byte '$') then
            (values arg s.value).map fun j =>
              .value param j :: .argument (param.drop 1) (.literal j) [] :: inner
          else .one (.argument param arg scope :: inner)
        let scopes : Results Scope := (params.zip args).foldl
          (fun scopes (param, arg) => scopes.bind fun inner => bindParam inner param arg)
          (.one home)
        scopes.bind fun inner => eval fuel inner meaning s
      | none =>
        match Function.find? name args.length with
        | some function =>
          made ((choices (args.map fun arg _ => values arg s.value)).bind fun args =>
            .ofExcept (function.apply args s.value))
        | none => special fuel name args s values places
where
  /-- The functions that are no functions of data. -/
  special (fuel : Nat) (name : Text) (args : List Filter) (s : Spot)
      (values : Filter → Json → Results Json)
      (places : Filter → Json → Except Problem (List Place)) : Results Spot :=
    match args with
    | [] => if name = "empty" then .done else .failed (.undefinedFunction name 0)
    | [arg] =>
      if name = "path" then
        match places arg s.value with
        | .ok all => .ofList (all.map fun p => s.fresh (.array p))
        | .error p => .failed p
      else if name = "getpath" then
        (values arg s.value).bind fun path =>
          match path with
          | .array keys =>
            .ofExcept (keys.foldlM (fun s key => s.descend key) s)
          | path => .failed (.inapplicable "getpath" [path] s.value)
      else .failed (.undefinedFunction name 1)
    | [first, last, step] =>
      if name = "_range" then
        (choices [fun _ => values first s.value, fun _ => values last s.value,
          fun _ => values step s.value]).bind fun
          | [first, last, step] => (rangeFrom fuel first last step).map s.fresh
          | _ => .done
      else .failed (.undefinedFunction name 3)
    | args => .failed (.undefinedFunction name args.length)

/-- The functions that are no functions of data, with their numbers of
arguments. -/
def specials : List (String × Nat) := [("empty", 0), ("path", 1), ("getpath", 1), ("_range", 3)]

end EplLang.Query
