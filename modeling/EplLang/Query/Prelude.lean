import EplLang.Query.Eval

/-!
# Functions defined by filters

The functions that are defined in the notation of queries itself, and the check
that a query names nothing but what is defined. The check comes before any result:
a query with an undefined name has none.
-/

set_option autoImplicit false

namespace EplLang.Query

/-- The definitions of the functions that are filters. -/
def preludeText : Text := "
def map(f): [.[] | f];
def select(f): if f then . else empty end;
def recurse(f): def r: ., (f | r); r;
def recurse(f; cond): def r: ., (f | select(cond) | r); r;
def recurse: recurse(.[]?);
def in(xs): . as $x | xs | has($x);
def inside(xs): . as $x | xs | contains($x);
def keys_unsorted: keys;
def with_entries(f): to_entries | map(f) | from_entries;
def map_values(f): .[] |= f;
def while(cond; update): def w: if cond then ., (update | w) else empty end; w;
def until(cond; update): def u: if cond then . else update | u end; u;
def repeat(f): def r: ., (f | r); r;
def range($end): _range(0; $end; 1);
def range($start; $end): _range($start; $end; 1);
def range($start; $end; $step): _range($start; $end; $step);
def sort_by(f): _sort_by(map([f]));
def group_by(f): _group_by(map([f]));
def unique_by(f): _unique_by(map([f]));
def min_by(f): _min_by(map([f]));
def max_by(f): _max_by(map([f]));
def arrays: select(type == \"array\");
def objects: select(type == \"object\");
def iterables: select(type | . == \"array\" or . == \"object\");
def booleans: select(type == \"boolean\");
def numbers: select(type == \"number\");
def strings: select(type == \"string\");
def nulls: select(. == null);
def values: select(. != null);
def scalars: select(type | . != \"array\" and . != \"object\");
def add(f): reduce f as $x (null; . + $x);
def first: .[0];
def last: .[-1];
def first(f): label $out | f | ., break $out;
def last(f): reduce f as $x (null; $x);
def nth($n): .[$n];
def limit($n; f):
  if $n > 0 then label $out | foreach f as $x (0; . + 1; $x, if . >= $n then break $out else empty end)
  else empty end;
def nth($n; f): last(limit($n + 1; f));
def isempty(f): label $out | (f | false, break $out), true;
def any(source; condition): isempty(first(source | condition or empty)) | not;
def all(source; condition): isempty(first(source | condition and empty));
def any(f): any(.[]; f);
def all(f): all(.[]; f);
def any: any(.);
def all: all(.);
def isvalid(f): try (f | true) catch false;
def paths: path(..) | select(. != []);
def paths(f): path(.. | select(f)) | select(. != []);
def leaf_paths: paths(scalars);
def del(f): delpaths([path(f)]);
def toarray: if type == \"array\" then . else [.] end;
def walk(f):
  def w: if type == \"array\" then map(w) elif type == \"object\" then map_values(w) else . end | f;
  w;
def combinations:
  if length == 0 then [] else .[0][] as $x | (.[1:] | combinations) as $rest | [$x] + $rest end;
"

/-- Definitions as names in scope: each sees those before it. -/
def scopeOf (defined : List (Text × List Text × Filter)) : Scope :=
  defined.foldl (fun scope (name, params, meaning) => .function name params meaning :: scope) []

/-- The scope of every query. -/
def prelude : Scope :=
  let ts := tokens preludeText
  match (definitions (fuelFor ts)).run' ts with
  | .ok defined => scopeOf defined
  | .error _ => []

/-! ## Names -/

/-- A name that is defined. -/
inductive Known where
  | function (name : Text) (arity : Nat)
  | reference (name : Text)
  | label (name : Text)
  deriving DecidableEq

mutual

/-- The references of a pattern. -/
def Pattern.names : Pattern → List Known
  | .name n => [.reference n]
  | .list parts => namesOf parts
  | .record parts => namesOfFields parts

/-- The references of patterns. -/
def namesOf : List Pattern → List Known
  | [] => []
  | p :: rest => p.names ++ namesOf rest

/-- The references of the parts of a record pattern. -/
def namesOfFields : List (Text × Pattern) → List Known
  | [] => []
  | (_, p) :: rest => p.names ++ namesOfFields rest

end

/-- The names that a parameter defines. -/
def paramNames (param : Text) : List Known :=
  if param.head? = some (Text.byte '$') then [.reference param, .function (param.drop 1) 0]
  else [.function param 0]

/-- Whether a function is defined for every query. -/
def isBuiltIn (name : Text) (arity : Nat) : Bool :=
  (prelude.call? name arity).isSome || (Function.find? name arity).isSome ||
    specials.any fun (n, a) => n.text == name && a == arity

/-- A name that must be defined. -/
def require (known : List Known) (name : Known) (problem : Problem) : Except Problem Unit :=
  if name ∈ known then .ok () else .error problem

mutual

/-- Refuses a filter that names something undefined. -/
def check (known : List Known) : Filter → Except Problem Unit
  | .identity | .literal _ => .ok ()
  | .joined parts => checkAll known parts
  | .format name of => do
    check known of
    if name ≠ "@text" ∧ name ≠ "@json" then throw (.unknownFormat name)
  | .pipe a b | .comma a b | .alternative a b | .conjunction a b | .disjunction a b => do
    check known a
    check known b
  | .operator _ a b | .update _ a b | .index a b => do
    check known b
    check known a
  | .negate of | .keep of | .iterate of => check known of
  | .slice of first last => do
    checkOption known first
    checkOption known last
    check known of
  | .attempt body handler => do
    check known body
    checkOption known handler
  | .list of => checkOption known of
  | .record fields => checkFields known fields
  | .branch condition yes no => do
    check known condition
    check known yes
    checkOption known no
  | .fold source pattern start step => do
    check known start
    check known source
    check (pattern.names ++ known) step
  | .scan source pattern start step out => do
    check known start
    check known source
    check (pattern.names ++ known) step
    checkOption (pattern.names ++ known) out
  | .naming source pattern body => do
    check known source
    check (pattern.names ++ known) body
  | .define name params meaning body => do
    let known := .function name params.length :: known
    check (params.flatMap paramNames ++ known) meaning
    check known body
  | .call name args => do
    if !(isBuiltIn name args.length) then
      require known (.function name args.length) (.undefinedFunction name args.length)
    checkAll known args
  | .reference name => require known (.reference name) (.undefinedReference name)
  | .label name body => check (.label name :: known) body
  | .leave name => require known (.label name) (.undefinedLabel name)

/-- Refuses filters that name something undefined. -/
def checkAll (known : List Known) : List Filter → Except Problem Unit
  | [] => .ok ()
  | f :: rest => do
    check known f
    checkAll known rest

/-- Refuses a filter, if there is one, that names something undefined. -/
def checkOption (known : List Known) : Option Filter → Except Problem Unit
  | none => .ok ()
  | some f => check known f

/-- Refuses fields that name something undefined. -/
def checkFields (known : List Known) : List (Filter × Filter) → Except Problem Unit
  | [] => .ok ()
  | (key, value) :: rest => do
    check known key
    check known value
    checkFields known rest

end

/-- The results of a query on data. -/
def Filter.results (fuel : Nat) (f : Filter) (j : Json) : Results Json :=
  match check [] f with
  | .ok () => (eval fuel prelude f ⟨j, .unasked⟩).map Spot.value
  | .error p => .failed p

end EplLang.Query
