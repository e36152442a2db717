import EplLang.Proofs.Reading.Members

/-!
# Precedence

An expression can be written down with parentheses only where the grammar needs them. Every
operator binds at a level (`Kind.binding`) and every expression holds together at one
(`Node.level`), loosest first:

* 0: functions, whose body goes on as far as it can;
* 1: `and` and `or`;
* 2: comparisons, of which none is an operand of another;
* 3: `+` and `-`; 4: `*` and `/`; 5: `^`;
* 6: the signs `-`, `!` and `#` before an operand;
* 7: index paths, of which none directly follows another;
* 8: everything else.

Each place in an expression demands a level, and what is looser than that stands in parentheses
(`Style.fit`). An operator demands its own level on the left and the next one on the right, so
that operators of one level are read from the left.

**Reading gives the expression back** (`expression_of_terse`), before everything that no
expression goes on with. A rule of a level takes its first operand and then goes on in rounds, so
the rule is not over when it has read the left operand of an expression of its level. The
statement about a level therefore says what happens in all later rounds as well
(`fold_fitted`, and `operand_fitted` for calls and index paths), and is proved along the left
operands. Where an expression of a level ends is decided by the level at which the next token
binds (`Ends`).
-/

set_option autoImplicit false

namespace EplLang

/-! ## Levels -/

/-- The level at which a token binds to the expression before it. An equals sign stands with
calls and index paths, since it may turn a group into parameters. -/
def Kind.binding : Kind → Nat
  | .and | .or => 1
  | .equal | .notEqual | .less | .lessEqual | .greater | .greaterEqual => 2
  | .plus | .minus => 3
  | .times | .divide => 4
  | .power => 5
  | .assign | .openParen | .openBracket | .dot => 6
  | _ => 0

/-- The level that an operator demands on its left. Comparisons do not chain. -/
def Kind.leftDemand (op : Kind) : Nat := if op.binding = 2 then 3 else op.binding

/-- The level at which an expression holds together. -/
def Node.level : Node → Nat
  | .function .. => 0
  | .condition _ op _ | .arithmetic _ op _ => op.binding
  | .unary .. | .length _ => 6
  | .index .. => 7
  | _ => 8

namespace Style

variable (s : Style)

/-! ## The tokens of an expression -/

/-- The tokens of an expression, in parentheses if it is looser than demanded. -/
def fit (demand : Nat) (e : Node) (tokens : List Token) : List Token :=
  if e.level < demand then s.grouped tokens else tokens

mutual

/-- The tokens of an expression, with parentheses only where they are needed. -/
def terse : Node → List Token
  | .literal x => [s.scalar x]
  | .name n => [s.ident n]
  | .container .array ⟨entries⟩ => s.bracketed (s.listed (terseElements entries))
  | .container .object ⟨entries⟩ => s.bracketed (terseFields entries)
  | .arithmetic left op right | .condition left op right =>
    s.fit op.leftDemand left (terse left) ++
      s.operator op :: s.fit (op.binding + 1) right (terse right)
  | .unary op operand => s.mark op :: s.fit 6 operand (terse operand)
  | .length operand => s.mark .length :: s.fit 6 operand (terse operand)
  | .index base path => s.fit 8 base (terse base) ++ terseSegments path
  | .call callee args => s.fit 7 callee (terse callee) ++ s.grouped (s.listed (terseAll args))
  | .function _ params [⟨_, .give value⟩] =>
    s.grouped (s.listed (params.map fun n => [s.ident n])) ++
      s.mark .assign :: s.mark .greater :: terse value
  | _ => []

/-- The elements of an array. -/
def terseElements : List (Scalar × Option Node) → List (List Token)
  | [] => []
  | (_, none) :: rest => terseElements rest
  | (_, some e) :: rest => terse e :: terseElements rest

/-- The entries of an object. -/
def terseFields : List (Scalar × Option Node) → List Token
  | [] => []
  | (_, none) :: rest => terseFields rest
  | (k, some e) :: rest => s.ident k.bare :: s.mark .assign :: (terse e ++ terseFields rest)

/-- Expressions one after another. -/
def terseAll : List Node → List (List Token)
  | [] => []
  | e :: rest => terse e :: terseAll rest

/-- An index path. -/
def terseSegments : List Node → List Token
  | [] => []
  | e :: rest =>
    (match s.dotName e with
      | some t => [s.mark .dot, s.ident t]
      | none => s.bracketed (terse e)) ++ terseSegments rest

end

theorem terseAll_eq_map (args : List Node) : s.terseAll args = args.map s.terse := by
  induction args with
  | nil => rfl
  | cons e rest ih => rw [terseAll, List.map_cons, ih]

theorem terseSegments_eq_flatMap (path : List Node) :
    s.terseSegments path = path.flatMap (s.segment s.terse) := by
  induction path with
  | nil => rfl
  | cons e rest ih =>
      rw [terseSegments, List.flatMap_cons, ih]
      rfl

theorem terseFields_eq_flatMap (entries : List (Scalar × Option Node)) :
    s.terseFields entries = entries.flatMap (s.field s.terse) := by
  induction entries with
  | nil => rfl
  | cons entry rest ih =>
      obtain ⟨k, value⟩ := entry
      cases value <;> simp [terseFields, field, ih]

theorem terseElements_eq (entries : List (Scalar × Option Node)) :
    s.terseElements entries = Parser.elements s.terse entries := by
  induction entries with
  | nil => rfl
  | cons entry rest ih =>
      obtain ⟨k, value⟩ := entry
      cases value <;> simp [terseElements, Parser.elements, ih]

/-- An expression as it is written where a level is demanded. -/
def fitted (demand : Nat) (e : Node) : List Token := s.fit demand e (s.terse e)

theorem fitted_of_lt {demand : Nat} {e : Node} (loose : e.level < demand) :
    s.fitted demand e = s.grouped (s.terse e) := if_pos loose

theorem fitted_of_le {demand : Nat} {e : Node} (tight : demand ≤ e.level) :
    s.fitted demand e = s.terse e := if_neg (Nat.not_lt.mpr tight)

/-- Where an expression is not of a level, the next one may be demanded as well. -/
theorem fitted_succ {demand : Nat} {e : Node} (other : e.level ≠ demand) :
    s.fitted demand e = s.fitted (demand + 1) e := by
  by_cases loose : e.level < demand
  · rw [s.fitted_of_lt loose, s.fitted_of_lt (by omega)]
  · rw [s.fitted_of_le (by omega), s.fitted_of_le (by omega)]

theorem length_terse_le (demand : Nat) (e : Node) :
    (s.terse e).length ≤ (s.fitted demand e).length := by
  unfold fitted fit
  split
  · rw [length_grouped]
    omega
  · exact Nat.le_refl _

end Style

/-- The expressions that have such a text: operators are those of their tables, arrays have the
keys that their elements count, objects have distinct names for keys, and functions give the value
of an expression. -/
inductive Node.Expression : Node → Prop where
  | literal {x : Scalar} : Expression (.literal x)
  | name {n : Text} : Expression (.name n)
  | unary {op : Kind} {e : Node} : op = .minus ∨ op = .not → Expression e → Expression (.unary op e)
  | length {e : Node} : Expression e → Expression (.length e)
  | call {callee : Node} {args : List Node} : Expression callee → (∀ e ∈ args, Expression e) →
      Expression (.call callee args)
  | index {base : Node} {path : List Node} : Expression base → path ≠ [] →
      (∀ e ∈ path, Expression e) → Expression (.index base path)
  | container {shape : Shape} {items : Items Node} : items.Distinct → items.Plain shape →
      (∀ entry ∈ items.entries, entry.2.isSome) →
      (∀ k e, (k, some e) ∈ items.entries → Expression e) → Expression (.container shape items)
  | function {site : Nat} {params : List Text} {line : Int} {value : Node} : Expression value →
      Expression (.function site params [⟨line, .give value⟩])
  | arithmetic {left right : Node} {op : Kind} : op ∈ arithmeticOps → Expression left →
      Expression right → Expression (.arithmetic left op right)
  | condition {left right : Node} {op : Kind} : op ∈ conditionOps → Expression left →
      Expression right → Expression (.condition left op right)

namespace Parser

/-! ## Where an expression of a level ends -/

/-- No token goes on with an expression of a level. -/
def Ends (level : Nat) (rest : List Token) : Prop := (kindAt rest 0).binding < level

theorem Ends.mono {level level' : Nat} {rest : List Token} (ends : Ends level rest)
    (le : level ≤ level') : Ends level' rest := Nat.lt_of_lt_of_le ends le

theorem Ends.not_mem {level : Nat} {rest : List Token} (ends : Ends level rest) {ops : List Kind}
    (among : ∀ op ∈ ops, level ≤ op.binding) : kindAt rest 0 ∉ ops := fun member =>
  Nat.not_lt.mpr (among _ member) ends

theorem Closed.ends {rest : List Token} (closed : Closed rest) : Ends 2 rest := by
  have outside := closed.not_continuing
  unfold Ends
  generalize kindAt rest 0 = kind at outside
  revert outside
  cases kind <;> simp [continuing, Kind.binding]

section Rules

variable {g : Grammar} {s : Style} {depth : Nat} {e : Node} {rest after : List Token}
  {Q : Node → Prop}

theorem operator_kind {op : Kind} (operator : op ∈ Node.arithmeticOps ∨ op ∈ Node.conditionOps) :
    (s.operator op).kind ≠ .assign := by
  rcases operator with operator | operator <;> fin_cases operator <;>
    simp [Style.operator, Style.mark, Style.word]

theorem begins_fit {demand : Nat} {tokens : List Token} (begins : Begins tokens) :
    Begins (s.fit demand e tokens) := by
  unfold Style.fit
  split
  · exact begins_grouped
  · exact begins

theorem begins_terse (shape : e.Expression) : Begins (s.terse e) := by
  induction shape with
  | @literal x => exact begins_scalar s x
  | @name n => exact begins_ident s n
  | unary operator => rcases operator with rfl | rfl <;> exact begins_cons (by simp [Style.mark])
  | length => exact begins_cons (by simp [Style.mark])
  | call _ _ callee =>
      rw [Style.terse]
      exact (begins_fit callee).append (by simp [kindAt, Style.grouped, Style.mark])
  | index _ somewhere _ base =>
      rw [Style.terse, s.terseSegments_eq_flatMap]
      refine (begins_fit base).append ?_
      rcases kindAt_segments s s.terse somewhere [] with same | same <;>
        rw [List.append_nil] at same <;> simp [same]
  | @container shape items => cases shape <;> exact begins_cons (by simp [Style.mark])
  | function => exact begins_cons (by simp [Style.mark])
  | arithmetic operator _ _ left =>
      rw [Style.terse]
      exact (begins_fit left).append (operator_kind (.inl operator))
  | condition operator _ _ left =>
      rw [Style.terse]
      exact (begins_fit left).append (operator_kind (.inr operator))

/-! ## The rules that occur inside others -/

/-- The rules that occur inside others read back what is written with fewer than `depth`
tokens. -/
structure Grammar.Obeys (g : Grammar) (s : Style) (depth : Nat) : Prop where
  expression {e : Node} {rest : List Token} : e.Expression → (s.terse e).length < depth →
    Closed rest → Reads g.expression e.Like (s.terse e ++ rest) rest
  operand {e : Node} {rest : List Token} : e.Expression → (s.fitted 6 e).length < depth →
    Ends 6 rest → Reads g.operand e.Like (s.fitted 6 e ++ rest) rest

theorem Grammar.Obeys.takes (obeys : g.Obeys s depth) (shape : e.Expression)
    (short : (s.terse e).length < depth) : g.Takes e (s.terse e) :=
  ⟨begins_terse shape, obeys.expression shape short⟩

/-! ## Operands -/

theorem operand_grouped {tokens : List Token} (takes : g.Takes e tokens)
    (assign : kindAt rest 0 ≠ .assign) (next : ∀ n, e.Like n → Reads (suffixes g n) Q rest after) :
    Reads (operand g) Q (s.grouped tokens ++ rest) after :=
  .bind (.peek (parenthesis_group takes assign)) next

theorem atom_container (obeys : g.Obeys s depth) {shape : Shape} {items : Items Node}
    (distinct : items.Distinct) (plain : items.Plain shape)
    (present : ∀ entry ∈ items.entries, entry.2.isSome)
    (parts : ∀ k e, (k, some e) ∈ items.entries → e.Expression)
    (short : (s.terse (.container shape items)).length ≤ depth) :
    Reads (atom g) (Node.container shape items).Like (s.terse (.container shape items) ++ rest)
      rest := by
  have takes (fits : ∀ k e, (k, some e) ∈ items.entries → (s.terse e).length < depth) :
      g.TakesAll s.terse items.entries := by
    intro entry member
    obtain ⟨e, same⟩ := Option.isSome_iff_exists.mp (present entry member)
    have found : (entry.1, some e) ∈ items.entries := same ▸ member
    exact ⟨e, same, obeys.takes (parts entry.1 e found) (fits entry.1 e found)⟩
  cases shape with
  | array =>
      simp only [Style.terse, s.terseElements_eq, Style.length_bracketed] at short ⊢
      refine .peek (containerLiteral_array distinct plain (takes fun k e member => ?_))
      have among : s.terse e ∈ elements s.terse items.entries :=
        List.mem_filterMap.mpr ⟨(k, some e), member, rfl⟩
      have shorter := length_le_listed (s := s) among
      omega
  | object =>
      simp only [Style.terse, s.terseFields_eq_flatMap, Style.length_bracketed] at short ⊢
      refine .peek (containerLiteral_object distinct plain (takes fun k e member => ?_))
      have shorter := length_le_flatMap (f := s.field s.terse) member
      simp only [Style.field, List.length_cons] at shorter
      omega

theorem binding_le (op : Kind) : op.binding ≤ 6 := by
  cases op <;> simp [Kind.binding]

theorem operand_loose (obeys : g.Obeys s depth) (shape : e.Expression) {demand : Nat}
    (loose : e.level < demand) (short : (s.fitted demand e).length ≤ depth)
    (assign : kindAt rest 0 ≠ .assign) (next : ∀ n, e.Like n → Reads (suffixes g n) Q rest after) :
    Reads (operand g) Q (s.fitted demand e ++ rest) after := by
  rw [s.fitted_of_lt loose] at short ⊢
  rw [Style.length_grouped] at short
  exact operand_grouped (obeys.takes shape (by omega)) assign next

/-- An operand, with calls and index paths after it. `next` is what becomes of the rounds after
the last of those that belong to the expression; an index path is over before them. -/
theorem operand_fitted (obeys : g.Obeys s depth) (shape : e.Expression) {demand : Nat}
    (least : 7 ≤ demand) (most : demand ≤ 8) (short : (s.fitted demand e).length ≤ depth)
    (assign : kindAt rest 0 ≠ .assign)
    (ends : demand = 7 → e.level = 7 → kindAt rest 0 ≠ .openBracket ∧ kindAt rest 0 ≠ .dot)
    (next : ∀ n, e.Like n → Reads (suffixes g n) Q rest after) :
    Reads (operand g) Q (s.fitted demand e ++ rest) after := by
  have whole := shape
  induction shape generalizing demand Q rest after with
  | @literal x =>
      rw [s.fitted_of_le (by exact most)]
      refine .bind (.peek ?_) next
      cases x <;> exact .advance (.pure rfl)
  | @name n =>
      rw [s.fitted_of_le (by exact most)]
      exact .bind (P := (Node.name n).Like) (.peek (.advance (.pure rfl))) next
  | container distinct plain present parts =>
      rw [s.fitted_of_le (by exact most)] at short ⊢
      exact .bind (atom_container obeys distinct plain present parts short) next
  | @call callee args first others ih =>
      have text : s.fitted demand (.call callee args) =
          s.fitted 7 callee ++ s.grouped (s.listed (args.map s.terse)) := by
        rw [s.fitted_of_le (by exact most), Style.terse, s.terseAll_eq_map]
        rfl
      rw [text, List.length_append, Style.length_grouped] at short
      rw [text, List.append_assoc]
      have kind : kindAt (s.grouped (s.listed (args.map s.terse)) ++ rest) 0 = .openParen := rfl
      refine ih (Nat.le_refl 7) (by decide) (by omega) (by rw [kind]; decide)
        (fun _ _ => by rw [kind]; decide)
        (fun n like => suffixes_call (fun e member => ?_) fun parsed alike => ?_) first
      · have shorter := length_le_listed (s := s) (List.mem_map_of_mem (f := s.terse) member)
        exact obeys.takes (others e member) (by omega)
      · refine next _ ?_
        simp only [Node.Like, Node.bare] at like ⊢
        rw [like, alike]
  | @index base path first somewhere others ih =>
      by_cases loose : demand = 8
      · exact operand_loose obeys whole (show 7 < demand by omega) short assign next
      · have text : s.fitted demand (.index base path) =
            s.fitted 8 base ++ path.flatMap (s.segment s.terse) := by
          rw [s.fitted_of_le (show demand ≤ 7 by omega), Style.terse, s.terseSegments_eq_flatMap]
          rfl
        rw [text, List.length_append] at short
        rw [text, List.append_assoc]
        obtain ⟨bracket, dot⟩ := ends (by omega) rfl
        have assign : kindAt (path.flatMap (s.segment s.terse) ++ rest) 0 ≠ .assign := by
          rcases kindAt_segments s s.terse somewhere rest with same | same <;>
            simp [same]
        refine ih (by decide) (Nat.le_refl 8) (by omega) assign (by simp)
          (fun n like => suffixes_index somewhere (fun e member bare => ?_) bracket dot
            fun parsed alike => ?_) first
        · have shorter := length_le_flatMap (f := s.segment s.terse) member
          simp only [Style.segment, bare, Style.length_bracketed] at shorter
          exact obeys.takes (others e member) (by omega)
        · refine next _ ?_
          simp only [Node.Like, Node.bare] at like ⊢
          rw [like, alike]
  | unary => exact operand_loose obeys whole (show 6 < demand by omega) short assign next
  | length => exact operand_loose obeys whole (show 6 < demand by omega) short assign next
  | function => exact operand_loose obeys whole (show 0 < demand by omega) short assign next
  | @arithmetic left right op =>
      have loose : op.binding < demand := Nat.lt_of_le_of_lt (binding_le op) (by omega)
      exact operand_loose obeys whole loose short assign next
  | @condition left right op =>
      have loose : op.binding < demand := Nat.lt_of_le_of_lt (binding_le op) (by omega)
      exact operand_loose obeys whole loose short assign next

/-- An operand with signs before it, where nothing goes on with it. -/
theorem operand_six (obeys : g.Obeys s depth) (shape : e.Expression)
    (short : (s.fitted 6 e).length ≤ depth) (ends : Ends 6 rest) :
    Reads (operand g) e.Like (s.fitted 6 e ++ rest) rest := by
  have detached : kindAt rest 0 ∉ attaching := ends.not_mem (by decide)
  simp only [attaching, List.mem_cons, List.not_mem_nil, or_false, not_or] at detached
  obtain ⟨assign, paren, bracket, dot⟩ := detached
  have stop (n : Node) (like : e.Like n) : Reads (suffixes g n) e.Like rest rest :=
    suffixes_stop like paren bracket dot
  by_cases signed : e.level = 6
  · rw [s.fitted_of_le (Nat.le_of_eq signed.symm)] at short ⊢
    refine .bind ?_ stop
    cases shape with
    | @unary op operand sign inner =>
        have read := obeys.operand inner short ends
        have like (n : Node) (like : operand.Like n) :
            (Node.unary op operand).Like (.unary (s.mark op).kind n) := by
          simp only [Node.Like, Node.bare] at like ⊢
          rw [like]
          rfl
        refine .peek ?_
        rcases sign with rfl | rfl
        · exact .advance (.bind read fun n like' => .pure (like n like'))
        · exact .advance (.bind read fun n like' => .pure (like n like'))
    | @length operand inner =>
        have read := obeys.operand inner short ends
        refine .peek (.advance (.bind read fun n like => .pure ?_))
        simp only [Node.Like, Node.bare] at like ⊢
        rw [like]
    | literal | name | call | index | container | function => cases signed
    | arithmetic operator =>
        fin_cases operator <;> cases signed
    | condition operator =>
        fin_cases operator <;> cases signed
  · rw [s.fitted_succ signed] at short ⊢
    exact operand_fitted obeys shape (Nat.le_refl 7) (by decide) short assign
      (fun _ _ => ⟨bracket, dot⟩) stop

/-! ## Operators -/

/-- An expression is two operands with an operator between them. -/
inductive Joins : Node → Node → Kind → Node → Prop where
  | arithmetic {left right : Node} {op : Kind} : op ∈ Node.arithmeticOps →
      Joins (.arithmetic left op right) left op right
  | condition {left right : Node} {op : Kind} : op ∈ Node.conditionOps →
      Joins (.condition left op right) left op right

omit rest after Q in
theorem Joins.terse_eq {left right : Node} {op : Kind} (joins : Joins e left op right) :
    s.terse e = s.fitted op.leftDemand left ++
      s.operator op :: s.fitted (op.binding + 1) right := by
  cases joins <;> rfl

/-- An expression of the level of an operator has one. -/
theorem joins_of_level (shape : e.Expression) (least : 1 ≤ e.level) (most : e.level ≤ 5) :
    ∃ left op right, Joins e left op right ∧ op.binding = e.level ∧ left.Expression ∧
      right.Expression := by
  cases shape with
  | arithmetic operator first second => exact ⟨_, _, _, .arithmetic operator, rfl, first, second⟩
  | condition operator first second => exact ⟨_, _, _, .condition operator, rfl, first, second⟩
  | function => exact absurd least (by simp [Node.level])
  | literal | name | call | index | container | unary | length =>
      exact absurd most (by simp [Node.level])

theorem operator_ends {op : Kind} (operator : op ∈ Node.arithmeticOps ∨ op ∈ Node.conditionOps)
    (more : List Token) : Ends (op.binding + 1) (s.operator op :: more) := by
  rcases operator with operator | operator <;> fin_cases operator <;>
    simp [Ends, kindAt, Kind.binding, Style.operator, Style.mark, Style.word]

omit Q after in
theorem Joins.operator {left right : Node} {op : Kind} (joins : Joins e left op right) :
    op ∈ Node.arithmeticOps ∨ op ∈ Node.conditionOps := by
  cases joins with
  | arithmetic operator => exact .inl operator
  | condition operator => exact .inr operator

/-- A rule reads back every expression that is written where a level is demanded, before what
does not go on with it. -/
def Covers (s : Style) (depth level : Nat) (x : Parse Node) : Prop :=
  ∀ {e : Node} {rest : List Token}, e.Expression → (s.fitted level e).length ≤ depth →
    Ends level rest → Reads x e.Like (s.fitted level e ++ rest) rest

/-- Operands joined to the left by the operators of a level. `others` is what becomes of the rounds
after the last operator of the expression. -/
theorem fold_fitted {next : Parse Node} {round : Node → Parse (Round Node Node)} {level : Nat}
    (least : 1 ≤ level) (most : level ≤ 5) (chains : level ≠ 2)
    (higher : Covers s depth (level + 1) next)
    (step : ∀ {e left right n : Node} {op : Kind} {rest : List Token}, Joins e left op right →
      op.binding = level → left.Like n → right.Expression →
      Reads next right.Like (s.fitted (level + 1) right ++ rest) rest →
      Reads (round n) (Round.Meets e.Like fun _ => False)
        (s.operator op :: (s.fitted (level + 1) right ++ rest)) rest)
    (shape : e.Expression) (short : (s.fitted level e).length ≤ depth)
    (ends : Ends (level + 1) rest)
    (others : ∀ n, e.Like n → Reads (repeated n round) Q rest after) :
    Reads (next >>= fun first => repeated first round) Q (s.fitted level e ++ rest) after := by
  induction size : (s.terse e).length using Nat.strong_induction_on generalizing e rest Q after with
  | _ size ih =>
      by_cases same : e.level = level
      · obtain ⟨left, op, right, joins, binding, first, second⟩ :=
          joins_of_level shape (by omega) (by omega)
        have demand : op.leftDemand = level := by
          rw [Kind.leftDemand, if_neg (by omega)]
          omega
        have text : s.fitted level e =
            s.fitted level left ++ s.operator op :: s.fitted (level + 1) right := by
          rw [s.fitted_of_le (by omega), joins.terse_eq, demand, binding, same]
        have follow : Ends (level + 1) (s.operator op :: (s.fitted (level + 1) right ++ rest)) := by
          have ends := operator_ends (s := s) joins.operator (s.fitted (level + 1) right ++ rest)
          rwa [binding, same] at ends
        have shorter := s.length_terse_le level left
        have longer : (s.terse left).length < (s.terse e).length := by
          rw [← s.fitted_of_le (Nat.le_of_eq same.symm), text, List.length_append, List.length_cons]
          omega
        rw [text, List.length_append, List.length_cons] at short
        rw [text, List.append_assoc, List.cons_append]
        refine ih (s.terse left).length (size ▸ longer) first (by omega) follow
          (fun n like => ?_) rfl
        refine .again (step joins (binding.trans same) like second
          (higher second (by omega) ends)) ?_ others
        simp only [List.length_append, List.length_cons]
        omega
      · rw [s.fitted_succ same] at short ⊢
        exact .bind (higher shape short ends) others

theorem leftChain_covers {ops : List Kind} {next : Parse Node} {level : Nat} (least : 3 ≤ level)
    (most : level ≤ 5) (higher : Covers s depth (level + 1) next)
    (table : ∀ op ∈ Node.arithmeticOps, op.binding = level → op ∈ ops)
    (tight : ∀ op ∈ ops, level ≤ op.binding) : Covers s depth level (leftChain ops next) := by
  intro e rest shape short ends
  refine fold_fitted (by omega) most (by omega) higher ?_ shape short (ends.mono (by omega))
    fun n like => .done (.seesOperator ?_)
  · intro e left right n op rest joins binding like second read
    cases joins with
    | condition operator =>
        have loose : ∀ op ∈ Node.conditionOps, op.binding ≤ 2 := by decide
        have := loose op operator
        omega
    | arithmetic operator =>
        have kind : ∀ op ∈ Node.arithmeticOps, s.operator op = s.mark op := by
          intro op operator
          fin_cases operator <;> rfl
        have noAssign : kindAt (s.fitted (level + 1) right ++ rest) 0 ≠ .assign :=
          (begins_fit (begins_terse second)).ne rest (by simp)
        have sees : (decide (kindAt (s.mark op :: (s.fitted (level + 1) right ++ rest)) 0 ∈ ops) &&
            kindAt (s.mark op :: (s.fitted (level + 1) right ++ rest)) 1 != .assign) = true := by
          simpa [kindAt, Style.mark] using
            ⟨table op operator binding, noAssign⟩
        rw [kind op operator]
        refine .seesOperator ?_
        rw [sees]
        refine .advance (.bind read fun m like' => .pure ?_)
        simp only [Node.Like, Node.bare, Round.meets_again] at like like' ⊢
        rw [like, like']
        rfl
  · rw [decide_eq_false (ends.not_mem tight)]
    exact .pure like

/-- The operators that compare bind more tightly than those that join conditions. -/
theorem operator_of_condition {op : Kind} (operator : op ∈ Node.conditionOps) :
    op.binding = 2 ∧ op ∈ relational ∧ s.operator op = s.mark op ∨
      op.binding = 1 ∧ logical? (s.operator op) = some op := by
  fin_cases operator
  case «6» | «7» => exact .inr ⟨rfl, rfl⟩
  all_goals exact .inl ⟨rfl, by decide, rfl⟩

theorem binding_of_arithmetic : ∀ op ∈ Node.arithmeticOps, 3 ≤ op.binding := by decide

theorem comparison_covers (higher : Covers s depth 3 (additive g)) :
    Covers s depth 2 (comparison g) := by
  intro e rest shape short ends
  have stop : kindAt rest 0 ∉ relational := ends.not_mem (by decide)
  by_cases same : e.level = 2
  · obtain ⟨left, op, right, joins, binding, first, second⟩ :=
      joins_of_level shape (by omega) (by omega)
    have demand : op.leftDemand = 3 := by rw [Kind.leftDemand, if_pos (by omega)]
    have text : s.terse e = s.fitted 3 left ++ s.operator op :: s.fitted 3 right := by
      rw [joins.terse_eq, demand, binding, same]
    have follow : Ends 3 (s.operator op :: (s.fitted 3 right ++ rest)) := by
      have follow := operator_ends (s := s) joins.operator (s.fitted 3 right ++ rest)
      rwa [binding, same] at follow
    rw [s.fitted_of_le (by omega), text] at short ⊢
    rw [List.length_append, List.length_cons] at short
    rw [List.append_assoc, List.cons_append]
    refine .bind (higher first (by omega) follow) fun n like => .peek ?_
    have read := higher second (by omega) (ends.mono (by decide))
    cases joins with
    | arithmetic operator =>
        have := binding_of_arithmetic op operator
        omega
    | condition operator =>
        obtain ⟨_, compares, mark⟩ | ⟨loose, _⟩ := operator_of_condition (s := s) operator
        · rw [mark, if_pos (show (s.mark op).kind ∈ relational from compares)]
          refine .advance (.bind read fun m like' => .pure ?_)
          simp only [Node.Like, Node.bare] at like like' ⊢
          rw [like, like']
          rfl
        · omega
  · rw [s.fitted_succ same] at short ⊢
    exact comparison_stop (higher shape short (ends.mono (by decide))) stop

/-- Conditions joined by `and` and `or`, where no token goes on with an expression. -/
theorem expression_fitted (higher : Covers s depth 2 (comparison g)) (shape : e.Expression)
    (short : (s.fitted 1 e).length ≤ depth) (closed : Closed rest) :
    Reads (expression g) e.Like (s.fitted 1 e ++ rest) rest := by
  refine fold_fitted (Nat.le_refl 1) (by decide) (by decide) higher ?_ shape short closed.ends
    fun n like => .done (.peek_closed closed fun t closes => ?_)
  · intro e left right n op rest joins binding like second read
    cases joins with
    | arithmetic operator =>
        have := binding_of_arithmetic op operator
        omega
    | condition operator =>
        obtain ⟨tight, _⟩ | ⟨_, logical⟩ := operator_of_condition (s := s) operator
        · omega
        · refine .peek ?_
          rw [logical]
          refine .advance (.bind read fun m like' => .pure ?_)
          simp only [Node.Like, Node.bare, Round.meets_again] at like like' ⊢
          rw [like, like']
  · rw [logical?_of_closes closes]
    exact .pure like

/-! ## Functions -/

theorem expression_function (obeys : g.Obeys s depth) {value : Node} (inner : value.Expression)
    (site : Nat) (params : List Text) (line : Int)
    (short : (s.terse (.function site params [⟨line, .give value⟩])).length ≤ depth)
    (closed : Closed rest) :
    Reads (expression g) (Node.function site params [⟨line, .give value⟩]).Like
      (s.terse (.function site params [⟨line, .give value⟩]) ++ rest) rest := by
  simp only [Style.terse, List.length_append, List.length_cons, Style.length_grouped] at short
  simp only [Style.terse, List.append_assoc, List.cons_append]
  have takes := obeys.takes inner (by omega)
  have name (a : Text) : g.Takes (.name a) [s.ident a] :=
    obeys.takes (e := .name a) .name (by simp [Style.terse]; omega)
  have detached := closed.not_attaching
  simp only [attaching, List.mem_cons, List.not_mem_nil, or_false, not_or] at detached
  obtain ⟨_, paren, bracket, dot⟩ := detached
  have read : Reads (functionBody g params) (Node.function site params [⟨line, .give value⟩]).Like
      (s.mark .assign :: s.mark .greater :: (s.terse value ++ rest)) rest := by
    refine .expect rfl (.expect rfl (.sees_else ?_ (.peek_kind fun t _ => ?_)))
    · exact takes.begins.ne rest (by simp)
    · refine .bind (takes.reads closed) fun n like => .freshSite fun site => .pure ?_
      simp only [Node.Like, Node.bare, Node.bareBlock] at like ⊢
      rw [like]
      rfl
  have whole := parenthesis_params name read
  refine expression_of_operand (.bind (.peek whole) fun n like => ?_) closed
  exact suffixes_stop like paren bracket dot

/-! ## All expressions -/

/-- One level of the grammar from the one below. -/
theorem expression_terse (obeys : g.Obeys s depth) (shape : e.Expression)
    (short : (s.terse e).length ≤ depth) (closed : Closed rest) :
    Reads (expression g) e.Like (s.terse e ++ rest) rest := by
  have operands : Covers s depth 6 (operand g) := operand_six obeys
  have factors : Covers s depth 5 (factor g) :=
    leftChain_covers (by decide) (by decide) operands (by decide) (by decide)
  have terms : Covers s depth 4 (term g) :=
    leftChain_covers (by decide) (by decide) factors (by decide) (by decide)
  have sums : Covers s depth 3 (additive g) :=
    leftChain_covers (by decide) (by decide) terms (by decide) (by decide)
  by_cases loosest : e.level = 0
  · cases shape with
    | function inner => exact expression_function obeys inner _ _ _ short closed
    | literal | name | unary | length | call | index | container => cases loosest
    | arithmetic operator => fin_cases operator <;> cases loosest
    | condition operator => fin_cases operator <;> cases loosest
  · rw [← s.fitted_of_le (Nat.one_le_iff_ne_zero.mpr loosest)] at short ⊢
    exact expression_fitted (comparison_covers sums) shape short closed

theorem grammar_obeys (s : Style) (depth : Nat) : (grammar depth).Obeys s depth := by
  induction depth with
  | zero => exact ⟨fun _ short => absurd short (Nat.not_lt_zero _),
      fun _ short => absurd short (Nat.not_lt_zero _)⟩
  | succ depth ih =>
      constructor
      · intro e rest shape short closed
        exact expression_terse ih shape (Nat.le_of_lt_succ short) closed
      · intro e rest shape short ends
        exact operand_six ih shape (Nat.le_of_lt_succ short) ends

end Rules

end Parser

/-- **Precedence and associativity.** An expression written with parentheses only where its levels
need them is read back as that expression, and exactly its tokens are taken, whatever follows that
does not go on with it. -/
theorem expression_of_terse (s : Style) {e : Node} (shape : e.Expression) {depth : Nat}
    (enough : (s.terse e).length ≤ depth) {rest : List Token} (closed : Parser.Closed rest) :
    Parser.Reads (Parser.expression (Parser.grammar depth)) e.Like (s.terse e ++ rest) rest :=
  Parser.expression_terse (Parser.grammar_obeys s depth) shape enough closed

/-- A sign, a power, a product of a sum, and a function as an operand, before a name. -/
theorem expression_of_terse_mixed :
    ∃ (s : Style) (e : Node) (rest : List Token),
      e = .condition
        (.arithmetic (.arithmetic (.unary .minus (.name "a")) .power (.name "b")) .times
          (.arithmetic (.name "c") .plus (.name "d"))) .and
        (.function 0 ["x"] [⟨1, .give (.name "x")⟩]) ∧
      (s.terse e).map Token.kind = [.minus, .identifier, .power, .identifier, .times, .openParen,
        .identifier, .plus, .identifier, .closeParen, .keyword, .openParen, .openParen,
        .identifier, .closeParen, .assign, .greater, .identifier, .closeParen] ∧
      Parser.kindAt rest 0 = .identifier ∧
      Parser.Reads (Parser.expression (Parser.grammar 19)) e.Like (s.terse e ++ rest) rest := by
  have product : (Node.arithmetic (.arithmetic (.unary .minus (.name "a")) .power (.name "b"))
      .times (.arithmetic (.name "c") .plus (.name "d"))).Expression :=
    .arithmetic (by decide) (.arithmetic (by decide) (.unary (.inl rfl) .name) .name)
      (.arithmetic (by decide) .name .name)
  have shape : (Node.condition _ .and (.function 0 ["x"] [⟨1, .give (.name "x")⟩])).Expression :=
    .condition (by decide) product (.function .name)
  exact ⟨⟨1, fun _ => true⟩, _, [{ kind := .identifier, line := 2, text := "y" }], rfl, rfl, rfl,
    expression_of_terse _ shape (by decide) (Parser.closed_cons rfl)⟩

end EplLang
