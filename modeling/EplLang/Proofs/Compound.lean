import EplLang.Proofs.Following
import EplLang.Proofs.Printing

/-!
# Compound assignment

An operator before the equals sign of an assignment joins the target with the value. Written out,
the assignment has the target once more on its right, then the operator, and then the value in
parentheses: whatever operators are in the value, it is taken as a whole. The two ways of writing
give one program (`compound_desugars`).

The value and the segments of the target are any tokens that are one expression and nothing more
(`Whole`). They are read alike wherever they stand (`Whole.reads`), which is the work of
`EplLang.Proofs.Following`; the tokens around them are known, and the rules are followed on them one
by one. Written out, the segments of a path are read twice, so the function literals in them and
after them have other numbers.
-/

set_option autoImplicit false

namespace EplLang.Parser

/-! ## Following the rules -/

section Parts

variable {g : Grammar} {c d : Cursor} {e e' : Node} {op : Token} {tokens : List Token} {line : Int}
  {site : Nat}

section Two

variable (first : operand g c = .ok (e, ⟨op :: tokens, line, site⟩))
  (operator : op.kind ∈ compoundOps) (plain : kindAt tokens 0 ≠ .assign)
  (second : operand g ⟨tokens, line, site⟩ = .ok (e', d)) (last : d.tokens = [])
include first operator plain second last

/-- Two operands with an operator of arithmetic between them and nothing after them are a whole sum,
at whatever level the operator is. -/
theorem additive_of_two : additive g c = .ok (.arithmetic e op.kind e', d) := by
  have none {ops : List Kind} (table : .endOfInput ∉ ops) : kindAt d.tokens 0 ∉ ops := by
    rw [last]
    exact table
  have shorter : d.tokens.length ≤ tokens.length := by simp [last]
  have level : op.kind ∈ [.power] ∨ op.kind ∈ [.times, .divide] ∧ op.kind ∉ [.power] ∨
      op.kind ∈ [.plus, .minus] ∧ op.kind ∉ [.power] ∧ op.kind ∉ [.times, .divide] := by
    revert operator
    generalize op.kind = kind
    revert kind
    decide
  have right : factor g ⟨tokens, line, site⟩ = .ok (e', d) :=
    leftChain_of_one second (none (by decide))
  rcases level with power | ⟨times, noPower⟩ | ⟨plus, noPower, noTimes⟩
  · have factors : factor g c = _ :=
      leftChain_of_two first power plain second shorter (none (by decide))
    exact leftChain_of_one (leftChain_of_one factors (none (by decide))) (none (by decide))
  · have left : factor g c = _ := leftChain_of_one first noPower
    have terms : term g c = _ := leftChain_of_two left times plain right shorter (none (by decide))
    exact leftChain_of_one terms (none (by decide))
  · have left : term g c = _ := leftChain_of_one (leftChain_of_one first noPower) noTimes
    have right : term g ⟨tokens, line, site⟩ = _ := leftChain_of_one right (none (by decide))
    exact leftChain_of_two left plus plain right shorter (none (by decide))

theorem expression_of_two : expression g c = .ok (.arithmetic e op.kind e', d) := by
  have closed : Closed d.tokens := by
    rw [last]
    exact nofun
  have compared : comparison g c = .ok (.arithmetic e op.kind e', d) := by
    rw [comparison, bind_of_ok (additive_of_two first operator plain second last), peek_run,
      if_neg (by rw [kind_peek]; exact closed.not_mem (by decide))]
    rfl
  rw [expression, bind_of_ok compared]
  refine repeated_of_done ?_
  rw [logicalRound, peek_run, logical?_of_closes closed.peek]
  rfl

end Two

/-- An index path after an operand, with no call and no other path after it. -/
theorem suffixes_path (n : Node) {path : List Node}
    (starts : kindAt c.tokens 0 = .openBracket ∨ kindAt c.tokens 0 = .dot)
    (read : Parser.path g c = .ok (path, d)) (shorter : d.tokens.length < c.tokens.length)
    (ends : kindAt d.tokens 0 ∉ [.openParen, .openBracket, .dot]) :
    suffixes g n c = .ok (.index n path, d) := by
  refine repeated_of_again (b := Node.index n path) ?_ shorter (suffixes_none _ ends)
  rw [suffixRound, peek_run, kind_peek, if_neg (by rcases starts with same | same <;> simp [same]),
    if_pos starts, bind_of_ok read]
  rfl

/-- An expression in parentheses, with nothing after them. -/
theorem operand_of_group {opening closing : Token} (opens : opening.kind = .openParen)
    (closes : closing.kind = .closeParen) {after : Nat} (begins : kindAt tokens 0 ≠ .closeParen)
    (read : g.expression ⟨tokens, line, site⟩ = .ok (e, ⟨[closing], line, after⟩)) :
    operand g ⟨opening :: tokens, line, site⟩ = .ok (e, ⟨[], line, after⟩) := by
  have inner : (some <$> g.expression) ⟨tokens, line, site⟩ =
      .ok (some e, ⟨[closing], line, after⟩) := by
    rw [map_eq_pure_bind, bind_of_ok read]
    rfl
  have comma : (kindAt [closing] 0 == .comma) = false := by simp [kindAt, closes]
  have group : parenthesis g ⟨opening :: tokens, line, site⟩ = .ok (e, ⟨[], line, after⟩) := by
    rw [parenthesis, advance_run, sees_run, beq_false_of_ne begins, if_neg Bool.false_ne_true,
      bind_of_ok inner]
    beta_reduce
    rw [sees_run, comma]
    cases (some e).bind name? <;> (dsimp only; rw [expect_run _ closes]; rfl)
  have atomic : atom g ⟨opening :: tokens, line, site⟩ = .ok (e, ⟨[], line, after⟩) := by
    rw [atom, peek_run]
    have first : (Cursor.peek ⟨opening :: tokens, line, site⟩ 0).kind = .openParen := opens
    rw [first]
    exact group
  rw [operand, bind_of_ok atomic]
  exact suffixes_none e (by simp [kindAt])

theorem operand_of_name (id : Token) (name : id.kind = .identifier) :
    operand g ⟨id :: tokens, line, site⟩ = suffixes g (.name id.text) ⟨tokens, line, site⟩ := by
  have atomic : atom g ⟨id :: tokens, line, site⟩ = .ok (.name id.text, ⟨tokens, line, site⟩) := by
    rw [atom, peek_run]
    have first : (Cursor.peek ⟨id :: tokens, line, site⟩ 0).kind = .identifier := name
    rw [first]
    rfl
  rw [operand, bind_of_ok atomic]

/-! ## Assignments -/

theorem assignment_plain (equals : Token) (assigns : equals.kind = .assign)
    (read : expression g ⟨tokens, line, site⟩ = .ok (e, d)) (target : Node) :
    assignment g target ⟨equals :: tokens, line, site⟩ = .ok (e, d) := by
  have none : compound ⟨equals :: tokens, line, site⟩ =
      .ok (none, ⟨equals :: tokens, line, site⟩) := by
    rw [compound, peek_run, peek_run]
    have first : (Cursor.peek ⟨equals :: tokens, line, site⟩ 0).kind = .assign := assigns
    rw [first]
    rfl
  rw [assignment, bind_of_ok none, expect_run _ assigns, bind_of_ok read]
  rfl

theorem assignment_compound (op equals : Token) (operator : op.kind ∈ compoundOps)
    (assigns : equals.kind = .assign) (read : expression g ⟨tokens, line, site⟩ = .ok (e, d))
    (target : Node) :
    assignment g target ⟨op :: equals :: tokens, line, site⟩ =
      .ok (.arithmetic target op.kind e, d) := by
  have some : compound ⟨op :: equals :: tokens, line, site⟩ =
      .ok (some op.kind, ⟨equals :: tokens, line, site⟩) := by
    rw [compound, peek_run, peek_run]
    have first : (Cursor.peek ⟨op :: equals :: tokens, line, site⟩ 0).kind = op.kind := rfl
    have second : (Cursor.peek ⟨op :: equals :: tokens, line, site⟩ 1).kind = .assign := assigns
    rw [first, second, decide_eq_true operator]
    rfl
  rw [assignment, bind_of_ok some, expect_run _ assigns, bind_of_ok read]
  rfl

theorem statement_of_binding (id : Token) (name : id.kind = .identifier)
    (read : assignment g (.name id.text) ⟨tokens, line, site⟩ = .ok (e, d))
    (starts : startsBinding (kindAt tokens 0) (kindAt tokens 1) = true) :
    statement g ⟨id :: tokens, line, site⟩ = .ok (.bind id.text e, d) := by
  rw [statement, peek_run, peek_run, peek_run, kind_peek, kind_peek, kind_peek,
    if_pos ⟨name, starts⟩, binding, advance_run, bind_of_ok read]
  rfl

theorem statement_of_path (id : Token) (name : id.kind = .identifier)
    (starts : kindAt tokens 0 = .openBracket ∨ kindAt tokens 0 = .dot) {path : List Node}
    (first : Parser.path g ⟨tokens, line, site⟩ = .ok (path, c))
    (ends : kindAt c.tokens 0 ∉ [.openParen, .openBracket, .dot])
    (second : assignment g (.index (.name id.text) path) c = .ok (e, d)) :
    statement g ⟨id :: tokens, line, site⟩ = .ok (.assign (.name id.text) path e, d) := by
  have none : startsBinding (kindAt tokens 0) (kindAt tokens 1) = false := by
    rcases starts with same | same <;> simp [startsBinding, same, compoundOps]
  rw [statement, peek_run, peek_run, peek_run, kind_peek, kind_peek, kind_peek,
    if_neg (by simp [kindAt] at none ⊢; simp [none]), if_pos ⟨name, starts⟩, indexed, advance_run,
    bind_of_ok first, bind_of_ok (suffixes_none _ ends)]
  dsimp only
  rw [bind_of_ok second]
  rfl

end Parts

/-! ## Whole expressions -/

/-- The tokens of a list that are no newlines. -/
def solid (tokens : List Token) : List Token := tokens.filter (·.kind ≠ .newline)

theorem solid_cons {t : Token} (real : t.kind ≠ .newline) (tokens : List Token) :
    solid (t :: tokens) = t :: solid tokens := by
  simp [solid, real]

theorem solid_append (first second : List Token) :
    solid (first ++ second) = solid first ++ solid second := List.filter_append ..

theorem solid_grouped (s : Style) (tokens : List Token) :
    solid (s.grouped tokens) = s.mark .openParen :: (solid tokens ++ [s.mark .closeParen]) := by
  simp [solid, Style.grouped, Style.mark]

theorem solid_bracketed (s : Style) (tokens : List Token) :
    solid (s.bracketed tokens) =
      s.mark .openBracket :: (solid tokens ++ [s.mark .closeBracket]) := by
  simp [solid, Style.bracketed, Style.mark]

theorem tokensWeight_append (first second : List Token) :
    tokensWeight (first ++ second) = tokensWeight first + tokensWeight second := by
  induction first with
  | nil => simp [tokensWeight]
  | cons t rest ih =>
      rw [List.cons_append, tokensWeight, tokensWeight, ih]
      omega

theorem tokensWeight_mark (s : Style) (kind : Kind) (tokens : List Token) :
    tokensWeight (s.mark kind :: tokens) = 1 + tokensWeight tokens := rfl

theorem tokensWeight_ident (s : Style) (n : Text) (tokens : List Token) :
    tokensWeight (s.ident n :: tokens) = 1 + tokensWeight tokens := rfl

theorem tokensWeight_grouped (s : Style) (tokens : List Token) :
    tokensWeight (s.grouped tokens) = tokensWeight tokens + 2 := by
  rw [Style.grouped, tokensWeight_mark, tokensWeight_append, tokensWeight_mark, tokensWeight]
  omega

/-- Tokens that are one expression and nothing more. -/
def Whole (tokens : List Token) (e : Node) : Prop :=
  ∃ d, expression (grammar (tokensWeight tokens + 1)) (start 0 tokens) = .ok (e, d) ∧ d.tokens = []

section Wholes

variable {tokens : List Token} {e : Node} (whole : Whole tokens e) {depth : Nat}
  (deep : tokensWeight tokens < depth)
include whole deep

/-- A whole expression is read wherever it stands before an end or a closing bracket. -/
theorem Whole.expression_run (tail : List Token) (ends : kindAt tail 0 ∈ enders) (line : Int)
    (site : Nat) :
    ∃ after, expression (grammar depth) ⟨solid tokens ++ tail, line, site⟩ =
      .ok (e.renumber (· + site), ⟨tail, line, after⟩) := by
  obtain ⟨d, ran, none⟩ := whole
  let k : Context := ⟨tail, line, ends⟩
  have follows := expression_follows deep k site ran
  have here : k.on site (start 0 tokens) = ⟨solid tokens ++ tail, line, site⟩ := by
    simp [k, Context.on, start, solid]
  have there : k.on site d = ⟨tail, line, d.site + site⟩ := by
    simp [k, Context.on, none]
  rw [here, there] at follows
  exact ⟨_, follows⟩

theorem Whole.reads {tail : List Token} (ends : kindAt tail 0 ∈ enders) :
    Reads (grammar (depth + 1)).expression
      (fun n => n.renumber (fun _ => 0) = e.renumber fun _ => 0) (solid tokens ++ tail) tail := by
  rintro ⟨_, line, site⟩ rfl
  obtain ⟨after, read⟩ := whole.expression_run deep tail ends line site
  exact ⟨_, _, read, rfl, Node.renumber_renumber ..⟩

/-- In parentheses it is taken as a whole. -/
theorem Whole.operand_run (s : Style) (line : Int) (site : Nat) :
    ∃ after, operand (grammar (depth + 1)) ⟨solid (s.grouped tokens), line, site⟩ =
      .ok (e.renumber (· + site), ⟨[], line, after⟩) := by
  obtain ⟨after, read⟩ := whole.expression_run deep [s.mark .closeParen]
    (List.mem_cons_of_mem _ List.mem_cons_self) line site
  refine ⟨after, ?_⟩
  rw [solid_grouped]
  refine operand_of_group rfl rfl (fun closes => ?_) read
  exact fails_expression _ (by rw [closes]; decide) _ read

/-- Behind a target and an operator it is the right operand. -/
theorem Whole.joined (s : Style) {op : Kind} (operator : op ∈ compoundOps) {line : Int} {site : Nat}
    {c : Cursor} {target : Node}
    (first : operand (grammar (depth + 1)) c =
      .ok (target, ⟨s.mark op :: solid (s.grouped tokens), line, site⟩)) :
    ∃ after, expression (grammar (depth + 1)) c =
      .ok (.arithmetic target op (e.renumber (· + site)), ⟨[], line, after⟩) := by
  obtain ⟨after, second⟩ := whole.operand_run deep s line site
  refine ⟨after, expression_of_two first operator ?_ second rfl⟩
  rw [solid_grouped]
  exact nofun

end Wholes

/-! ## Index paths -/

/-- A segment of an index path: a name, or tokens that are an expression. -/
inductive Segment where
  | dot (name : Text)
  | bracket (tokens : List Token) (e : Node) (whole : Whole tokens e)

namespace Segment

/-- How a segment is written. -/
def tokens (s : Style) : Segment → List Token
  | .dot name => [s.mark .dot, s.ident name]
  | .bracket tokens _ _ => s.bracketed tokens

/-- The node of a segment. -/
def node : Segment → Node
  | .dot name => .text name
  | .bracket _ e _ => e

/-- How a path is written. -/
def all (s : Style) (path : List Segment) : List Token := path.flatMap (tokens s)

theorem solid_all_dot (s : Style) (name : Text) (path : List Segment) :
    solid (all s (.dot name :: path)) = s.mark .dot :: s.ident name :: solid (all s path) := by
  simp [solid, all, tokens, Style.mark, Style.ident]

theorem solid_all_bracket (s : Style) {inner : List Token} {e : Node} (whole : Whole inner e)
    (path : List Segment) :
    solid (all s (.bracket inner e whole :: path)) =
      s.mark .openBracket :: (solid inner ++ s.mark .closeBracket :: solid (all s path)) := by
  rw [all, List.flatMap_cons, solid_append, tokens, solid_bracketed]
  simp [all]

theorem kindAt_all (s : Style) {path : List Segment} (somewhere : path ≠ []) (rest : List Token) :
    kindAt (solid (all s path) ++ rest) 0 = .openBracket ∨
      kindAt (solid (all s path) ++ rest) 0 = .dot := by
  obtain ⟨segment, path, rfl⟩ := List.exists_cons_of_ne_nil somewhere
  cases segment with
  | dot name =>
      rw [solid_all_dot]
      exact .inr rfl
  | bracket inner e whole =>
      rw [solid_all_bracket]
      exact .inl rfl

theorem solid_all_ne_nil (s : Style) {path : List Segment} (somewhere : path ≠ []) :
    solid (all s path) ≠ [] := by
  intro none
  have first := kindAt_all s somewhere []
  simp [none, kindAt] at first

/-- A path is read segment by segment. -/
theorem all_reads (s : Style) (path : List Segment) {depth : Nat}
    (deep : tokensWeight (all s path) < depth) (rest : List Token)
    (bracket : kindAt rest 0 ≠ .openBracket) (dot : kindAt rest 0 ≠ .dot) :
    Reads (Parser.path (grammar (depth + 1)))
      (fun parsed => Node.renumberAll (fun _ => 0) parsed =
        Node.renumberAll (fun _ => 0) (path.map node))
      (solid (all s path) ++ rest) rest := by
  refine .along (I := fun left parsed => Node.renumberAll (fun _ => 0) (parsed ++ left.map node) =
      Node.renumberAll (fun _ => 0) (path.map node) ∧ tokensWeight (all s left) < depth)
    (fun left => solid (all s left) ++ rest) ?_ ?_ ⟨rfl, deep⟩
  · rintro parsed ⟨same, _⟩
    refine .sees_else dot (.sees_else bracket (.pure ?_))
    simpa using same
  · rintro segment left parsed ⟨same, deep⟩
    refine .inl ?_
    cases segment with
    | dot name =>
        simp only [solid_all_dot]
        refine ⟨.sees_then rfl (.advance (.expect rfl (.pure ⟨?_, ?_⟩))), by simp⟩
        · simpa [node, Style.ident] using same
        · rw [all, List.flatMap_cons, tokensWeight_append] at deep
          exact Nat.lt_of_le_of_lt (Nat.le_add_left ..) deep
    | bracket inner e whole =>
        simp only [solid_all_bracket, List.cons_append, List.append_assoc]
        rw [all, List.flatMap_cons, tokensWeight_append, tokens, Style.bracketed, tokensWeight,
          tokensWeight_append] at deep
        refine ⟨.sees_else (ne_of_beq_false rfl) (.sees_then rfl (.advance ?_)), by simp; omega⟩
        refine .bind (whole.reads (by omega) (List.mem_cons_of_mem _ (List.mem_cons_of_mem _
          List.mem_cons_self))) fun n alike => .expect rfl (.pure ⟨?_, ?_⟩)
        · rw [← same]
          simp [Node.renumberAll_append, Node.renumberAll, node, alike]
        · rw [all]
          omega

end Segment

/-! ## Whole programs -/

/-- A program of one statement on a line, with the mark of the line if it has one. -/
def single (line : Int) (n : Node) : Block :=
  (if line = noLine then [] else [⟨line, .newLine⟩]) ++ [⟨line, n⟩]

theorem renumberBlock_single (ρ : Nat → Nat) (line : Int) (n : Node) :
    Node.renumberBlock ρ (single line n) = single line (n.renumber ρ) := by
  unfold single
  split <;> rfl

theorem parse_of_statement {t : Token} {tokens : List Token} (opens : t.kind = .identifier)
    {depth : Nat} (deep : tokensWeight (t :: tokens) = depth) {n : Node} {line : Int} {after : Nat}
    (read : statement (grammar depth) ⟨t :: solid tokens, endLine (t :: tokens), 0⟩ =
      .ok (n, ⟨[], line, after⟩)) :
    parse (t :: tokens) = .ok (single t.line n) := by
  have starts : start 0 (t :: tokens) = ⟨t :: solid tokens, endLine (t :: tokens), 0⟩ := by
    simp [start, solid, opens]
  have body : (grammar (depth + 1)).block (start 0 (t :: tokens)) =
      .ok (single t.line n, ⟨[], line, after⟩) := by
    rw [starts]
    refine repeated_of_again (b := (single t.line n, t.line)) (d := ⟨[], line, after⟩) ?_
      (Nat.zero_lt_succ _) (repeated_of_done rfl)
    have first : Cursor.peek ⟨t :: solid tokens, endLine (t :: tokens), 0⟩ 0 = t := rfl
    rw [blockRound, peek_run, first, if_neg (by simp [opens]), bind_of_ok read]
    rfl
  have whole : program (grammar (depth + 1)) (start 0 (t :: tokens)) =
      .ok (single t.line n, ⟨[], line, after⟩) := by
    rw [program, bind_of_ok body]
    rfl
  rw [parse, parseFrom, deep, whole]
  rfl

/-! ## The two ways of writing -/

section Writing

variable (s : Style) (x : Text) {op : Kind} (operator : op ∈ compoundOps) {value : List Token}
  {e : Node} (whole : Whole value e)
include operator whole

omit whole in
theorem solid_operator (tokens : List Token) :
    solid (s.mark op :: tokens) = s.mark op :: solid tokens := by
  refine solid_cons (fun same => ?_) tokens
  have newline : op = .newline := same
  rw [newline] at operator
  exact absurd operator (by decide)

omit operator whole in
theorem solid_equals (tokens : List Token) :
    solid (s.mark .assign :: tokens) = s.mark .assign :: solid tokens :=
  solid_cons (by simp [Style.mark]) tokens

omit operator whole in
theorem solid_ident (tokens : List Token) :
    solid (s.ident x :: tokens) = s.ident x :: solid tokens :=
  solid_cons (by simp [Style.ident]) tokens

omit whole in
/-- An operator goes on with no operand. -/
theorem compoundOp_ends : op ∉ [.openParen, .openBracket, .dot] := by
  revert op
  decide

theorem bind_compound :
    parse (s.ident x :: s.mark op :: s.mark .assign :: value) =
      .ok (single s.line (.bind x (.arithmetic (.name x) op (e.renumber (· + 0))))) := by
  have deep : tokensWeight (s.ident x :: s.mark op :: s.mark .assign :: value) =
      tokensWeight value + 3 := by
    simp only [tokensWeight_ident, tokensWeight_mark]
    omega
  have inside : tokensWeight value < tokensWeight value + 3 := by omega
  obtain ⟨after, read⟩ := whole.expression_run inside [] List.mem_cons_self
    (endLine (s.ident x :: s.mark op :: s.mark .assign :: value)) 0
  rw [List.append_nil] at read
  have starts : startsBinding op .assign = true := by simp [startsBinding, operator]
  have assigned := assignment_compound (s.mark op) (s.mark .assign) operator rfl read (.name x)
  have bound := statement_of_binding (s.ident x) rfl assigned starts
  rw [← solid_equals, ← solid_operator s operator] at bound
  exact parse_of_statement rfl deep bound

theorem bind_written :
    parse (s.ident x :: s.mark .assign :: s.ident x :: s.mark op :: s.grouped value) =
      .ok (single s.line (.bind x (.arithmetic (.name x) op (e.renumber (· + 0))))) := by
  have deep : tokensWeight (s.ident x :: s.mark .assign :: s.ident x :: s.mark op ::
      s.grouped value) = tokensWeight value + 5 + 1 := by
    simp only [tokensWeight_ident, tokensWeight_mark, tokensWeight_grouped]
    omega
  have left (line : Int) : operand (grammar (tokensWeight value + 5 + 1))
      ⟨s.ident x :: s.mark op :: solid (s.grouped value), line, 0⟩ =
        .ok (.name x, ⟨s.mark op :: solid (s.grouped value), line, 0⟩) :=
    (operand_of_name _ rfl).trans (suffixes_none _ (compoundOp_ends operator))
  obtain ⟨after, read⟩ := whole.joined (by omega) s operator (left _)
  have assigned := assignment_plain (s.mark .assign) rfl read (.name x)
  have bound := statement_of_binding (s.ident x) rfl assigned rfl
  rw [← solid_operator s operator, ← solid_ident, ← solid_equals] at bound
  exact parse_of_statement rfl deep bound

variable {path : List Segment} (somewhere : path ≠ [])
include somewhere

theorem assign_compound :
    ∃ nodes site,
      parse (s.ident x :: (Segment.all s path ++ s.mark op :: s.mark .assign :: value)) =
        .ok (single s.line (.assign (.name x) nodes
          (.arithmetic (.index (.name x) nodes) op (e.renumber (· + site))))) ∧
      Node.renumberAll (fun _ => 0) nodes =
        Node.renumberAll (fun _ => 0) (path.map Segment.node) := by
  have deep : tokensWeight (s.ident x :: (Segment.all s path ++ s.mark op :: s.mark .assign ::
      value)) = tokensWeight (Segment.all s path) + tokensWeight value + 2 + 1 := by
    simp only [tokensWeight_ident, tokensWeight_append, tokensWeight_mark]
    omega
  have ends := compoundOp_ends operator
  simp only [List.mem_cons, List.not_mem_nil, or_false, not_or] at ends
  have inside : tokensWeight (Segment.all s path) <
      tokensWeight (Segment.all s path) + tokensWeight value + 2 := by omega
  have inside' : tokensWeight value <
      tokensWeight (Segment.all s path) + tokensWeight value + 2 + 1 := by omega
  obtain ⟨nodes, ⟨_, line, site⟩, first, rfl, alike⟩ := Segment.all_reads s path inside
    (s.mark op :: s.mark .assign :: solid value) ends.2.1 ends.2.2 ⟨_, _, 0⟩ rfl
  obtain ⟨after, read⟩ := whole.expression_run inside' [] List.mem_cons_self line site
  rw [List.append_nil] at read
  have assigned := statement_of_path (s.ident x) rfl (Segment.kindAt_all s somewhere _) first
    (compoundOp_ends operator) (assignment_compound _ _ operator rfl read _)
  rw [← solid_equals, ← solid_operator s operator, ← solid_append] at assigned
  exact ⟨nodes, site, parse_of_statement rfl deep assigned, alike⟩

theorem assign_written :
    ∃ nodes nodes' site,
      parse (s.ident x :: (Segment.all s path ++ s.mark .assign :: s.ident x ::
        (Segment.all s path ++ s.mark op :: s.grouped value))) =
        .ok (single s.line (.assign (.name x) nodes
          (.arithmetic (.index (.name x) nodes') op (e.renumber (· + site))))) ∧
      Node.renumberAll (fun _ => 0) nodes =
        Node.renumberAll (fun _ => 0) (path.map Segment.node) ∧
      Node.renumberAll (fun _ => 0) nodes' =
        Node.renumberAll (fun _ => 0) (path.map Segment.node) := by
  have deep : tokensWeight (s.ident x :: (Segment.all s path ++ s.mark .assign :: s.ident x ::
      (Segment.all s path ++ s.mark op :: s.grouped value))) =
      2 * tokensWeight (Segment.all s path) + tokensWeight value + 5 + 1 := by
    simp only [tokensWeight_ident, tokensWeight_append, tokensWeight_mark, tokensWeight_grouped]
    omega
  have ends := compoundOp_ends operator
  simp only [List.mem_cons, List.not_mem_nil, or_false, not_or] at ends
  have inside : tokensWeight (Segment.all s path) <
      2 * tokensWeight (Segment.all s path) + tokensWeight value + 5 := by omega
  obtain ⟨nodes, ⟨_, line, site⟩, first, rfl, alike⟩ := Segment.all_reads s path inside
    (s.mark .assign :: s.ident x :: (solid (Segment.all s path) ++ s.mark op ::
      solid (s.grouped value))) nofun nofun ⟨_, _, 0⟩ rfl
  obtain ⟨nodes', ⟨_, line, site⟩, second, rfl, alike'⟩ := Segment.all_reads s path inside
    (s.mark op :: solid (s.grouped value)) ends.2.1 ends.2.2 ⟨_, line, site⟩ rfl
  have longer : (s.mark op :: solid (s.grouped value)).length <
      (solid (Segment.all s path) ++ s.mark op :: solid (s.grouped value)).length := by
    rw [List.length_append]
    exact Nat.lt_add_of_pos_left (List.length_pos_iff.mpr (Segment.solid_all_ne_nil s somewhere))
  have left := (operand_of_name (s.ident x) rfl).trans (suffixes_path (.name x)
    (Segment.kindAt_all s somewhere _) second longer (compoundOp_ends operator))
  obtain ⟨after, read⟩ := whole.joined (by omega) s operator left
  have assigned := statement_of_path (s.ident x) rfl (Segment.kindAt_all s somewhere _) first
    (by simp [kindAt, Style.mark]) (assignment_plain _ rfl read _)
  rw [← solid_operator s operator, ← solid_append, ← solid_ident, ← solid_equals,
    ← solid_append] at assigned
  exact ⟨nodes, nodes', site, parse_of_statement rfl deep assigned, alike, alike'⟩

end Writing

end EplLang.Parser

namespace EplLang

/-- **Compound assignment is assignment written out**, with the value taken as a whole. For any
name, any of the operators and any tokens that are an expression, `x op= value` and
`x = x op (value)` are one program. The same goes for a path of any segments after the name, but
for the numbers of function literals: written out, the path is read twice. -/
theorem compound_desugars (s : Style) (x : Text) {op : Kind} (operator : op ∈ Parser.compoundOps)
    {value : List Token} {e : Node} (whole : Parser.Whole value e) :
    (∃ body, parse (s.ident x :: s.mark op :: s.mark .assign :: value) = .ok body ∧
      parse (s.ident x :: s.mark .assign :: s.ident x :: s.mark op :: s.grouped value) =
        .ok body) ∧
    ∀ path : List Parser.Segment, path ≠ [] → ∃ body body',
      parse (s.ident x :: (Parser.Segment.all s path ++ s.mark op :: s.mark .assign :: value)) =
        .ok body ∧
      parse (s.ident x :: (Parser.Segment.all s path ++ s.mark .assign :: s.ident x ::
        (Parser.Segment.all s path ++ s.mark op :: s.grouped value))) = .ok body' ∧
      Node.renumberBlock (fun _ => 0) body = Node.renumberBlock (fun _ => 0) body' := by
  refine ⟨⟨_, Parser.bind_compound s x operator whole, Parser.bind_written s x operator whole⟩,
    fun path somewhere => ?_⟩
  obtain ⟨nodes, site, compound, alike⟩ := Parser.assign_compound s x operator whole somewhere
  obtain ⟨target, nodes', site', written, alike', alike''⟩ :=
    Parser.assign_written s x operator whole somewhere
  refine ⟨_, _, compound, written, ?_⟩
  rw [Parser.renumberBlock_single, Parser.renumberBlock_single]
  simp only [Node.renumber, alike, alike', alike'', Node.renumber_renumber]
  rfl

/-- The value is a sum, and a product is assigned. The target has a name in its path, and a function
literal, which is numbered once more where the assignment is written out. -/
theorem compound_desugars_function_key :
    let s : Style := ⟨1, fun _ => true⟩
    let value := [s.ident "a", s.mark .plus, s.ident "b"]
    let key := [s.mark .openParen, s.mark .closeParen, s.mark .assign, s.mark .greater, s.ident "i"]
    Parser.Whole value (.arithmetic (.name "a") .plus (.name "b")) ∧
    ∃ literal : Parser.Whole key (.function 0 [] [⟨1, .give (.name "i")⟩]),
      let path : List Parser.Segment := [.dot "k", .bracket key _ literal]
      ∃ body body',
        parse (s.ident "x" :: (Parser.Segment.all s path ++ s.mark .times :: s.mark .assign ::
          value)) = .ok body ∧
        parse (s.ident "x" :: (Parser.Segment.all s path ++ s.mark .assign :: s.ident "x" ::
          (Parser.Segment.all s path ++ s.mark .times :: s.grouped value))) = .ok body' ∧
        Node.renumberBlock (fun _ => 0) body = Node.renumberBlock (fun _ => 0) body' := by
  intro s value key
  have sum : Parser.Whole value (.arithmetic (.name "a") .plus (.name "b")) := ⟨_, rfl, rfl⟩
  have literal : Parser.Whole key (.function 0 [] [⟨1, .give (.name "i")⟩]) := ⟨_, rfl, rfl⟩
  exact ⟨sum, literal, (compound_desugars s "x" (by decide) sum).2 _ nofun⟩

end EplLang
