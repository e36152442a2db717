import EplLang.Proofs.Reading.Members

/-!
# Reading expressions back

The text of an expression is read back as that expression, whatever follows, as long
as no token goes on with it. There is one statement for each rule of the grammar on the
texts it is meant for. Rules that occur inside others are assumed to read back shorter
texts (`Grammar.Recovers`), and each rule on a text needs them on parts of the text.

The members of calls, paths and literals stand in parentheses of their own, so that the texts
of lists are read back as soon as those of groups are (`Grammar.Recovers.takes`). A path ends
before a call, and a chain of calls and paths is read along the list of its links.
-/

set_option autoImplicit false

namespace EplLang

namespace Style

variable (s : Style)

/-! ## Lists of members in parentheses -/

theorem groups_eq_map (args : List Node) :
    s.groups args = args.map fun e => s.grouped (s.expr e) := by
  induction args with
  | nil => rfl
  | cons e rest ih => rw [groups, List.map_cons, ih]

theorem segments_eq_flatMap (path : List Node) :
    s.segments path = path.flatMap (s.segment fun e => s.grouped (s.expr e)) := by
  induction path with
  | nil => rfl
  | cons e rest ih =>
      rw [segments, List.flatMap_cons, ih]
      rfl

theorem fields_eq_flatMap (entries : List (Scalar × Option Node)) :
    s.fields entries = entries.flatMap (s.field fun e => s.grouped (s.expr e)) := by
  induction entries with
  | nil => rfl
  | cons entry rest ih =>
      obtain ⟨k, value⟩ := entry
      cases value <;> simp [fields, field, ih]

theorem elements_eq (entries : List (Scalar × Option Node)) :
    s.elements entries = Parser.elements (fun e => s.grouped (s.expr e)) entries := by
  induction entries with
  | nil => rfl
  | cons entry rest ih =>
      obtain ⟨k, value⟩ := entry
      cases value <;> simp [elements, Parser.elements, ih]

end Style

namespace Parser

/-! ## How an expression begins -/

/-- An expression is not taken for an empty pair of parentheses, a block or an entry. -/
theorem begins_expr (s : Style) {e : Node} (plain : e.PlainExpr) : Begins (s.expr e) := by
  obtain ⟨isPlain, _, _⟩ := plain
  cases e with
  | literal x => exact begins_scalar s x
  | name n => exact begins_ident s n
  | container shape items => cases shape <;> exact begins_cons (by simp [Style.mark])
  | unary op operand => rcases isPlain with rfl | rfl <;> exact begins_cons (by simp [Style.mark])
  | length => exact begins_cons (by simp [Style.mark])
  | arithmetic | condition | index | function | call => exact begins_cons (by simp [Style.mark])
  | _ => exact isPlain.elim

/-! ## The rules that occur inside others -/

/-- The rules that occur inside others read back what is written with fewer than
`depth` tokens. -/
structure Grammar.Recovers (g : Grammar) (s : Style) (depth : Nat) : Prop where
  expression {e : Node} {rest : List Token} : e.PlainExpr → (s.expr e).length < depth →
    Closed rest → Reads g.expression e.Like (s.expr e ++ rest) rest
  grouped {e : Node} {rest : List Token} : e.PlainExpr → (s.grouped (s.expr e)).length < depth →
    Closed rest → Reads g.expression e.Like (s.grouped (s.expr e) ++ rest) rest
  operand {e : Node} {rest : List Token} : e.PlainExpr → (s.grouped (s.expr e)).length < depth →
    kindAt rest 0 ∉ attaching → Reads g.operand e.Like (s.grouped (s.expr e) ++ rest) rest
  block {body : Block} {rest : List Token} : body.Plain → (s.block body).length < depth →
    kindAt rest 0 ∈ [.closeBrace, .endOfInput] →
    Reads g.block (fun parsed => Node.bareBlock parsed = Node.bareBlock body)
      (s.block body ++ rest) rest

section Rules

variable {g : Grammar} {s : Style} {depth : Nat} {e : Node} {rest : List Token}

theorem Grammar.Recovers.inner (recovers : g.Recovers s depth) (plain : e.PlainExpr)
    (short : (s.expr e).length < depth) : g.Takes e (s.expr e) :=
  ⟨begins_expr s plain, recovers.expression plain short⟩

theorem Grammar.Recovers.takes (recovers : g.Recovers s depth) (plain : e.PlainExpr)
    (short : (s.grouped (s.expr e)).length < depth) : g.Takes e (s.grouped (s.expr e)) :=
  ⟨begins_grouped, recovers.grouped plain short⟩

/-! ## Groups -/

theorem operand_group (recovers : g.Recovers s depth) (plain : e.PlainExpr)
    (short : (s.expr e).length < depth) (ends : kindAt rest 0 ∉ attaching) :
    Reads (operand g) e.Like (s.grouped (s.expr e) ++ rest) rest := by
  simp only [attaching, List.mem_cons, List.not_mem_nil, or_false, not_or] at ends
  obtain ⟨assign, paren, bracket, dot⟩ := ends
  refine .bind (.peek ?_) fun n like => suffixes_stop like paren bracket dot
  exact parenthesis_group (recovers.inner plain short) assign

theorem expression_group (recovers : g.Recovers s depth) (plain : e.PlainExpr)
    (short : (s.expr e).length < depth) (closed : Closed rest) :
    Reads (expression g) e.Like (s.grouped (s.expr e) ++ rest) rest :=
  expression_of_operand (operand_group recovers plain short closed.not_attaching) closed

/-! ## Calls and index paths -/

/-- A path is over where no other segment follows. -/
theorem path_groups (recovers : g.Recovers s depth) {path : List Node}
    (plain : ∀ e ∈ path, e.PlainExpr) (short : (s.segments path).length ≤ depth)
    (bracket : kindAt rest 0 ≠ .openBracket) (dot : kindAt rest 0 ≠ .dot) :
    Reads (Parser.path g) (fun parsed => Node.bareAll parsed = Node.bareAll path)
      (s.segments path ++ rest) rest := by
  rw [s.segments_eq_flatMap] at short ⊢
  refine path_segments (fun e member bare => recovers.takes (plain e member) ?_) bracket dot
  have shorter := length_le_flatMap (f := s.segment fun e => s.grouped (s.expr e)) member
  simp only [Style.segment, bare, Style.length_bracketed] at shorter
  omega

omit rest in
theorem bare_foldl_after {a b : Node} (same : a.bare = b.bare) (links : List Link) :
    (links.foldl Link.after a).bare = (links.foldl Link.after b).bare := by
  induction links generalizing a b with
  | nil => exact same
  | cons link rest ih =>
      refine ih ?_
      cases link <;> simp [Link.after, Node.bare, same]

/-- What follows an index path is no segment of it. -/
theorem kindAt_links {links : List Link} (apart : ∀ next ∈ links.head?, next.isIndex = false)
    (bracket : kindAt rest 0 ≠ .openBracket) (dot : kindAt rest 0 ≠ .dot) :
    kindAt (links.flatMap s.link ++ rest) 0 ≠ .openBracket ∧
      kindAt (links.flatMap s.link ++ rest) 0 ≠ .dot := by
  cases links with
  | nil => exact ⟨bracket, dot⟩
  | cons link links =>
      cases link with
      | call args => exact ⟨ne_of_beq_false rfl, ne_of_beq_false rfl⟩
      | index path => cases apart _ rfl

/-- Calls and index paths after a node, up to a token that starts none. -/
theorem suffixes_links (recovers : g.Recovers s depth) {links : List Link} {target base : Node}
    (plain : ∀ link ∈ links, link.Plain) (apart : Link.Apart links)
    (short : (links.flatMap s.link).length ≤ depth) (paren : kindAt rest 0 ≠ .openParen)
    (bracket : kindAt rest 0 ≠ .openBracket) (dot : kindAt rest 0 ≠ .dot)
    (like : target.Like (links.foldl Link.after base)) :
    Reads (suffixes g base) target.Like (links.flatMap s.link ++ rest) rest := by
  induction links generalizing base with
  | nil => exact suffixes_stop like paren bracket dot
  | cons link links ih =>
      obtain ⟨first, others⟩ := List.forall_mem_cons.mp plain
      obtain ⟨parted, apart⟩ := apart
      rw [List.flatMap_cons, List.length_append] at short
      rw [List.flatMap_cons, List.append_assoc]
      cases link with
      | call args =>
          simp only [Style.link, s.groups_eq_map, Style.length_grouped] at short ⊢
          refine suffixes_call (fun e member => recovers.takes (first e member) ?_)
            fun parsed alike => ih others apart (by omega) ((bare_foldl_after ?_ links).trans like)
          · have among := List.mem_map_of_mem (f := fun e => s.grouped (s.expr e)) member
            have shorter := length_le_listed (s := s) among
            omega
          · simp [Link.after, Node.bare, alike]
      | index path =>
          obtain ⟨somewhere, first⟩ := first
          obtain ⟨noBracket, noDot⟩ := kindAt_links (s := s) (parted rfl) bracket dot
          simp only [Style.link, s.segments_eq_flatMap] at short ⊢
          refine suffixes_index somewhere (fun e member bare => recovers.takes (first e member) ?_)
            noBracket noDot
            fun parsed alike => ih others apart (by omega) ((bare_foldl_after ?_ links).trans like)
          · have shorter := length_le_flatMap (f := s.segment fun e => s.grouped (s.expr e)) member
            simp only [Style.segment, bare, Style.length_bracketed] at shorter
            omega
          · simp [Link.after, Node.bare, alike]

theorem kindAt_index {path : List Node} (somewhere : path ≠ []) (rest : List Token) :
    kindAt (s.segments path ++ rest) 0 = .openBracket ∨
      kindAt (s.segments path ++ rest) 0 = .dot := by
  obtain ⟨t, more, opens, kind⟩ := s.segments_opens somewhere
  simpa [opens, kindAt] using kind

/-- A call or an index path after an operand in parentheses. -/
theorem expression_link (recovers : g.Recovers s depth) (link : Link) (first : e.PlainExpr)
    (second : link.Plain) (short : (s.expr e).length + (s.link link).length < depth)
    (closed : Closed rest) :
    Reads (expression g) (link.after e).Like (s.grouped (s.expr e) ++ (s.link link ++ rest))
      rest := by
  have assign : kindAt (s.link link ++ rest) 0 ≠ .assign := by
    cases link with
    | call args => exact ne_of_beq_false rfl
    | index path => rcases kindAt_index (s := s) second.1 rest with same | same <;>
        simp [Style.link, same]
  have ends : kindAt rest 0 ∉ [.openParen, .openBracket, .dot] := closed.not_mem (by decide)
  simp only [List.mem_cons, List.not_mem_nil, or_false, not_or] at ends
  obtain ⟨paren, bracket, dot⟩ := ends
  refine expression_of_operand (.bind
    (.peek (parenthesis_group (recovers.inner first (by omega)) assign)) fun n like => ?_) closed
  have alone : Link.Apart [link] :=
    ⟨fun _ next member => absurd member (Option.not_mem_none next), trivial⟩
  have read : Reads (suffixes g n) (link.after e).Like ([link].flatMap s.link ++ rest) rest :=
    suffixes_links recovers (List.forall_mem_singleton.mpr second) alone
      (by simp; omega) paren bracket dot (bare_foldl_after like [link])
  simpa using read

/-! ## Functions -/

theorem braced_block (recovers : g.Recovers s depth) {body : Block} (plain : body.Plain)
    (short : (s.block body).length < depth) :
    Reads (braced g) (fun parsed => Node.bareBlock parsed = Node.bareBlock body)
      (s.braced (s.block body) ++ rest) rest := by
  rw [s.braced_append]
  refine .expect rfl (.bind (recovers.block plain short List.mem_cons_self) fun parsed same => ?_)
  exact .expect rfl (.pure same)

theorem functionBody_braced (recovers : g.Recovers s depth) {body : Block} (plain : body.Plain)
    (short : (s.block body).length < depth) (site : Nat) (params : List Text)
    (rest : List Token) :
    Reads (functionBody g params) (Node.function site params body).Like
      (s.mark .assign :: s.mark .greater :: (s.braced (s.block body) ++ rest)) rest := by
  refine .expect rfl (.expect rfl (.sees_then rfl ?_))
  refine .bind (braced_block recovers plain short) fun parsed same => .freshSite fun site => ?_
  refine .pure ?_
  simp [Node.Like, Node.bare, same]

theorem parenthesis_function (recovers : g.Recovers s depth) (body : Block) (plain : body.Plain)
    (short : (s.block body).length < depth) (some' : 1 < depth) (site : Nat) (params : List Text) :
    Reads (parenthesis g) (Node.function site params body).Like
      (s.grouped (s.listed (params.map fun n => [s.ident n])) ++
        s.mark .assign :: s.mark .greater :: (s.braced (s.block body) ++ rest)) rest :=
  parenthesis_params (fun a => recovers.inner (.name a) some')
    (functionBody_braced recovers plain short site params rest)

/-! ## Arrays and objects -/

theorem containerLiteral_bracketed (recovers : g.Recovers s depth) {shape : Shape}
    {items : Items Node} (plain : (Node.container shape items).PlainExpr)
    (short : (s.expr (.container shape items)).length ≤ depth) (rest : List Token) :
    Reads (containerLiteral g) (Node.container shape items).Like
      (s.expr (.container shape items) ++ rest) rest := by
  obtain ⟨⟨all, distinct, kind⟩, parts, _⟩ := plain
  have takes (fits : ∀ k e, (k, some e) ∈ items.entries →
      (s.grouped (s.expr e)).length < depth) :
      g.TakesAll (fun e => s.grouped (s.expr e)) items.entries := by
    intro entry member
    obtain ⟨e, same⟩ := Option.isSome_iff_exists.mp (all entry member)
    have present : (entry.1, some e) ∈ items.entries := same ▸ member
    exact ⟨e, same, recovers.takes (parts e (Items.mem_values.mpr ⟨entry.1, present⟩))
      (fits entry.1 e present)⟩
  cases shape with
  | array =>
      simp only [Style.expr, s.elements_eq, Style.length_bracketed] at short ⊢
      refine containerLiteral_array distinct kind (takes fun k e member => ?_)
      have among : s.grouped (s.expr e) ∈
          elements (fun e => s.grouped (s.expr e)) items.entries :=
        List.mem_filterMap.mpr ⟨(k, some e), member, rfl⟩
      have shorter := length_le_listed (s := s) among
      omega
  | object =>
      simp only [Style.expr, s.fields_eq_flatMap, Style.length_bracketed] at short ⊢
      refine containerLiteral_object distinct kind (takes fun k e member => ?_)
      have shorter := length_le_flatMap (f := s.field fun e => s.grouped (s.expr e)) member
      simp only [Style.field, List.length_cons] at shorter
      omega

/-! ## Operators -/

/-- The level at which an operator of arithmetic is read. -/
theorem arithmeticOps_level : ∀ op ∈ Node.arithmeticOps, op ∉ attaching ∧
    (op ∈ [.power] ∨ op ∈ [.times, .divide] ∧ op ∉ [.power] ∨
      op ∈ [.plus, .minus] ∧ op ∉ [.times, .divide] ∧ op ∉ [.power]) := by
  decide

/-- A sum, a product or a power of two operands in parentheses is read at the level of
its operator, and the levels above find nothing after it. -/
theorem expression_arithmetic (recovers : g.Recovers s depth) {left right : Node} {op : Kind}
    (operator : op ∈ Node.arithmeticOps) (first : left.PlainExpr) (second : right.PlainExpr)
    (short : (s.expr (.arithmetic left op right)).length ≤ depth) (closed : Closed rest) :
    Reads (expression g) (Node.arithmetic left op right).Like
      (s.expr (.arithmetic left op right) ++ rest) rest := by
  simp only [Style.expr, List.length_append, List.length_cons, Style.length_grouped] at short
  simp only [Style.expr, List.append_assoc, List.cons_append]
  obtain ⟨detached, level⟩ := arithmeticOps_level op operator
  have read : Reads (operand g) left.Like
      (s.grouped (s.expr left) ++ s.mark op :: (s.grouped (s.expr right) ++ rest))
      (s.mark op :: (s.grouped (s.expr right) ++ rest)) :=
    operand_group recovers first (by omega) detached
  have read' := operand_group recovers second (by omega) closed.not_attaching
  have joined (a b : Node) (like : left.Like a) (like' : right.Like b) :
      (Node.arithmetic left op right).Like (.arithmetic a (s.mark op).kind b) := by
    simp only [Node.Like, Node.bare] at like like' ⊢
    rw [like, like']
    rfl
  have shorter : rest.length ≤ (s.grouped (s.expr right) ++ rest).length := by
    rw [List.length_append]
    omega
  have plain : kindAt (s.grouped (s.expr right) ++ rest) 0 ≠ .assign := ne_of_beq_false rfl
  have power' : kindAt rest 0 ∉ [Kind.power] := closed.not_mem (by decide)
  have times' : kindAt rest 0 ∉ [Kind.times, .divide] := closed.not_mem (by decide)
  refine expression_stop (comparison_stop ?_ (closed.not_mem (by decide))) closed
  rcases level with here | ⟨here, power⟩ | ⟨here, times, power⟩
  · have factored := leftChain_once read here plain read' shorter power' joined
    exact leftChain_stop (leftChain_stop factored times') (closed.not_mem (by decide))
  · have factored := leftChain_stop read power
    have factored' := leftChain_stop read' power'
    exact leftChain_stop (leftChain_once factored here plain factored' shorter times' joined)
      (closed.not_mem (by decide))
  · have multiplied := leftChain_stop (leftChain_stop read power) times
    have multiplied' := leftChain_stop (leftChain_stop read' power') times'
    exact leftChain_once multiplied here plain multiplied' shorter (closed.not_mem (by decide))
      joined

/-- Operators that compare are written as marks, and those that join as keywords. -/
theorem operator_cases {op : Kind} (operator : op ∈ Node.conditionOps) :
    op ∈ relational ∧ s.operator op = s.mark op ∨
      logical? (s.operator op) = some op ∧ (s.operator op).kind = .keyword := by
  simp only [Node.conditionOps, List.mem_cons, List.not_mem_nil, or_false] at operator
  rcases operator with rfl | rfl | rfl | rfl | rfl | rfl | rfl | rfl
  case inr.inr.inr.inr.inr.inr.inl | inr.inr.inr.inr.inr.inr.inr => exact .inr ⟨rfl, rfl⟩
  all_goals exact .inl ⟨by decide, rfl⟩

theorem expression_condition (recovers : g.Recovers s depth) {left right : Node} {op : Kind}
    (operator : op ∈ Node.conditionOps) (first : left.PlainExpr) (second : right.PlainExpr)
    (short : (s.expr (.condition left op right)).length ≤ depth) (closed : Closed rest) :
    Reads (expression g) (Node.condition left op right).Like
      (s.expr (.condition left op right) ++ rest) rest := by
  simp only [Style.expr, List.length_append, List.length_cons, Style.length_grouped] at short
  simp only [Style.expr, List.append_assoc, List.cons_append]
  have read {t : Token} (more : List Token) (detached : t.kind ∉ attaching)
      (ends : t.kind ∉ Node.arithmeticOps) :
      Reads (additive g) left.Like (s.grouped (s.expr left) ++ t :: more) (t :: more) :=
    additive_of_operand (operand_group recovers first (by omega) detached) ends
  have read' : Reads (additive g) right.Like (s.grouped (s.expr right) ++ rest) rest :=
    additive_of_operand (operand_group recovers second (by omega) closed.not_attaching)
      (closed.not_mem (by decide))
  have joined {a b : Node} (like : left.Like a) (like' : right.Like b) :
      (Node.condition left op right).Like (.condition a op b) := by
    simp only [Node.Like, Node.bare] at like like' ⊢
    rw [like, like']
  rcases operator_cases (s := s) operator with ⟨compares, mark⟩ | ⟨joins, keyword⟩
  · rw [mark]
    have outside : ∀ op ∈ relational, op ∉ attaching ∧ op ∉ Node.arithmeticOps := by decide
    obtain ⟨detached, ends⟩ := outside op compares
    refine expression_stop (.bind (read _ detached ends) fun a like => .peek ?_) closed
    rw [if_pos (show (s.mark op).kind ∈ relational from compares)]
    exact .advance (.bind read' fun b like' => .pure (joined like like'))
  · have compared := comparison_stop
      (read (s.grouped (s.expr right) ++ rest) (by rw [keyword]; decide)
        (by rw [keyword]; decide)) (show (s.operator op).kind ∉ relational by rw [keyword]; decide)
    refine .bind compared fun a like => ?_
    refine .again (I := (Node.condition left op right).Like) (show Reads _ _ _ rest from .peek ?_)
      (by simp only [List.length_append, List.length_cons]; omega) fun n like => ?_
    · rw [joins]
      refine .advance (.bind (comparison_stop read' (closed.not_mem (by decide))) fun b like' => ?_)
      exact .pure (joined like like')
    · refine .done (.peek_closed closed fun t closes => ?_)
      rw [logical?_of_closes closes]
      exact .pure like

/-! ## All expressions -/

/-- An expression without parentheses is read back. -/
theorem expression_expr (recovers : g.Recovers s depth) (plain : e.PlainExpr)
    (short : (s.expr e).length ≤ depth) (closed : Closed rest) :
    Reads (expression g) e.Like (s.expr e ++ rest) rest := by
  have detached := closed.not_attaching
  simp only [attaching, List.mem_cons, List.not_mem_nil, or_false, not_or] at detached
  obtain ⟨assign, paren, bracket, dot⟩ := detached
  have atomic (read : Reads (atom g) e.Like (s.expr e ++ rest) rest) :
      Reads (expression g) e.Like (s.expr e ++ rest) rest :=
    expression_of_operand (.bind read fun n like => suffixes_stop like paren bracket dot) closed
  have whole := plain
  obtain ⟨isPlain, parts, body⟩ := plain
  cases e with
  | literal x =>
      refine atomic (.peek ?_)
      cases x <;> exact .advance (.pure rfl)
  | name n => exact atomic (.peek (.advance (.pure rfl)))
  | container shape items =>
      have read := containerLiteral_bracketed recovers whole short rest
      refine atomic ?_
      cases shape <;> exact .peek read
  | arithmetic left op right =>
      obtain ⟨first, second⟩ := List.forall_mem_cons.mp parts
      exact expression_arithmetic recovers isPlain first (List.forall_mem_singleton.mp second)
        short closed
  | condition left op right =>
      obtain ⟨first, second⟩ := List.forall_mem_cons.mp parts
      exact expression_condition recovers isPlain first (List.forall_mem_singleton.mp second)
        short closed
  | unary op operand =>
      simp only [Style.expr, List.length_cons] at short
      have read := recovers.operand (List.forall_mem_singleton.mp parts) (by omega)
        closed.not_attaching
      have whole (n : Node) (like : operand.Like n) :
          (Node.unary op operand).Like (.unary (s.mark op).kind n) := by
        simp only [Node.Like, Node.bare] at like ⊢
        rw [like]
        rfl
      refine atomic (.peek ?_)
      rcases isPlain with rfl | rfl
      · exact .advance (.bind read fun n like => .pure (whole n like))
      · exact .advance (.bind read fun n like => .pure (whole n like))
  | length operand =>
      simp only [Style.expr, List.length_cons] at short
      have read := recovers.operand (List.forall_mem_singleton.mp parts) (by omega)
        closed.not_attaching
      refine atomic (.peek (.advance (.bind read fun n like => .pure ?_)))
      simp only [Node.Like, Node.bare] at like ⊢
      rw [like]
  | index base path =>
      obtain ⟨first, others⟩ := List.forall_mem_cons.mp parts
      simp only [Style.expr, List.length_append, Style.length_grouped] at short
      simp only [Style.expr, List.append_assoc]
      exact expression_link recovers (.index path) first ⟨isPlain, others⟩
        (by simp only [Style.link]; omega) closed
  | call callee args =>
      obtain ⟨first, others⟩ := List.forall_mem_cons.mp parts
      simp only [Style.expr, List.length_append, Style.length_grouped] at short
      simp only [Style.expr, List.append_assoc]
      exact expression_link recovers (.call args) first others
        (by simp only [Style.link, Style.length_grouped]; omega) closed
  | function site params statements =>
      simp only [Style.expr, List.length_append, List.length_cons, Style.length_grouped,
        Style.length_braced] at short
      refine atomic ?_
      simp only [Style.expr, List.append_assoc, List.cons_append]
      exact .peek (parenthesis_function recovers statements body (by omega) (by omega) site params)
  | _ => exact isPlain.elim

end Rules

end Parser

end EplLang
