import EplLang.Proofs.Walk.Statement

/-!
# What the parser makes and what it refuses

The parser makes sense: of a text that it accepts every node has a meaning where it stands.
Expressions stand where a value is wanted and statements in blocks, operators are those of their
tables, index paths lead somewhere, the entries of literals are present, and the bodies of functions
are statements again.

What it does not accept it refuses at a token. The token is one that was ahead of the rule when it
started: one of the tokens that were left, the end of the input, or, when the rule goes into a
segment of a string, a token of the segment or its end (`Cursor.InSight`). Some rules refuse a token
that they took some time ago, so this is said of everything that is read from one cursor on. There
is one other way to stop, at a string whose segments have no place in its text (`Token.Placed`).

Both are one walk along the grammar, of a parser beside itself (`Walk.itself`).
-/

set_option autoImplicit false

namespace EplLang

/-! ## Nodes with a meaning -/

/-- The statements of a function literal. -/
def Node.body : Node → Block
  | .function _ _ body => body
  | _ => []

mutual

/-- Nodes that have a value, and so have their parts. -/
inductive Node.Evaluable : Node → Prop where
  | intro {n : Node} : n.IsExpression → (∀ e ∈ n.exprs, Evaluable e) →
      (∀ st ∈ n.body, Executable st.node) → Evaluable n

/-- Nodes that have an effect, and whose parts have a value or an effect. -/
inductive Node.Executable : Node → Prop where
  | intro {n : Node} : n.IsStatement → (∀ e ∈ n.exprs, Evaluable e) →
      (∀ body ∈ n.blocks, ∀ st ∈ body, Executable st.node) → Executable n

end

namespace Node.Evaluable

theorem literal (x : Scalar) : Evaluable (.literal x) :=
  .intro trivial (fun _ member => by cases member) fun _ member => by cases member

theorem name (n : Text) : Evaluable (.name n) :=
  .intro trivial (fun _ member => by cases member) fun _ member => by cases member

theorem call {callee : Node} {args : List Node} (first : callee.Evaluable)
    (rest : ∀ e ∈ args, Evaluable e) : Evaluable (.call callee args) :=
  .intro trivial (List.forall_mem_cons.mpr ⟨first, rest⟩) fun _ member => by cases member

theorem index {base : Node} {path : List Node} (first : base.Evaluable)
    (rest : path ≠ [] ∧ ∀ e ∈ path, Evaluable e) : Evaluable (.index base path) :=
  .intro rest.1 (List.forall_mem_cons.mpr ⟨first, rest.2⟩) fun _ member => by cases member

theorem function (site : Nat) (params : List Text) {body : Block}
    (statements : ∀ st ∈ body, st.node.Executable) : Evaluable (.function site params body) :=
  .intro trivial (fun _ member => by cases member) statements

theorem container (shape : Shape) {items : Items Node}
    (present : ∀ entry ∈ items.entries, ∃ e, entry.2 = some e ∧ e.Evaluable) :
    Evaluable (.container shape items) := by
  refine .intro (fun entry member => ?_) (fun e member => ?_) fun _ member => by cases member
  · obtain ⟨e, same, _⟩ := present entry member
    simp [same]
  · obtain ⟨k, member⟩ := Items.mem_values.mp member
    obtain ⟨e', same, evaluable⟩ := present _ member
    cases same
    exact evaluable

theorem length {operand : Node} (inner : operand.Evaluable) : Evaluable (.length operand) :=
  .intro trivial (List.forall_mem_singleton.mpr inner) fun _ member => by cases member

theorem unary {op : Kind} {operand : Node} (table : op = .minus ∨ op = .not)
    (inner : operand.Evaluable) : Evaluable (.unary op operand) :=
  .intro table (List.forall_mem_singleton.mpr inner) fun _ member => by cases member

theorem arithmetic {left right : Node} {op : Kind} (table : op ∈ arithmeticOps)
    (first : left.Evaluable) (second : right.Evaluable) : Evaluable (.arithmetic left op right) :=
  .intro table (List.forall_mem_cons.mpr ⟨first, List.forall_mem_singleton.mpr second⟩)
    fun _ member => by cases member

theorem condition {left right : Node} {op : Kind} (table : op ∈ conditionOps)
    (first : left.Evaluable) (second : right.Evaluable) : Evaluable (.condition left op right) :=
  .intro table (List.forall_mem_cons.mpr ⟨first, List.forall_mem_singleton.mpr second⟩)
    fun _ member => by cases member

end Node.Evaluable

/-- A statement without blocks. -/
theorem Node.Executable.leaf {n : Node} (meaning : n.IsStatement) (none : n.blocks = [])
    (parts : ∀ e ∈ n.exprs, Evaluable e) : Executable n := by
  refine .intro meaning parts fun body member => ?_
  rw [none] at member
  cases member

/-- A loop: a statement with one block. -/
theorem Node.Executable.loops {n : Node} {body : Block} (meaning : n.IsStatement)
    (one : n.blocks = [body]) (parts : ∀ e ∈ n.exprs, Evaluable e)
    (statements : ∀ st ∈ body, st.node.Executable) : Executable n := by
  refine .intro meaning parts fun other member => ?_
  rw [one, List.mem_singleton] at member
  rw [member]
  exact statements

theorem Node.Executable.branch {test : Node} {body : Block} {elifs : List (Node × Block)}
    {otherwise : Option Block} (first : test.Evaluable ∧ ∀ st ∈ body, st.node.Executable)
    (more : ∀ elif ∈ elifs, elif.1.Evaluable ∧ ∀ st ∈ elif.2, st.node.Executable)
    (last : ∀ body ∈ otherwise, ∀ st ∈ body, st.node.Executable) :
    Executable (.branch test body elifs otherwise) := by
  refine .intro trivial (List.forall_mem_cons.mpr ⟨first.1, ?_⟩)
    (List.forall_mem_cons.mpr ⟨first.2, List.forall_mem_append.mpr ⟨?_, ?_⟩⟩)
  · exact List.forall_mem_map.mpr fun elif member => (more elif member).1
  · exact List.forall_mem_map.mpr fun elif member => (more elif member).2
  · exact fun body member => last body (Option.mem_toList.mp member)

/-- Statements one after another. -/
def Block.Executable (body : Block) : Prop := ∀ st ∈ body, st.node.Executable

/-! ## A parser beside itself -/

theorem forall₂_itself {α : Type} {P : α → Prop} {xs ys : List α}
    (same : List.Forall₂ (fun x y => x = y ∧ P x) xs ys) : xs = ys ∧ ∀ x ∈ xs, P x := by
  induction same with
  | nil => exact ⟨rfl, fun _ member => by cases member⟩
  | cons first _ ih =>
      obtain ⟨rfl, holds⟩ := first
      obtain ⟨rfl, others⟩ := ih
      exact ⟨rfl, List.forall_mem_cons.mpr ⟨holds, others⟩⟩

/-- Nodes beside themselves. Where the rules are used as the grammar uses them, the nodes have a
meaning. -/
def Likeness.itself (used : Prop) : Likeness where
  free := ¬used
  line := Eq
  site := Eq
  expr e e' := e = e' ∧ (used → e.Evaluable)
  stmt n n' := n = n' ∧ (used → n.Executable)
  block body body' := body = body' ∧ (used → body.Executable)
  noLine := rfl
  head like := congrArg Node.head like.1
  literal x := ⟨rfl, fun _ => .literal x⟩
  name n := ⟨rfl, fun _ => .name n⟩
  call first rest := by
    obtain ⟨rfl, first⟩ := first
    obtain ⟨rfl, others⟩ := forall₂_itself rest
    exact ⟨rfl, fun used => .call (first used) fun e member => others e member used⟩
  index first rest somewhere := by
    obtain ⟨rfl, first⟩ := first
    obtain ⟨rfl, others⟩ := forall₂_itself rest
    exact ⟨rfl, fun used => .index (first used)
      ⟨somewhere.resolve_right (not_not_intro used), fun e member => others e member used⟩⟩
  function params sites body := by
    obtain ⟨rfl, body⟩ := body
    exact ⟨by rw [sites], fun used => .function _ params (body used)⟩
  container {items items'} shape same := by
    obtain ⟨entries⟩ := items
    obtain ⟨entries'⟩ := items'
    have itself : List.Forall₂ (fun entry entry' => entry = entry' ∧
        (used → ∃ e, entry.2 = some e ∧ e.Evaluable)) entries entries' := by
      refine List.Forall₂.imp ?_ same
      rintro ⟨key, value⟩ ⟨key', value'⟩ ⟨rfl, values, present⟩
      cases values with
      | none => exact ⟨rfl, fun used => absurd used (present.resolve_left (by simp))⟩
      | some like =>
          obtain ⟨rfl, meaning⟩ := like
          exact ⟨rfl, fun used => ⟨_, rfl, meaning used⟩⟩
    obtain ⟨rfl, present⟩ := forall₂_itself itself
    exact ⟨rfl, fun used => .container shape fun entry member => present entry member used⟩
  length like := by
    obtain ⟨rfl, like⟩ := like
    exact ⟨rfl, fun used => .length (like used)⟩
  unary table like := by
    obtain ⟨rfl, like⟩ := like
    exact ⟨rfl, fun used => .unary table (like used)⟩
  arithmetic table left right := by
    obtain ⟨rfl, left⟩ := left
    obtain ⟨rfl, right⟩ := right
    exact ⟨rfl, fun used => .arithmetic table (left used) (right used)⟩
  condition table left right := by
    obtain ⟨rfl, left⟩ := left
    obtain ⟨rfl, right⟩ := right
    exact ⟨rfl, fun used => .condition table (left used) (right used)⟩
  bind n value := by
    obtain ⟨rfl, value⟩ := value
    exact ⟨rfl, fun used => .leaf trivial rfl (List.forall_mem_singleton.mpr (value used))⟩
  assign target value := by
    obtain ⟨same, target⟩ := target
    obtain ⟨rfl, value⟩ := value
    cases same
    refine ⟨rfl, fun used => ?_⟩
    obtain ⟨somewhere, parts, _⟩ := target used
    obtain ⟨first, rest⟩ := List.forall_mem_cons.mp parts
    exact .leaf somewhere rfl
      (List.forall_mem_cons.mpr ⟨first, List.forall_mem_cons.mpr ⟨value used, rest⟩⟩)
  calling like := by
    refine ⟨like.1, fun used => ?_⟩
    obtain ⟨_, parts, _⟩ := like.2 used
    exact .leaf trivial rfl parts
  give value := by
    obtain ⟨rfl, value⟩ := value
    exact ⟨rfl, fun used => .leaf trivial rfl (List.forall_mem_singleton.mpr (value used))⟩
  leave := ⟨rfl, fun _ => .leaf trivial rfl fun _ member => by cases member⟩
  load path := by
    obtain ⟨rfl, path⟩ := path
    exact ⟨rfl, fun used => .leaf trivial rfl (List.forall_mem_singleton.mpr (path used))⟩
  branch {_ _ _ _ elifs elifs' _ _} test body more last := by
    obtain ⟨rfl, test⟩ := test
    obtain ⟨rfl, body⟩ := body
    have itself : List.Forall₂ (fun elif elif' => elif = elif' ∧
        (used → elif.1.Evaluable ∧ elif.2.Executable)) elifs elifs' := by
      refine List.Forall₂.imp ?_ more
      rintro ⟨test, body⟩ ⟨test', body'⟩ ⟨⟨rfl, test⟩, rfl, body⟩
      exact ⟨rfl, fun used => ⟨test used, body used⟩⟩
    obtain ⟨rfl, guards⟩ := forall₂_itself itself
    cases last with
    | none => exact ⟨rfl, fun used => .branch ⟨test used, body used⟩
        (fun elif member => guards elif member used) fun _ same => by cases same⟩
    | some last =>
        obtain ⟨rfl, last⟩ := last
        refine ⟨rfl, fun used => .branch ⟨test used, body used⟩
          (fun elif member => guards elif member used) fun body same => ?_⟩
        cases same
        exact last used
  loop test body := by
    obtain ⟨rfl, test⟩ := test
    obtain ⟨rfl, body⟩ := body
    exact ⟨rfl, fun used =>
      .loops trivial rfl (List.forall_mem_singleton.mpr (test used)) (body used)⟩
  range n first last body := by
    obtain ⟨rfl, first⟩ := first
    obtain ⟨rfl, last⟩ := last
    obtain ⟨rfl, body⟩ := body
    exact ⟨rfl, fun used => .loops trivial rfl (List.forall_mem_cons.mpr
      ⟨first used, List.forall_mem_singleton.mpr (last used)⟩) (body used)⟩
  each n collection body := by
    obtain ⟨rfl, collection⟩ := collection
    obtain ⟨rfl, body⟩ := body
    exact ⟨rfl, fun used =>
      .loops trivial rfl (List.forall_mem_singleton.mpr (collection used)) (body used)⟩
  nil := ⟨rfl, fun _ _ member => by cases member⟩
  single lines value := by
    obtain ⟨rfl, value⟩ := value
    refine ⟨by rw [lines], fun used => List.forall_mem_singleton.mpr ?_⟩
    exact .leaf trivial rfl (List.forall_mem_singleton.mpr (value used))
  more {_ _ l l' last last' _ _} body lines lasts node := by
    obtain rfl : l = l' := lines
    obtain rfl : last = last' := lasts
    obtain ⟨rfl, body⟩ := body
    obtain ⟨rfl, node⟩ := node
    refine ⟨rfl, fun used => List.forall_mem_append.mpr ⟨List.forall_mem_append.mpr
      ⟨body used, ?_⟩, List.forall_mem_singleton.mpr (node used)⟩⟩
    split
    · exact fun _ member => by cases member
    · exact List.forall_mem_singleton.mpr (.leaf trivial rfl fun _ member => by cases member)

namespace Parser

/-! ## Tokens ahead -/

/-- One of the tokens that are left, or the end of the input. -/
def Cursor.Ahead (c : Cursor) (t : Token) : Prop :=
  t ∈ c.tokens ∨ t = { kind := .endOfInput, line := c.endLine }

/-- A token ahead, or in sight from the start of a segment of one. -/
inductive Cursor.InSight : Cursor → Token → Prop where
  | ahead {c : Cursor} {t : Token} : Cursor.Ahead c t → InSight c t
  | segment {c : Cursor} {string t : Token} {part : Nat × List Token} (site : Nat) :
      string ∈ c.tokens → part ∈ string.parts → InSight (start site part.2) t → InSight c t

/-- A cursor further on in the same input. -/
structure Cursor.Later (b c : Cursor) : Prop where
  suffix : c.tokens <:+ b.tokens
  endLine : c.endLine = b.endLine

namespace Cursor.Later

variable {b c d : Cursor}

theorem refl (b : Cursor) : Later b b := ⟨List.suffix_rfl, rfl⟩

theorem next (later : Later b c) : Later b (Cursor.next c) :=
  ⟨(List.tail_suffix _).trans later.suffix, later.endLine⟩

theorem peek (later : Later b c) (n : Nat) : Ahead b (Cursor.peek c n) := by
  unfold Cursor.peek
  cases found : c.tokens[n]? with
  | some t => exact .inl (later.suffix.subset (List.mem_of_getElem? found))
  | none => exact .inr (congrArg (Token.mk _ · [] []) later.endLine)

end Cursor.Later

/-- The ways in which the parser stops from a cursor on: it refuses a token in sight, finds a string
in sight whose segments have no place, or reaches a bound. -/
inductive Refusal (b : Cursor) : Stop → Prop where
  | illegal {t : Token} (complaint : Complaint) : Cursor.InSight b t →
      Refusal b (t.illegal complaint)
  | misplaced {t : Token} : Cursor.InSight b t → ¬t.Placed → Refusal b .misplaced
  | outOfFuel : Refusal b .outOfFuel

theorem Refusal.of_segment {b : Cursor} {string : Token} {part : Nat × List Token} {site : Nat}
    {e : Stop} (ahead : string ∈ b.tokens) (member : part ∈ string.parts)
    (refusal : Refusal (start site part.2) e) : Refusal b e := by
  cases refusal with
  | illegal complaint seen => exact .illegal complaint (.segment site ahead member seen)
  | misplaced seen bad => exact .misplaced (.segment site ahead member seen) bad
  | outOfFuel => exact .outOfFuel

/-- A parser beside itself, after a cursor. Where the rules are used as the grammar uses them, it
stops in sight of the cursor. -/
def Walk.itself (used : Prop) : Walk Cursor where
  toLikeness := .itself used
  lenient := False
  stands b _ c c' := c = c' ∧ Cursor.Later b c
  token b t t' := t = t' ∧ Cursor.Ahead b t
  segment b _ tokens tokens' := tokens = tokens' ∧
    (used → ∃ string ∈ b.tokens, ∃ part ∈ string.parts, part.2 = tokens)
  stop b e e' := e = e' ∧ (used → Refusal b e)
  strict _ := id
  up := id
  later _ there _ := there
  shorter _ there _ _ := there
  next stands _ := ⟨congrArg Cursor.next stands.1, stands.2.next⟩
  fresh stands := by
    obtain ⟨rfl, later⟩ := stands
    exact ⟨rfl, rfl, later.suffix, later.endLine⟩
  count stands := by rw [stands.1]
  ahead stands _ := .inl ⟨by rw [stands.1], stands.2.peek _⟩
  kind like := congrArg Token.kind like.1
  text like := congrArg Token.text like.1
  placed {_ t _} like := by
    by_cases placed : t.Placed
    · exact .inl placed
    · exact .inr ⟨rfl, fun _ => .misplaced (.ahead like.2) placed⟩
  lines like := congrArg Token.line like.1
  refused complaint like := ⟨by rw [like.1], fun _ => .illegal complaint (.ahead like.2)⟩
  returns stands _ _ := by rw [stands.1]
  parts {_ _ c _} stands like := by
    obtain ⟨rfl, _⟩ := stands
    obtain ⟨_, ahead⟩ := like
    refine List.forall₂_same.mpr fun part member => ⟨rfl, rfl, fun _ => ?_⟩
    rcases ahead with string | ends
    · exact ⟨_, string, part, member, rfl⟩
    · rw [ends] at member
      cases member
  enter {_ _ c _ tokens _} stands inside := by
    obtain ⟨rfl, later⟩ := stands
    obtain ⟨rfl, inside⟩ := inside
    refine ⟨start c.site tokens, ⟨rfl, .refl _⟩, fun e e' stops => ⟨stops.1, fun used => ?_⟩, ?_⟩
    · obtain ⟨string, ahead, part, member, rfl⟩ := inside used
      exact .of_segment ahead member (stops.2 used)
    · rintro _ d _ ⟨rfl, _⟩
      exact ⟨id, rfl, later.suffix, later.endLine⟩

section Itself

variable {α : Type} {used loose : Prop} {b c : Cursor} {took : α → Prop} {R : α → α → Prop}
  {x : Parse α}

/-- What a rule beside itself gives. -/
theorem Walk.Agrees.itself_ok (agrees : (Walk.itself used).Agrees b loose c c took R x x) {a : α}
    {d : Cursor} (ran : x c = .ok (a, d)) : R a a ∧ Cursor.Later b d ∧ d.tokens <:+ c.tokens ∧
      (took a → d.tokens.length < c.tokens.length) := by
  unfold Walk.Agrees at agrees
  rw [ran] at agrees
  cases agrees with
  | ok holds stands suffix taken gives =>
      cases gives False.elim
      exact ⟨holds, stands.2, suffix, taken⟩

/-- How a rule beside itself stops. -/
theorem Walk.Agrees.itself_error (agrees : (Walk.itself used).Agrees b loose c c took R x x)
    {e : Stop} (ran : x c = .error e) : used → Refusal b e := by
  unfold Walk.Agrees at agrees
  rw [ran] at agrees
  cases agrees with
  | stop stops => exact stops.2
  | excused lenient => exact lenient.elim

end Itself

theorem grammar_itself (used : Prop) (depth : Nat) :
    Grammar.Walks (.itself used) depth (grammar depth) (grammar depth) := by
  have base : Grammar.Walks (.itself used) 0 (grammar 0) (grammar 0) :=
    ⟨fun _ => .stop ⟨rfl, fun _ => .outOfFuel⟩, fun _ => .stop ⟨rfl, fun _ => .outOfFuel⟩,
      fun _ => .stop ⟨rfl, fun _ => .outOfFuel⟩, False.elim⟩
  have walks := grammar_walks base depth
  rwa [Nat.zero_add] at walks

/-! ## The whole program -/

theorem parseFrom_spec (site : Nat) (tokens : List Token) :
    match parseFrom site tokens with
    | .ok (body, _) => body.Executable
    | .error e => Refusal (start site tokens) e := by
  have agrees := program_agrees (grammar_itself True (tokensWeight tokens + 1))
    (c := start site tokens) ⟨rfl, .refl _⟩
  unfold parseFrom
  cases ran : program (grammar (tokensWeight tokens + 1)) (start site tokens) with
  | ok pair => exact (agrees.itself_ok ran).1.2 trivial
  | error e => exact agrees.itself_error ran trivial

/-- The parser cuts no string in the wrong place but one whose segments have none. -/
theorem exists_of_misplaced {tokens : List Token} (stops : parse tokens = .error .misplaced) :
    ∃ t, Cursor.InSight (start 0 tokens) t ∧ ¬t.Placed := by
  have spec := parseFrom_spec 0 tokens
  unfold parse at stops
  cases ran : parseFrom 0 tokens with
  | ok pair =>
      rw [ran] at stops
      cases stops
  | error e =>
      rw [ran] at stops spec
      cases stops
      cases spec with
      | misplaced seen bad => exact ⟨_, seen, bad⟩

end Parser

end EplLang
