import EplLang.Proofs.Parsed

/-!
# Writing programs down

A program can be written down as tokens without any care for precedence: every
expression inside another or inside a statement stands in parentheses, everything
stands on one line, and nothing separates one statement from the next. The text is
longer than need be and hard to read, but it says all that the program says.

Not every tree has such a text. `Node.PlainExpr` and `Node.PlainStmt` are the trees
that have one: operators are those of their tables, arrays have the keys that their
elements count, objects have names for keys, an assignment goes to a path from a name,
and a call that stands as a statement starts with a name (`Node.chain`).

What a text does not say is where the lines of the program were. `Node.bare` forgets
it: lines, the markers of lines, and the numbers of function literals, which are the
numbers of their places in a text.
-/

set_option autoImplicit false

namespace EplLang

/-! ## Programs without their lines -/

/-- Whether a node is a marker. -/
def Node.isMarker : Node → Bool
  | .newLine => true
  | _ => false

mutual

/-- A node without lines, markers and the numbers of function literals. -/
def Node.bare : Node → Node
  | .container shape ⟨entries⟩ => .container shape ⟨Node.bareEntries entries⟩
  | .arithmetic left op right => .arithmetic left.bare op right.bare
  | .unary op operand => .unary op operand.bare
  | .condition left op right => .condition left.bare op right.bare
  | .length operand => .length operand.bare
  | .index base path => .index base.bare (Node.bareAll path)
  | .bind n value => .bind n value.bare
  | .assign base path value => .assign base.bare (Node.bareAll path) value.bare
  | .give value => .give value.bare
  | .load path => .load path.bare
  | .branch test body elifs otherwise =>
    .branch test.bare (Node.bareBlock body) (Node.bareElifs elifs) (Node.bareLast otherwise)
  | .loop test body => .loop test.bare (Node.bareBlock body)
  | .range n first last body => .range n first.bare last.bare (Node.bareBlock body)
  | .each n collection body => .each n collection.bare (Node.bareBlock body)
  | .function _ params body => .function 0 params (Node.bareBlock body)
  | .call callee args => .call callee.bare (Node.bareAll args)
  | n => n

/-- Nodes one after another. -/
def Node.bareAll : List Node → List Node
  | [] => []
  | n :: rest => n.bare :: Node.bareAll rest

/-- The entries of a container literal. -/
def Node.bareEntries : List (Scalar × Option Node) → List (Scalar × Option Node)
  | [] => []
  | (k, none) :: rest => (k, none) :: Node.bareEntries rest
  | (k, some n) :: rest => (k, some n.bare) :: Node.bareEntries rest

/-- The statements of a block that are no markers. -/
def Node.bareBlock : List Stmt → List Stmt
  | [] => []
  | ⟨_, n⟩ :: rest =>
    if n.isMarker then Node.bareBlock rest else ⟨0, n.bare⟩ :: Node.bareBlock rest

/-- The branches after the first one. -/
def Node.bareElifs : List (Node × List Stmt) → List (Node × List Stmt)
  | [] => []
  | (test, body) :: rest => (test.bare, Node.bareBlock body) :: Node.bareElifs rest

/-- The last resort of a branch. -/
def Node.bareLast : Option (List Stmt) → Option (List Stmt)
  | none => none
  | some body => some (Node.bareBlock body)

end

namespace Node

theorem isMarker_bare (n : Node) : n.bare.isMarker = n.isMarker := by
  cases n <;> simp [bare, isMarker]

theorem bareAll_append (first second : List Node) :
    bareAll (first ++ second) = bareAll first ++ bareAll second := by
  induction first with
  | nil => rfl
  | cons n rest ih => simp only [List.cons_append, bareAll, ih]

theorem bareEntries_append (first second : List (Scalar × Option Node)) :
    bareEntries (first ++ second) = bareEntries first ++ bareEntries second := by
  induction first with
  | nil => rfl
  | cons entry rest ih =>
      obtain ⟨k, value⟩ := entry
      cases value <;> simp only [List.cons_append, bareEntries, ih]

/-- Keys stay. -/
theorem map_fst_bareEntries (entries : List (Scalar × Option Node)) :
    (bareEntries entries).map Prod.fst = entries.map Prod.fst := by
  induction entries with
  | nil => rfl
  | cons entry rest ih =>
      obtain ⟨k, value⟩ := entry
      cases value <;> simp only [bareEntries, List.map_cons, ih]

theorem bareBlock_append (first second : List Stmt) :
    bareBlock (first ++ second) = bareBlock first ++ bareBlock second := by
  induction first with
  | nil => rfl
  | cons st rest ih =>
      obtain ⟨line, n⟩ := st
      simp only [List.cons_append, bareBlock, ih]
      split <;> rfl

theorem bareElifs_append (first second : List (Node × List Stmt)) :
    bareElifs (first ++ second) = bareElifs first ++ bareElifs second := by
  induction first with
  | nil => rfl
  | cons elif rest ih => simp only [List.cons_append, bareElifs, ih]

end Node

/-! ## Chains of calls and index paths -/

/-- What may follow an operand. -/
inductive Link where
  | call (args : List Node)
  | index (path : List Node)

namespace Link

/-- A node with a link after it. -/
def after (base : Node) : Link → Node
  | .call args => .call base args
  | .index path => .index base path

/-- Whether a link is an index path. -/
def isIndex : Link → Bool
  | .call _ => false
  | .index _ => true

/-- No index path directly follows another. -/
def Apart : List Link → Prop
  | [] => True
  | link :: rest => (link.isIndex = true → ∀ next ∈ rest.head?, next.isIndex = false) ∧ Apart rest

theorem Apart.called {links : List Link} (apart : Apart links) (args : List Node) :
    Apart (links ++ [.call args]) := by
  induction links with
  | nil => exact ⟨nofun, trivial⟩
  | cons link rest ih =>
      refine ⟨fun index next found => ?_, ih apart.2⟩
      cases rest with
      | nil =>
          cases found
          rfl
      | cons second rest => exact apart.1 index next found

end Link

/-- A name followed by calls and index paths. -/
def Node.chain (n : Text) (links : List Link) : Node := links.foldl Link.after (.name n)

/-! ## Programs that can be written down -/

namespace Items

/-- No key occurs twice. Every container that was made by setting keys is so. -/
def Distinct (items : Items Node) : Prop :=
  items.entries.Pairwise fun a b => Scalar.same a.1 b.1 = false

/-- The keys count the entries from zero on. -/
def Counted (items : Items Node) : Prop :=
  ∀ (i : Nat) entry, items.entries[i]? = some entry → entry.1 = .number (Binary64.ofInt i)

/-- There are entries, and their keys are strings. -/
def Named (items : Items Node) : Prop :=
  items.entries ≠ [] ∧ ∀ entry ∈ items.entries, ∃ t, entry.1 = .string t

/-- A container literal of a kind, as it can be written down. -/
def Plain (items : Items Node) : Shape → Prop
  | .array => items.Counted
  | .object => items.Named

end Items

namespace Node

/-- Expressions that can be written down if their parts can. -/
def IsPlainExpr : Node → Prop
  | .literal _ | .name _ | .call .. | .length _ | .function .. => True
  | .container shape items =>
    (∀ entry ∈ items.entries, entry.2.isSome) ∧ items.Distinct ∧ items.Plain shape
  | .index _ path => path ≠ []
  | .arithmetic _ op _ => op ∈ arithmeticOps
  | .unary op _ => op = .minus ∨ op = .not
  | .condition _ op _ => op ∈ conditionOps
  | _ => False

/-- Statements that can be written down if their parts can. A marker is written as
nothing. -/
def IsPlainStmt : Node → Prop
  | .newLine | .bind .. | .give _ | .leave | .load _ | .branch .. | .loop .. | .range ..
  | .each .. => True
  | .assign base path _ => (∃ n, base = .name n) ∧ path ≠ []
  | .call callee _ => ∃ n links, callee = .chain n links ∧ Link.Apart links
  | _ => False

end Node

mutual

/-- Expressions that can be written down. -/
inductive Node.PlainExpr : Node → Prop where
  | intro {n : Node} : n.IsPlainExpr → (∀ e ∈ n.exprs, PlainExpr e) →
      (∀ st ∈ n.body, PlainStmt st.node) → PlainExpr n

/-- Statements that can be written down. -/
inductive Node.PlainStmt : Node → Prop where
  | intro {n : Node} : n.IsPlainStmt → (∀ e ∈ n.exprs, PlainExpr e) →
      (∀ body ∈ n.blocks, ∀ st ∈ body, PlainStmt st.node) → PlainStmt n

end

/-- Programs that can be written down. -/
def Block.Plain (body : Block) : Prop := ∀ st ∈ body, st.node.PlainStmt

theorem Node.PlainExpr.name (n : Text) : (Node.name n).PlainExpr := .intro trivial nofun nofun

/-- Links that can be written down. -/
def Link.Plain : Link → Prop
  | .call args => ∀ e ∈ args, e.PlainExpr
  | .index path => path ≠ [] ∧ ∀ e ∈ path, e.PlainExpr

theorem Link.plain_of_after {base : Node} {link : Link} (plain : (link.after base).PlainExpr) :
    base.PlainExpr ∧ link.Plain := by
  obtain ⟨isPlain, parts, _⟩ := plain
  cases link with
  | call args => exact List.forall_mem_cons.mp parts
  | index path =>
      obtain ⟨first, others⟩ := List.forall_mem_cons.mp parts
      exact ⟨first, isPlain, others⟩

/-- The links of a chain that can be written down can be. -/
theorem Link.plain_of_foldl {base : Node} {links : List Link}
    (plain : (links.foldl Link.after base).PlainExpr) :
    base.PlainExpr ∧ ∀ link ∈ links, link.Plain := by
  induction links generalizing base with
  | nil => exact ⟨plain, nofun⟩
  | cons link rest ih =>
      obtain ⟨first, others⟩ := ih plain
      obtain ⟨base, here⟩ := Link.plain_of_after first
      exact ⟨base, List.forall_mem_cons.mpr ⟨here, others⟩⟩

/-! ## The tokens of a program -/

/-- How a program is written down: on which line, and which of the string segments of
index paths stand after a dot. -/
structure Style where
  line : Int
  dotted : Text → Bool

namespace Style

variable (s : Style)

/-- A token without a text. -/
def mark (kind : Kind) : Token := { kind, line := s.line }

/-- A keyword. -/
def word (text : Text) : Token := { kind := .keyword, line := s.line, text }

/-- A name. -/
def ident (n : Text) : Token := { kind := .identifier, line := s.line, text := n }

/-- A literal. -/
def scalar : Scalar → Token
  | .number x => s.mark (.number x)
  | .string t => { kind := .string, line := s.line, text := t }
  | .boolean b => s.mark (.boolean b)
  | .null => s.mark .null

/-- An operator of a condition. -/
def operator : Kind → Token
  | .and => s.word "and"
  | .or => s.word "or"
  | op => s.mark op

/-- Tokens in parentheses. -/
def grouped (inner : List Token) : List Token :=
  s.mark .openParen :: (inner ++ [s.mark .closeParen])

/-- Tokens in brackets. -/
def bracketed (inner : List Token) : List Token :=
  s.mark .openBracket :: (inner ++ [s.mark .closeBracket])

/-- Tokens in braces. -/
def braced (inner : List Token) : List Token :=
  s.mark .openBrace :: (inner ++ [s.mark .closeBrace])

/-- Pieces with a comma between each two neighbours. -/
def listed : List (List Token) → List Token
  | [] => []
  | [piece] => piece
  | piece :: next :: rest => piece ++ s.mark .comma :: listed (next :: rest)

/-- The name by which a segment of a path is written after a dot. -/
def dotName : Node → Option Text
  | .literal (.string t) => if s.dotted t then some t else none
  | _ => none

theorem eq_text_of_dotName {e : Node} {t : Text} (dotted : s.dotName e = some t) :
    e = .text t := by
  unfold dotName at dotted
  split at dotted
  · split at dotted
    · cases dotted
      rfl
    · cases dotted
  · cases dotted

mutual

/-- The tokens of an expression, without parentheses around it. -/
def expr : Node → List Token
  | .literal x => [s.scalar x]
  | .name n => [s.ident n]
  | .container .array ⟨entries⟩ => s.bracketed (s.listed (elements entries))
  | .container .object ⟨entries⟩ => s.bracketed (fields entries)
  | .arithmetic left op right => s.grouped (expr left) ++ s.mark op :: s.grouped (expr right)
  | .unary op operand => s.mark op :: s.grouped (expr operand)
  | .condition left op right =>
    s.grouped (expr left) ++ s.operator op :: s.grouped (expr right)
  | .length operand => s.mark .length :: s.grouped (expr operand)
  | .index base path => s.grouped (expr base) ++ segments path
  | .call callee args => s.grouped (expr callee) ++ s.grouped (s.listed (groups args))
  | .function _ params body =>
    s.grouped (s.listed (params.map fun n => [s.ident n])) ++
      s.mark .assign :: s.mark .greater :: s.braced (block body)
  | _ => []

/-- The elements of an array. -/
def elements : List (Scalar × Option Node) → List (List Token)
  | [] => []
  | (_, none) :: rest => elements rest
  | (_, some n) :: rest => s.grouped (expr n) :: elements rest

/-- The entries of an object. -/
def fields : List (Scalar × Option Node) → List Token
  | [] => []
  | (_, none) :: rest => fields rest
  | (k, some n) :: rest =>
    s.ident k.bare :: s.mark .assign :: (s.grouped (expr n) ++ fields rest)

/-- Expressions, each in parentheses. -/
def groups : List Node → List (List Token)
  | [] => []
  | n :: rest => s.grouped (expr n) :: groups rest

/-- An index path. -/
def segments : List Node → List Token
  | [] => []
  | n :: rest =>
    (match s.dotName n with
      | some t => [s.mark .dot, s.ident t]
      | none => s.bracketed (s.grouped (expr n))) ++ segments rest

/-- A name followed by calls and index paths. -/
def chain : Node → List Token
  | .name n => [s.ident n]
  | .call callee args => chain callee ++ s.grouped (s.listed (groups args))
  | .index base path => chain base ++ segments path
  | _ => []

/-- The tokens of a statement. -/
def stmt : Node → List Token
  | .bind n value => s.ident n :: s.mark .assign :: s.grouped (expr value)
  | .assign base path value =>
    chain base ++ (segments path ++ s.mark .assign :: s.grouped (expr value))
  | .give value => s.word "return" :: s.grouped (expr value)
  | .leave => [s.word "break"]
  | .load path => s.word "import" :: s.grouped (expr path)
  | .branch test body elifs otherwise =>
    s.word "if" :: (s.grouped (expr test) ++ (s.braced (block body) ++
      (elseIfs elifs ++ elseLast otherwise)))
  | .loop test body => s.word "while" :: (s.grouped (expr test) ++ s.braced (block body))
  | .range n first last body =>
    s.word "for" :: s.ident n :: s.word "in" :: (s.grouped (expr first) ++ s.mark .comma ::
      (s.grouped (expr last) ++ s.braced (block body)))
  | .each n collection body =>
    s.word "for" :: s.ident n :: s.word "in" :: (s.grouped (expr collection) ++
      s.braced (block body))
  | .call callee args => chain callee ++ s.grouped (s.listed (groups args))
  | _ => []

/-- The tokens of a block. -/
def block : List Stmt → List Token
  | [] => []
  | ⟨_, n⟩ :: rest => stmt n ++ block rest

/-- The branches after the first one. -/
def elseIfs : List (Node × List Stmt) → List Token
  | [] => []
  | (test, body) :: rest =>
    s.word "else" :: s.word "if" :: (s.grouped (expr test) ++ (s.braced (block body) ++
      elseIfs rest))

/-- The last resort of a branch. -/
def elseLast : Option (List Stmt) → List Token
  | none => []
  | some body => s.word "else" :: s.braced (block body)

end

/-! ## Brackets -/

section Brackets

variable (inner rest : List Token)

@[simp] theorem grouped_append :
    s.grouped inner ++ rest = s.mark .openParen :: (inner ++ s.mark .closeParen :: rest) := by
  simp [grouped]

@[simp] theorem bracketed_append :
    s.bracketed inner ++ rest = s.mark .openBracket :: (inner ++ s.mark .closeBracket :: rest) := by
  simp [bracketed]

@[simp] theorem braced_append :
    s.braced inner ++ rest = s.mark .openBrace :: (inner ++ s.mark .closeBrace :: rest) := by
  simp [braced]

@[simp] theorem length_grouped : (s.grouped inner).length = inner.length + 2 := by
  simp [grouped]

@[simp] theorem length_bracketed : (s.bracketed inner).length = inner.length + 2 := by
  simp [bracketed]

@[simp] theorem length_braced : (s.braced inner).length = inner.length + 2 := by
  simp [braced]

end Brackets

theorem listed_cons (piece : List Token) (pieces : List (List Token)) :
    s.listed (piece :: pieces) = piece ++ pieces.flatMap (s.mark .comma :: ·) := by
  induction pieces generalizing piece with
  | nil => simp [listed]
  | cons next pieces ih => rw [listed, ih, List.flatMap_cons, List.cons_append]

theorem listed_names (first : Text) (more : List Text) :
    s.listed ((first :: more).map fun n => [s.ident n]) =
      s.ident first :: more.flatMap fun n => [s.mark .comma, s.ident n] := by
  rw [List.map_cons, listed_cons, List.flatMap_map, List.singleton_append]

/-! ## Chains, link by link -/

/-- The tokens of a link. -/
def link : Link → List Token
  | .call args => s.grouped (s.listed (s.groups args))
  | .index path => s.segments path

theorem chain_foldl (base : Node) (links : List Link) :
    s.chain (links.foldl Link.after base) = s.chain base ++ links.flatMap s.link := by
  induction links generalizing base with
  | nil => simp
  | cons first rest ih =>
      rw [List.foldl_cons, ih, List.flatMap_cons, ← List.append_assoc]
      cases first <;> rfl

/-- An index path opens with a bracket or a dot. -/
theorem segments_opens {path : List Node} (somewhere : path ≠ []) :
    ∃ t others, s.segments path = t :: others ∧ (t.kind = .openBracket ∨ t.kind = .dot) := by
  cases path with
  | nil => exact absurd rfl somewhere
  | cons e rest =>
      simp only [segments]
      split
      · exact ⟨_, _, rfl, .inr rfl⟩
      · exact ⟨_, _, s.bracketed_append _ _, .inl rfl⟩

theorem chain_chain (n : Text) (links : List Link) :
    s.chain (.chain n links) = s.ident n :: links.flatMap s.link :=
  s.chain_foldl (.name n) links

/-! ## One line -/

/-- Tokens none of which is the end of a line. -/
def Inline (tokens : List Token) : Prop := ∀ t ∈ tokens, t.kind ≠ .newline

section OneLine

@[simp] theorem inline_nil : Inline [] := fun _ member => nomatch member

@[simp] theorem inline_cons {t : Token} {tokens : List Token} :
    Inline (t :: tokens) ↔ t.kind ≠ .newline ∧ Inline tokens := List.forall_mem_cons

@[simp] theorem inline_append {first second : List Token} :
    Inline (first ++ second) ↔ Inline first ∧ Inline second := List.forall_mem_append

variable {s}

theorem inline_listed {pieces : List (List Token)} (all : ∀ piece ∈ pieces, Inline piece) :
    Inline (s.listed pieces) := by
  cases pieces with
  | nil => exact inline_nil
  | cons piece rest =>
      obtain ⟨first, others⟩ := List.forall_mem_cons.mp all
      rw [s.listed_cons, inline_append]
      refine ⟨first, fun t member => ?_⟩
      obtain ⟨piece, found, here⟩ := List.mem_flatMap.mp member
      exact inline_cons.mpr ⟨by simp [mark], others piece found⟩ t here

theorem inline_groups {args : List Node} (parts : ∀ e ∈ args, Inline (s.expr e)) :
    ∀ piece ∈ s.groups args, Inline piece := by
  induction args with
  | nil => nofun
  | cons e rest ih =>
      obtain ⟨first, others⟩ := List.forall_mem_cons.mp parts
      refine List.forall_mem_cons.mpr ⟨?_, ih others⟩
      simp [grouped, mark, first]

theorem inline_elements {entries : List (Scalar × Option Node)}
    (parts : ∀ k e, (k, some e) ∈ entries → Inline (s.expr e)) :
    ∀ piece ∈ s.elements entries, Inline piece := by
  induction entries with
  | nil => nofun
  | cons entry rest ih =>
      obtain ⟨k, value⟩ := entry
      have others := ih fun k e member => parts k e (List.mem_cons_of_mem _ member)
      cases value with
      | none => exact others
      | some e =>
          refine List.forall_mem_cons.mpr ⟨?_, others⟩
          simp [grouped, mark, parts k e List.mem_cons_self]

theorem inline_fields {entries : List (Scalar × Option Node)}
    (parts : ∀ k e, (k, some e) ∈ entries → Inline (s.expr e)) : Inline (s.fields entries) := by
  induction entries with
  | nil => exact inline_nil
  | cons entry rest ih =>
      obtain ⟨k, value⟩ := entry
      have others := ih fun k e member => parts k e (List.mem_cons_of_mem _ member)
      cases value with
      | none => exact others
      | some e => simp [fields, ident, mark, parts k e List.mem_cons_self, others]

theorem inline_segments {path : List Node} (parts : ∀ e ∈ path, Inline (s.expr e)) :
    Inline (s.segments path) := by
  induction path with
  | nil => exact inline_nil
  | cons e rest ih =>
      obtain ⟨first, others⟩ := List.forall_mem_cons.mp parts
      rw [segments, inline_append]
      refine ⟨?_, ih others⟩
      split <;> simp [bracketed, grouped, mark, ident, first]

/-- The links of a chain stand in the text of the chain as an expression, too. -/
theorem inline_links {links : List Link} {base : Node}
    (whole : Inline (s.expr (links.foldl Link.after base))) :
    Inline (s.expr base) ∧ Inline (links.flatMap s.link) := by
  induction links generalizing base with
  | nil => exact ⟨whole, inline_nil⟩
  | cons link rest ih =>
      obtain ⟨first, others⟩ := ih whole
      rw [List.flatMap_cons, inline_append]
      cases link <;> simp_all [Link.after, expr, link, grouped]

theorem inline_block {body : List Stmt} (parts : ∀ st ∈ body, Inline (s.stmt st.node)) :
    Inline (s.block body) := by
  induction body with
  | nil => exact inline_nil
  | cons st rest ih =>
      obtain ⟨line, n⟩ := st
      obtain ⟨first, others⟩ := List.forall_mem_cons.mp parts
      exact inline_append.mpr ⟨first, ih others⟩

theorem inline_elseIfs {elifs : List (Node × List Stmt)}
    (tests : ∀ elif ∈ elifs, Inline (s.expr elif.1))
    (bodies : ∀ elif ∈ elifs, Inline (s.block elif.2)) : Inline (s.elseIfs elifs) := by
  induction elifs with
  | nil => exact inline_nil
  | cons elif rest ih =>
      obtain ⟨test, body⟩ := elif
      obtain ⟨first, others⟩ := List.forall_mem_cons.mp tests
      obtain ⟨first', others'⟩ := List.forall_mem_cons.mp bodies
      simp [elseIfs, word, mark, first, first', ih others others']

/-- The text of an expression is on one line if those of its parts are. -/
theorem inline_expr_of_parts {n : Node} (isPlain : n.IsPlainExpr)
    (parts : ∀ e ∈ n.exprs, Inline (s.expr e)) (body : ∀ st ∈ n.body, Inline (s.stmt st.node)) :
    Inline (s.expr n) := by
  cases n with
  | literal x => cases x <;> simp [expr, scalar, mark]
  | name n => simp [expr, ident]
  | container shape items =>
      have entries : ∀ k e, (k, some e) ∈ items.entries → Inline (s.expr e) :=
        fun k e member => parts e (Items.mem_values.mpr ⟨k, member⟩)
      cases shape with
      | array => simp [expr, bracketed, mark, inline_listed (inline_elements entries)]
      | object => simp [expr, bracketed, mark, inline_fields entries]
  | arithmetic left op right =>
      have operators : ∀ op ∈ Node.arithmeticOps, op ≠ .newline := by decide
      simp_all [Node.exprs, expr, grouped, mark, Node.IsPlainExpr]
  | unary op operand =>
      rcases isPlain with rfl | rfl <;> simp_all [Node.exprs, expr, grouped, mark]
  | condition left op right =>
      obtain ⟨first, second⟩ := List.forall_mem_cons.mp parts
      have here : (s.operator op).kind ≠ .newline := by
        have operators : ∀ op ∈ Node.conditionOps, op ≠ .newline := by decide
        have known := operators op isPlain
        unfold operator
        split <;> simp [word, mark, known]
      simp [expr, grouped, mark, here, first, List.forall_mem_singleton.mp second]
  | length operand => simp_all [Node.exprs, expr, grouped, mark]
  | index base path =>
      obtain ⟨first, others⟩ := List.forall_mem_cons.mp parts
      simp [expr, grouped, mark, first, inline_segments others]
  | call callee args =>
      obtain ⟨first, others⟩ := List.forall_mem_cons.mp parts
      simp [expr, grouped, mark, first, inline_listed (inline_groups others)]
  | function site params statements =>
      have names : Inline (s.listed (params.map fun n => [s.ident n])) :=
        inline_listed (List.forall_mem_map.mpr fun n _ => by simp [ident])
      have inner : Inline (s.block statements) := inline_block body
      simp [expr, grouped, braced, mark, names, inner]
  | _ => exact isPlain.elim

/-- The text of a statement is on one line if those of its parts are. -/
theorem inline_stmt_of_parts {n : Node} (isPlain : n.IsPlainStmt)
    (parts : ∀ e ∈ n.exprs, Inline (s.expr e))
    (blocks : ∀ body ∈ n.blocks, ∀ st ∈ body, Inline (s.stmt st.node)) : Inline (s.stmt n) := by
  have bodies : ∀ body ∈ n.blocks, Inline (s.block body) :=
    fun body member => inline_block (blocks body member)
  cases n with
  | newLine => exact inline_nil
  | assign base path value =>
      obtain ⟨⟨n, rfl⟩, _⟩ := isPlain
      obtain ⟨_, more⟩ := List.forall_mem_cons.mp parts
      obtain ⟨value, places⟩ := List.forall_mem_cons.mp more
      simp [stmt, chain, ident, grouped, mark, value, inline_segments places]
  | call callee args =>
      obtain ⟨n, links, rfl, _⟩ := isPlain
      obtain ⟨first, others⟩ := List.forall_mem_cons.mp parts
      simp [stmt, chain_chain, ident, grouped, mark, (inline_links first).2,
        inline_listed (inline_groups others)]
  | branch test body elifs otherwise =>
      obtain ⟨first, tests⟩ := List.forall_mem_cons.mp parts
      obtain ⟨first', others⟩ := List.forall_mem_cons.mp bodies
      obtain ⟨bodies, last⟩ := List.forall_mem_append.mp others
      have elifs : Inline (s.elseIfs elifs) := inline_elseIfs
        (fun elif member => tests _ (List.mem_map_of_mem member))
        fun elif member => bodies _ (List.mem_map_of_mem member)
      have final : Inline (s.elseLast otherwise) := by
        cases otherwise with
        | none => exact inline_nil
        | some body => simp [elseLast, word, braced, mark, last body (by simp)]
      simp [stmt, word, mark, first, first', elifs, final]
  | bind | give | load | leave | loop | range | each =>
      simp_all [Node.exprs, Node.blocks, stmt, grouped, braced, mark, ident, word]
  | _ => exact isPlain.elim

mutual

theorem inline_expr : ∀ {e : Node}, e.PlainExpr → Inline (s.expr e)
  | _, .intro isPlain parts body =>
    inline_expr_of_parts isPlain (fun e member => inline_expr (parts e member))
      fun st member => inline_stmt (body st member)

theorem inline_stmt : ∀ {n : Node}, n.PlainStmt → Inline (s.stmt n)
  | _, .intro isPlain parts blocks =>
    inline_stmt_of_parts isPlain (fun e member => inline_expr (parts e member))
      fun body found st member => inline_stmt (blocks body found st member)

end

end OneLine

end Style

end EplLang
