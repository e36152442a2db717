import EplLang.Proofs.Walk.Statement

/-!
# What follows an expression

An expression that makes up a whole list of tokens is read in the same way where it stands inside
brackets: the closing bracket after it takes the place of the end of the input. The parser stops
before both, and wherever it looks beyond a token it asks for something that is neither.

Three things are not the same there. The function literals have other numbers, since others may
come before them; `Node.renumber` numbers them anew. The end of the input is on another line, which
no program tells. And the expression is nested more or less deeply.

This is a lenient walk along the grammar (`Walk.following`), of one parser and another before more
tokens. What the first one gives is given by the second one too, with other numbers, and the tokens
after it are left (`expression_follows`). Nothing is said of tokens that are refused.
-/

set_option autoImplicit false

namespace EplLang

/-! ## Numbers of function literals -/

mutual

/-- A node with its function literals numbered anew. -/
def Node.renumber (ρ : Nat → Nat) : Node → Node
  | .container shape ⟨entries⟩ => .container shape ⟨Node.renumberEntries ρ entries⟩
  | .arithmetic left op right => .arithmetic (left.renumber ρ) op (right.renumber ρ)
  | .unary op operand => .unary op (operand.renumber ρ)
  | .condition left op right => .condition (left.renumber ρ) op (right.renumber ρ)
  | .length operand => .length (operand.renumber ρ)
  | .index base path => .index (base.renumber ρ) (Node.renumberAll ρ path)
  | .bind n value => .bind n (value.renumber ρ)
  | .assign base path value =>
    .assign (base.renumber ρ) (Node.renumberAll ρ path) (value.renumber ρ)
  | .give value => .give (value.renumber ρ)
  | .load path => .load (path.renumber ρ)
  | .branch test body elifs otherwise =>
    .branch (test.renumber ρ) (Node.renumberBlock ρ body) (Node.renumberElifs ρ elifs)
      (Node.renumberLast ρ otherwise)
  | .loop test body => .loop (test.renumber ρ) (Node.renumberBlock ρ body)
  | .range n first last body =>
    .range n (first.renumber ρ) (last.renumber ρ) (Node.renumberBlock ρ body)
  | .each n collection body => .each n (collection.renumber ρ) (Node.renumberBlock ρ body)
  | .function site params body => .function (ρ site) params (Node.renumberBlock ρ body)
  | .call callee args => .call (callee.renumber ρ) (Node.renumberAll ρ args)
  | n => n

/-- Nodes one after another. -/
def Node.renumberAll (ρ : Nat → Nat) : List Node → List Node
  | [] => []
  | n :: rest => n.renumber ρ :: Node.renumberAll ρ rest

/-- The entries of a container literal. -/
def Node.renumberEntries (ρ : Nat → Nat) : List (Scalar × Option Node) → List (Scalar × Option Node)
  | [] => []
  | (k, none) :: rest => (k, none) :: Node.renumberEntries ρ rest
  | (k, some n) :: rest => (k, some (n.renumber ρ)) :: Node.renumberEntries ρ rest

/-- The statements of a block. -/
def Node.renumberBlock (ρ : Nat → Nat) : List Stmt → List Stmt
  | [] => []
  | ⟨line, n⟩ :: rest => ⟨line, n.renumber ρ⟩ :: Node.renumberBlock ρ rest

/-- The branches after the first one. -/
def Node.renumberElifs (ρ : Nat → Nat) : List (Node × List Stmt) → List (Node × List Stmt)
  | [] => []
  | (test, body) :: rest =>
    (test.renumber ρ, Node.renumberBlock ρ body) :: Node.renumberElifs ρ rest

/-- The last resort of a branch. -/
def Node.renumberLast (ρ : Nat → Nat) : Option (List Stmt) → Option (List Stmt)
  | none => none
  | some body => some (Node.renumberBlock ρ body)

end

namespace Node

variable (ρ : Nat → Nat)

theorem renumberAll_append (first second : List Node) :
    renumberAll ρ (first ++ second) = renumberAll ρ first ++ renumberAll ρ second := by
  induction first with
  | nil => rfl
  | cons n rest ih => simp only [List.cons_append, renumberAll, ih]

theorem renumberBlock_append (first second : List Stmt) :
    renumberBlock ρ (first ++ second) = renumberBlock ρ first ++ renumberBlock ρ second := by
  induction first with
  | nil => rfl
  | cons st rest ih =>
      obtain ⟨line, n⟩ := st
      simp only [List.cons_append, renumberBlock, ih]

theorem head_renumber (n : Node) : (n.renumber ρ).head = n.head := by
  cases n <;> simp [renumber, head]

theorem renumberAll_of_forall₂ {all all' : List Node}
    (same : List.Forall₂ (fun n n' => n' = n.renumber ρ) all all') : all' = renumberAll ρ all := by
  induction same with
  | nil => rfl
  | cons first _ ih => rw [renumberAll, first, ih]

theorem renumberEntries_of_forall₂ {free : Prop} {entries entries' : List (Scalar × Option Node)}
    (same : List.Forall₂ (EntryPair free fun n n' => n' = n.renumber ρ) entries entries') :
    entries' = renumberEntries ρ entries := by
  induction same with
  | nil => rfl
  | @cons entry entry' _ _ first _ ih =>
      obtain ⟨k, value⟩ := entry
      obtain ⟨k', value'⟩ := entry'
      obtain ⟨rfl, values, _⟩ := first
      cases values with
      | none => rw [renumberEntries, ih]
      | some like => rw [renumberEntries, ih, like]

theorem renumberElifs_of_forall₂ {elifs elifs' : List (Node × Block)}
    (same : List.Forall₂ (fun elif elif' => elif'.1 = elif.1.renumber ρ ∧
      elif'.2 = renumberBlock ρ elif.2) elifs elifs') : elifs' = renumberElifs ρ elifs := by
  induction same with
  | nil => rfl
  | @cons elif elif' _ _ first _ ih =>
      obtain ⟨test, body⟩ := elif
      obtain ⟨test', body'⟩ := elif'
      obtain ⟨rfl, rfl⟩ := first
      rw [renumberElifs, ih]

mutual

/-- Numbers given twice are given at once. -/
theorem renumber_renumber (σ ρ : Nat → Nat) :
    ∀ n : Node, (n.renumber ρ).renumber σ = n.renumber (σ ∘ ρ)
  | .newLine | .literal _ | .name _ | .leave | .native _ | .unknown => by simp only [renumber]
  | .container _ ⟨entries⟩ => by simp only [renumber, renumberEntries_renumber σ ρ entries]
  | .arithmetic left _ right | .condition left _ right => by
      simp only [renumber, renumber_renumber σ ρ left, renumber_renumber σ ρ right]
  | .unary _ n | .length n | .bind _ n | .give n | .load n => by
      simp only [renumber, renumber_renumber σ ρ n]
  | .index n all | .call n all => by
      simp only [renumber, renumber_renumber σ ρ n, renumberAll_renumber σ ρ all]
  | .assign base path value => by
      simp only [renumber, renumber_renumber σ ρ base, renumberAll_renumber σ ρ path,
        renumber_renumber σ ρ value]
  | .branch test body elifs otherwise => by
      simp only [renumber, renumber_renumber σ ρ test, renumberBlock_renumber σ ρ body,
        renumberElifs_renumber σ ρ elifs, renumberLast_renumber σ ρ otherwise]
  | .loop n body | .each _ n body => by
      simp only [renumber, renumber_renumber σ ρ n, renumberBlock_renumber σ ρ body]
  | .range _ first last body => by
      simp only [renumber, renumber_renumber σ ρ first, renumber_renumber σ ρ last,
        renumberBlock_renumber σ ρ body]
  | .function _ _ body => by
      simp only [renumber, renumberBlock_renumber σ ρ body, Function.comp_apply]

theorem renumberAll_renumber (σ ρ : Nat → Nat) : ∀ all : List Node,
    renumberAll σ (renumberAll ρ all) = renumberAll (σ ∘ ρ) all
  | [] => rfl
  | n :: rest => by
      simp only [renumberAll, renumber_renumber σ ρ n, renumberAll_renumber σ ρ rest]

theorem renumberEntries_renumber (σ ρ : Nat → Nat) : ∀ entries : List (Scalar × Option Node),
    renumberEntries σ (renumberEntries ρ entries) = renumberEntries (σ ∘ ρ) entries
  | [] => rfl
  | (_, none) :: rest => by simp only [renumberEntries, renumberEntries_renumber σ ρ rest]
  | (_, some n) :: rest => by
      simp only [renumberEntries, renumber_renumber σ ρ n, renumberEntries_renumber σ ρ rest]

theorem renumberBlock_renumber (σ ρ : Nat → Nat) : ∀ body : List Stmt,
    renumberBlock σ (renumberBlock ρ body) = renumberBlock (σ ∘ ρ) body
  | [] => rfl
  | ⟨_, n⟩ :: rest => by
      simp only [renumberBlock, renumber_renumber σ ρ n, renumberBlock_renumber σ ρ rest]

theorem renumberElifs_renumber (σ ρ : Nat → Nat) : ∀ elifs : List (Node × List Stmt),
    renumberElifs σ (renumberElifs ρ elifs) = renumberElifs (σ ∘ ρ) elifs
  | [] => rfl
  | (test, body) :: rest => by
      simp only [renumberElifs, renumber_renumber σ ρ test, renumberBlock_renumber σ ρ body,
        renumberElifs_renumber σ ρ rest]

theorem renumberLast_renumber (σ ρ : Nat → Nat) : ∀ otherwise : Option (List Stmt),
    renumberLast σ (renumberLast ρ otherwise) = renumberLast (σ ∘ ρ) otherwise
  | none => rfl
  | some body => by simp only [renumberLast, renumberBlock_renumber σ ρ body]

end

end Node

/-- Nodes and the same nodes with their function literals numbered anew. -/
def Likeness.renumbered (ρ : Nat → Nat) : Likeness where
  free := False
  line := Eq
  site s s' := s' = ρ s
  expr n n' := n' = n.renumber ρ
  stmt n n' := n' = n.renumber ρ
  block body body' := body' = Node.renumberBlock ρ body
  noLine := rfl
  head {n n'} like := by rw [like, n.head_renumber]
  literal _ := by simp [Node.renumber]
  name _ := by simp [Node.renumber]
  call first rest := by rw [Node.renumber, first, Node.renumberAll_of_forall₂ ρ rest]
  index first rest _ := by rw [Node.renumber, first, Node.renumberAll_of_forall₂ ρ rest]
  function _ sites body := by rw [Node.renumber, sites, body]
  container {items items'} _ same := by
    obtain ⟨entries⟩ := items
    obtain ⟨entries'⟩ := items'
    obtain rfl : entries' = _ := Node.renumberEntries_of_forall₂ ρ same
    rw [Node.renumber]
  length like := by rw [Node.renumber, like]
  unary _ like := by rw [Node.renumber, like]
  arithmetic _ left right := by rw [Node.renumber, left, right]
  condition _ left right := by rw [Node.renumber, left, right]
  bind _ value := by rw [Node.renumber, value]
  assign target value := by
    rw [Node.renumber] at target
    cases target
    rw [Node.renumber, value]
  calling like := like
  give value := by rw [Node.renumber, value]
  leave := by simp [Node.renumber]
  load path := by rw [Node.renumber, path]
  branch test body more last := by
    cases last with
    | none =>
        rw [Node.renumber, Node.renumberLast, test, body, Node.renumberElifs_of_forall₂ ρ more]
    | some last =>
        rw [Node.renumber, Node.renumberLast, test, body, Node.renumberElifs_of_forall₂ ρ more,
          last]
  loop test body := by rw [Node.renumber, test, body]
  range _ first last body := by rw [Node.renumber, first, last, body]
  each _ collection body := by rw [Node.renumber, collection, body]
  nil := rfl
  single lines value := by rw [Node.renumberBlock, Node.renumberBlock, Node.renumber, lines, value]
  more {_ _ l l' last last' _ _} body lines lasts node := by
    obtain rfl : l = l' := lines
    obtain rfl : last = last' := lasts
    have marker : Node.renumberBlock ρ (if l = last then [] else [⟨l, .newLine⟩]) =
        if l = last then [] else [⟨l, .newLine⟩] := by
      split <;> rfl
    simp only [Node.renumberBlock_append, marker, Node.renumberBlock, body, node]

namespace Parser

/-! ## More tokens -/

/-- What comes after a list of tokens: other tokens, if any the first of them a closing bracket, and
the line of the end of the input. -/
structure Context where
  tail : List Token
  endLine : Int
  ends : kindAt tail 0 ∈ enders

/-- A cursor in a context, with some function literals before it. -/
def Context.on (k : Context) (shift : Nat) (c : Cursor) : Cursor :=
  { tokens := c.tokens ++ k.tail, endLine := k.endLine, site := c.site + shift }

namespace Context

variable (k : Context) (shift : Nat) {c : Cursor}

theorem peek_on {n : Nat} (inside : n < c.tokens.length) :
    Cursor.peek (k.on shift c) n = Cursor.peek c n := by
  simp [Cursor.peek, on, List.getElem?_append_left inside, List.getElem?_eq_getElem inside]

/-- At the end of a list stands the first token of what follows. -/
theorem kind_peek_on : (Cursor.peek (k.on shift c) c.tokens.length).kind = kindAt k.tail 0 := by
  rw [kind_peek, kindAt, on, List.getElem?_append_right (Nat.le_refl _), Nat.sub_self, kindAt]

theorem on_next (some : c.tokens ≠ []) :
    k.on shift (Cursor.next c) = Cursor.next (k.on shift c) := by
  simp [on, Cursor.next, List.tail_append_of_ne_nil some]

end Context

/-- A parser, and another one in a context. The tokens of a segment are a list of their own, which
nothing follows. -/
def Walk.following (shift : Nat) : Walk Context where
  toLikeness := .renumbered (· + shift)
  lenient := True
  stands k _ c c' := c' = k.on shift c
  token _ := Eq
  segment _ _ := Eq
  stop _ _ _ := True
  strict := False.elim
  up := id
  later _ there _ := there
  shorter _ there _ _ := there
  next {k _ c _} stands here := by rw [stands, k.on_next shift (here.resolve_right id)]
  fresh stands := by
    subst stands
    refine ⟨rfl, ?_⟩
    simp only [Context.on, Nat.add_right_comm]
  count stands := by
    subst stands
    simp [Context.on]
  ahead {k _ _ c _} stands near := by
    subst stands
    rcases Nat.lt_or_eq_of_le near with inside | rfl
    · exact .inl (k.peek_on shift inside).symm
    · exact .inr ⟨trivial, rfl, by rw [k.kind_peek_on]; exact k.ends⟩
  kind like := congrArg Token.kind like
  text like := congrArg Token.text like
  placed _ := .inr trivial
  lines like := congrArg Token.line like
  refused _ _ := trivial
  returns {k _ c _} stands _ real := by
    have inside : 1 < c.tokens.length := by
      by_contra short
      simp [Cursor.peek, List.getElem?_eq_none (Nat.le_of_not_lt short)] at real
    rw [stands, k.peek_on shift inside, k.peek_on shift (Nat.zero_lt_of_lt inside)]
  parts stands like := by
    rw [← like]
    exact List.forall₂_same.mpr fun _ _ => ⟨rfl, rfl⟩
  enter {k _ c _ tokens _} stands inside := by
    subst stands
    subst inside
    let alone : Context := ⟨[], endLine tokens, by decide⟩
    refine ⟨alone, ?_, fun _ _ => id, fun _ d d' there => ⟨fun ends => ?_, ?_⟩⟩
    · simp [Context.on, start, alone]
    · rw [kind_peek] at ends ⊢
      simpa [there, Context.on, alone] using ends
    · simp [there, Context.on]

/-- What a grammar reads, every deeper one reads in every context. -/
theorem grammar_following (shift : Nat) {depth depth' : Nat} (deeper : depth ≤ depth') :
    Grammar.Walks (.following shift) depth (grammar depth) (grammar depth') := by
  have base (more : Nat) : Grammar.Walks (.following shift) 0 (grammar 0) (grammar more) :=
    ⟨fun _ => .excused trivial, fun _ => .excused trivial, fun _ => .excused trivial,
      fun _ _ _ ran => by cases ran⟩
  obtain ⟨more, rfl⟩ := Nat.exists_eq_add_of_le' deeper
  have walks := grammar_walks (base more) depth
  rwa [Nat.zero_add] at walks

theorem expression_follows {depth depth' : Nat} (deeper : depth ≤ depth') (k : Context)
    (shift : Nat) {c d : Cursor} {e : Node} (ran : expression (grammar depth) c = .ok (e, d)) :
    expression (grammar depth') (k.on shift c) = .ok (e.renumber (· + shift), k.on shift d) := by
  have agrees := expression_agrees (grammar_following shift deeper) (i := k) (c := c) rfl
  unfold Walk.Agrees at agrees
  rw [ran] at agrees
  cases agrees with
  | ok like stands _ _ gives =>
      rw [gives fun _ => .inl trivial, like, stands]

end Parser

end EplLang
