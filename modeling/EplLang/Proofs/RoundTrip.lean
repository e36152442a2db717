import EplLang.Proofs.RoundTrip.Expression

/-!
# Reading programs back

There are no terminators: a statement is over where no token goes on with it. So the
text of a program can only be read back if the first token of every statement, and the
end of every block, closes whatever stands before it (`Opens`, `parted_of_end`). A name
could go on with nothing, and the keywords of statements are neither `and` nor `or` nor
`else`.

A name at the start of a statement is the start of a binding, of an assignment into a
container or of a call, and the one or two tokens after it tell which
(`statement_bind`, `statement_assign`, `statement_call`). The main statement
`parse_text` is about programs of any size and nesting: as many levels of nesting as
there are tokens are enough (`grammar_recovers`).
-/

set_option autoImplicit false

namespace EplLang.Parser

/-! ## Where a statement is over -/

/-- No token goes on with a statement: neither with its last expression nor with its
branches. -/
structure Parted (rest : List Token) : Prop where
  closed : Closed rest
  noElse : ∀ t ∈ rest.head?, isKeyword t "else" = false

/-- The first token of a statement. -/
structure Opens (t : Token) : Prop where
  closes : closes t = true
  noElse : isKeyword t "else" = false
  noEnd : ¬(t.kind = .closeBrace ∨ t.kind = .endOfInput)

theorem Opens.parted {t : Token} (opens : Opens t) (rest : List Token) : Parted (t :: rest) := by
  refine ⟨closed_cons opens.closes, fun other same => ?_⟩
  cases same
  exact opens.noElse

theorem parted_of_end {rest : List Token} (ends : kindAt rest 0 ∈ [.closeBrace, .endOfInput]) :
    Parted rest := by
  cases rest with
  | nil => exact ⟨nofun, nofun⟩
  | cons t rest =>
      have kind : t.kind = .closeBrace ∨ t.kind = .endOfInput := by simpa [kindAt] using ends
      refine ⟨closed_cons ?_, fun other same => ?_⟩
      · rcases kind with kind | kind <;> simp [closes, kind, logical?, isKeyword, continuing]
      · cases same
        rcases kind with kind | kind <;> simp [kind, isKeyword]

/-- Every statement starts with a name or with a keyword of its own. -/
theorem stmt_opens (s : Style) {n : Node} (plain : n.PlainStmt) (real : n.isMarker = false) :
    ∃ t more, s.stmt n = t :: more ∧ Opens t := by
  obtain ⟨isPlain, _, _⟩ := plain
  cases n with
  | newLine => cases real
  | assign base path value =>
      obtain ⟨⟨n, rfl⟩, _⟩ := isPlain
      exact ⟨_, _, rfl, rfl, rfl, not_or_intro (ne_of_beq_false rfl) (ne_of_beq_false rfl)⟩
  | call callee args =>
      obtain ⟨n, links, rfl, _⟩ := isPlain
      simp only [Style.stmt, s.chain_chain]
      exact ⟨_, _, rfl, rfl, rfl, not_or_intro (ne_of_beq_false rfl) (ne_of_beq_false rfl)⟩
  | bind | give | leave | load | branch | loop | range | each =>
      exact ⟨_, _, rfl, rfl, rfl, not_or_intro (ne_of_beq_false rfl) (ne_of_beq_false rfl)⟩
  | _ => exact isPlain.elim

section Rules

variable {g : Grammar} {s : Style} {depth : Nat} {e : Node} {rest : List Token}

/-! ## Assignments and calls -/

theorem assignment_group (recovers : g.Recovers s depth) (plain : e.PlainExpr)
    (short : (s.expr e).length < depth) (closed : Closed rest) (target : Node) :
    Reads (assignment g target) e.Like (s.mark .assign :: (s.grouped (s.expr e) ++ rest)) rest := by
  have single : Reads compound (· = none) (s.mark .assign :: (s.grouped (s.expr e) ++ rest))
      (s.mark .assign :: (s.grouped (s.expr e) ++ rest)) :=
    .peek (.peek_kind fun t _ => .pure rfl)
  refine .bind single ?_
  rintro _ rfl
  exact .expect rfl (.bind (expression_group recovers plain short closed) fun n like => .pure like)

theorem statement_bind (recovers : g.Recovers s depth) (plain : e.PlainExpr)
    (short : (s.expr e).length < depth) (closed : Closed rest) (n : Text) :
    Reads (statement g) (Node.bind n e).Like
      (s.ident n :: s.mark .assign :: (s.grouped (s.expr e) ++ rest)) rest := by
  refine .peek (.peek_kind fun next same => .peek_kind fun after _ => ?_)
  have starts : startsBinding next.kind after.kind = true := by rw [same]; rfl
  rw [if_pos ⟨rfl, starts⟩]
  refine .advance (.bind (assignment_group recovers plain short closed _) fun value like => ?_)
  refine .pure ?_
  simp only [Node.Like, Node.bare] at like ⊢
  rw [like]
  rfl

/-- A name before an index path starts no binding. -/
theorem statement_indexed {P : Node → Prop} {n : Text} {tokens : List Token}
    (starts : kindAt tokens 0 = .openBracket ∨ kindAt tokens 0 = .dot)
    (read : Reads (indexed g) P (s.ident n :: tokens) rest) :
    Reads (statement g) P (s.ident n :: tokens) rest := by
  refine .peek (.peek_kind fun next same => .peek_kind fun after _ => ?_)
  have kind : next.kind = .openBracket ∨ next.kind = .dot := by
    rw [same]
    exact starts
  have none : startsBinding next.kind after.kind = false := by
    rcases kind with kind | kind <;> simp [startsBinding, kind, compoundOps]
  rw [if_neg (by simp [none]), if_pos ⟨rfl, kind⟩]
  exact read

theorem statement_assign (recovers : g.Recovers s depth) {path : List Node} (somewhere : path ≠ [])
    (places : ∀ e ∈ path, e.PlainExpr) (plain : e.PlainExpr)
    (short : (s.segments path).length + (s.expr e).length < depth) (closed : Closed rest)
    (n : Text) :
    Reads (statement g) (Node.assign (.name n) path e).Like
      (s.ident n :: (s.segments path ++ s.mark .assign :: (s.grouped (s.expr e) ++ rest)))
      rest := by
  refine statement_indexed (kindAt_index somewhere _) (.advance ?_)
  refine .bind (path_groups recovers places (by omega) nofun nofun) fun parsed alike => ?_
  refine .bind (suffixes_stop (P := (· = .index (.name n) parsed)) rfl nofun nofun nofun) ?_
  rintro _ rfl
  refine .bind (assignment_group recovers plain (by omega) closed _) fun value like => .pure ?_
  simp only [Node.Like, Node.bare] at like ⊢
  rw [like, alike]

theorem call_of_like {callee n : Node} {args : List Node} (like : (Node.call callee args).Like n) :
    ∃ callee' args', n = .call callee' args' := by
  cases n <;> simp_all [Node.Like, Node.bare]

/-- A call that stands as a statement. Whether it is read as an expression or as the
target of an assignment depends on what follows the name. -/
theorem statement_call (recovers : g.Recovers s depth) {n : Text} {links : List Link}
    {callee : Node} {args : List Node}
    (called : links.foldl Link.after (.name n) = .call callee args)
    (plain : ∀ link ∈ links, link.Plain) (apart : Link.Apart links)
    (short : (links.flatMap s.link).length ≤ depth) (closed : Closed rest) :
    Reads (statement g) (Node.call callee args).Like
      (s.ident n :: (links.flatMap s.link ++ rest)) rest := by
  have ends : kindAt rest 0 ∉ [.openParen, .openBracket, .dot] := closed.not_mem (by decide)
  simp only [List.mem_cons, List.not_mem_nil, or_false, not_or] at ends
  obtain ⟨paren, bracket, dot⟩ := ends
  cases links with
  | nil => cases called
  | cons link more =>
      cases link with
      | call first =>
          refine .peek (.peek_kind fun next same => .peek_kind fun after _ => ?_)
          have kind : next.kind = .openParen := same
          have none : startsBinding next.kind after.kind = false := by
            simp [startsBinding, kind, compoundOps]
          rw [if_neg (by simp [none]), if_neg (by simp [kind]), if_neg (by simp [Style.ident])]
          have read : Reads (operand g) (Node.call callee args).Like
              (s.ident n :: ((Link.call first :: more).flatMap s.link ++ rest)) rest := by
            refine .bind (P := (· = .name n)) (.peek (.advance (.pure rfl))) ?_
            rintro _ rfl
            exact suffixes_links recovers plain apart short paren bracket dot
              (congrArg Node.bare called)
          refine .bind (expression_of_operand read closed) fun node like => ?_
          obtain ⟨callee, args, rfl⟩ := call_of_like like
          exact .pure like
      | index path =>
          obtain ⟨⟨somewhere, places⟩, others⟩ := List.forall_mem_cons.mp plain
          rw [List.flatMap_cons, List.length_append] at short
          rw [List.flatMap_cons, List.append_assoc]
          simp only [Style.link] at short
          obtain ⟨noBracket, noDot⟩ := kindAt_links (s := s) (apart.1 rfl) bracket dot
          refine statement_indexed (kindAt_index somewhere _) (.advance ?_)
          refine .bind (path_groups recovers places (by omega) noBracket noDot)
            fun parsed alike => ?_
          have like : (Node.call callee args).Like
              (more.foldl Link.after (.index (.name n) parsed)) := by
            refine (bare_foldl_after ?_ more).trans (congrArg Node.bare called)
            simp [Link.after, Node.bare, alike]
          refine .bind (suffixes_links recovers others apart.2 (by omega) paren bracket dot like)
            fun node like => ?_
          obtain ⟨callee, args, rfl⟩ := call_of_like like
          exact .pure like

/-! ## Branches and loops -/

theorem guarded_group (recovers : g.Recovers s depth) {body : Block} (plain : e.PlainExpr)
    (statements : body.Plain)
    (short : (s.expr e).length + (s.block body).length < depth) (rest : List Token) :
    Reads (guarded g) (fun pair => e.Like pair.1 ∧ Node.bareBlock pair.2 = Node.bareBlock body)
      (s.grouped (s.expr e) ++ (s.braced (s.block body) ++ rest)) rest := by
  refine .bind (expression_group recovers plain (by omega) (closed_cons rfl)) fun n like => ?_
  exact .bind (braced_block recovers statements (by omega)) fun parsed same => .pure ⟨like, same⟩

theorem elseBranches_listed (recovers : g.Recovers s depth) {elifs : List (Node × Block)}
    {otherwise : Option Block} (plain : ∀ elif ∈ elifs, elif.1.PlainExpr ∧ Block.Plain elif.2)
    (last : ∀ body ∈ otherwise, Block.Plain body)
    (short : (s.elseIfs elifs).length + (s.elseLast otherwise).length < depth)
    (parted : Parted rest) :
    Reads (elseBranches g)
      (fun pair => Node.bareElifs pair.1 = Node.bareElifs elifs ∧
        Node.bareLast pair.2 = Node.bareLast otherwise)
      (s.elseIfs elifs ++ (s.elseLast otherwise ++ rest)) rest := by
  refine .along
    (I := fun left parsed => Node.bareElifs parsed ++ Node.bareElifs left = Node.bareElifs elifs ∧
      (∀ elif ∈ left, elif.1.PlainExpr ∧ Block.Plain elif.2) ∧
      (s.elseIfs left).length + (s.elseLast otherwise).length < depth)
    (fun left => s.elseIfs left ++ (s.elseLast otherwise ++ rest)) ?_ ?_ ⟨rfl, plain, short⟩
  · rintro parsed ⟨same, _, short⟩
    have all : Node.bareElifs parsed = Node.bareElifs elifs := by
      simpa [Node.bareElifs] using same
    cases otherwise with
    | none => exact .seesKeyword_else parted.noElse (.pure ⟨all, rfl⟩)
    | some body =>
        simp only [Style.elseLast, List.length_cons, Style.length_braced] at short
        refine .seesKeyword_then rfl (.advance (.seesKeyword_else ?_ ?_))
        · intro t same
          cases same
          rfl
        · refine .bind (braced_block recovers (last body rfl) (by omega)) fun parsed same => ?_
          exact .pure ⟨all, by simp [Node.bareLast, same]⟩
  · rintro ⟨test, body⟩ left parsed ⟨same, plain, short⟩
    obtain ⟨⟨expr, statements⟩, others⟩ := List.forall_mem_cons.mp plain
    simp only [Style.elseIfs, List.length_cons, List.length_append, Style.length_grouped,
      Style.length_braced] at short
    simp only [Style.elseIfs, List.cons_append, List.append_assoc]
    refine .inl ⟨.seesKeyword_then rfl (.advance (.seesKeyword_then rfl (.advance ?_))), ?_⟩
    · refine .bind (guarded_group recovers expr statements (by dsimp only; omega) _)
        fun elif like => .pure ?_
      refine ⟨?_, others, by omega⟩
      rw [← same, Node.bareElifs_append]
      simp [Node.bareElifs, like.1.symm, like.2]
    · simp only [List.length_cons, List.length_append]
      omega

theorem forLoop_each (recovers : g.Recovers s depth) {body : Block} (plain : e.PlainExpr)
    (statements : body.Plain) (short : (s.expr e).length + (s.block body).length < depth)
    (n : Text) :
    Reads (forLoop g) (Node.each n e body).Like
      (s.ident n :: s.word "in" :: (s.grouped (s.expr e) ++ (s.braced (s.block body) ++ rest)))
      rest := by
  refine .expect rfl (.peek ?_)
  refine .advance (.bind (expression_group recovers plain (by omega) (closed_cons rfl))
    fun collection like => .sees_else (ne_of_beq_false rfl) ?_)
  refine .bind (braced_block recovers statements (by omega)) fun parsed same => .pure ?_
  simp only [Node.Like, Node.bare] at like ⊢
  rw [like, same]
  rfl

theorem forLoop_range (recovers : g.Recovers s depth) {e' : Node} {body : Block}
    (plain : e.PlainExpr) (plain' : e'.PlainExpr) (statements : body.Plain)
    (short : (s.expr e).length + (s.expr e').length + (s.block body).length < depth) (n : Text) :
    Reads (forLoop g) (Node.range n e e' body).Like
      (s.ident n :: s.word "in" :: (s.grouped (s.expr e) ++ s.mark .comma ::
        (s.grouped (s.expr e') ++ (s.braced (s.block body) ++ rest)))) rest := by
  refine .expect rfl (.peek ?_)
  refine .advance (.bind (expression_group recovers plain (by omega) (closed_cons rfl))
    fun first like => .sees_then rfl (.advance ?_))
  refine .bind (expression_group recovers plain' (by omega) (closed_cons rfl)) fun last like' => ?_
  refine .bind (braced_block recovers statements (by omega)) fun parsed same => .pure ?_
  simp only [Node.Like, Node.bare] at like like' ⊢
  rw [like, like', same]
  rfl

/-! ## All statements -/

theorem statement_keyword {P : Node → Prop} {word : Text} {tokens : List Token}
    (read : Reads (keywordStatement g) P (s.word word :: tokens) rest) :
    Reads (statement g) P (s.word word :: tokens) rest := by
  refine .peek (.peek_kind fun next _ => .peek_kind fun after _ => ?_)
  have keyword : (s.word word).kind = .keyword := rfl
  rw [if_neg nofun, if_neg nofun, if_pos keyword]
  exact read

/-- A statement is read back, whatever stands before which it is over. -/
theorem statement_stmt (recovers : g.Recovers s depth) {n : Node} (plain : n.PlainStmt)
    (real : n.isMarker = false) (short : (s.stmt n).length ≤ depth) (parted : Parted rest) :
    Reads (statement g) n.Like (s.stmt n ++ rest) rest := by
  have closed := parted.closed
  obtain ⟨isPlain, parts, blocks⟩ := plain
  cases n with
  | newLine => cases real
  | bind n value =>
      simp only [Style.stmt, List.length_cons, Style.length_grouped] at short
      exact statement_bind recovers (List.forall_mem_singleton.mp parts) (by omega) closed n
  | assign base path value =>
      obtain ⟨⟨n, rfl⟩, somewhere⟩ := isPlain
      obtain ⟨_, others⟩ := List.forall_mem_cons.mp parts
      obtain ⟨value', places⟩ := List.forall_mem_cons.mp others
      simp only [Style.stmt, Style.chain, List.length_append, List.length_cons,
        Style.length_grouped] at short
      simp only [Style.stmt, Style.chain, List.append_assoc, List.cons_append, List.nil_append]
      exact statement_assign recovers somewhere places value' (by omega) closed n
  | call callee args =>
      obtain ⟨n, links, rfl, apart⟩ := isPlain
      obtain ⟨first, others⟩ := List.forall_mem_cons.mp parts
      have text : s.stmt (.call (.chain n links) args) =
          s.ident n :: (links ++ [Link.call args]).flatMap s.link := by
        simp [Style.stmt, s.chain_chain, Style.link]
      rw [text, List.length_cons] at short
      rw [text, List.cons_append]
      refine statement_call recovers ?_ ?_ (apart.called args) (by omega) closed
      · simp [Node.chain, Link.after]
      · exact List.forall_mem_append.mpr
          ⟨(Link.plain_of_foldl first).2, List.forall_mem_singleton.mpr others⟩
  | give value =>
      simp only [Style.stmt, List.length_cons, Style.length_grouped] at short
      have read := expression_group recovers (List.forall_mem_singleton.mp parts) (by omega) closed
      refine statement_keyword (.advance (.peek ?_))
      rw [if_neg (by simp [Style.mark, Style.word])]
      refine .bind read fun n like => .pure ?_
      simp only [Node.Like, Node.bare] at like ⊢
      rw [like]
  | leave => exact statement_keyword (.advance (.pure rfl))
  | load path =>
      simp only [Style.stmt, List.length_cons, Style.length_grouped] at short
      have read := expression_group recovers (List.forall_mem_singleton.mp parts) (by omega) closed
      refine statement_keyword (.advance (.bind read fun n like => .pure ?_))
      simp only [Node.Like, Node.bare] at like ⊢
      rw [like]
  | branch test body elifs otherwise =>
      simp only [Style.stmt, List.length_cons, List.length_append, Style.length_grouped,
        Style.length_braced] at short
      simp only [Style.stmt, List.cons_append, List.append_assoc]
      obtain ⟨test', tests⟩ := List.forall_mem_cons.mp parts
      obtain ⟨body', bodies⟩ := List.forall_mem_cons.mp blocks
      obtain ⟨bodies, last⟩ := List.forall_mem_append.mp bodies
      refine statement_keyword (.advance ?_)
      refine .bind (guarded_group recovers test' body' (by omega) _) fun first like => ?_
      refine .bind (elseBranches_listed recovers (fun elif member => ?_) (fun body found => ?_)
        (by omega) parted) fun others like' => .pure ?_
      · exact ⟨tests _ (List.mem_map_of_mem member), bodies _ (List.mem_map_of_mem member)⟩
      · exact last body (Option.mem_toList.mpr found)
      · simp only [Node.Like, Node.bare] at like ⊢
        rw [like.1, like.2, like'.1, like'.2]
  | loop test body =>
      simp only [Style.stmt, List.length_cons, List.length_append, Style.length_grouped,
        Style.length_braced] at short
      simp only [Style.stmt, List.cons_append, List.append_assoc]
      have read := guarded_group recovers (List.forall_mem_singleton.mp parts)
        (List.forall_mem_singleton.mp blocks) (by omega) rest
      refine statement_keyword (.advance (.bind read fun pair like => .pure ?_))
      simp only [Node.Like, Node.bare] at like ⊢
      rw [like.1, like.2]
  | range n first last body =>
      simp only [Style.stmt, List.length_cons, List.length_append, Style.length_grouped,
        Style.length_braced] at short
      simp only [Style.stmt, List.cons_append, List.append_assoc]
      obtain ⟨first', last'⟩ := List.forall_mem_cons.mp parts
      exact statement_keyword (.advance (forLoop_range recovers first'
        (List.forall_mem_singleton.mp last') (List.forall_mem_singleton.mp blocks) (by omega) n))
  | each n collection body =>
      simp only [Style.stmt, List.length_cons, List.length_append, Style.length_grouped,
        Style.length_braced] at short
      simp only [Style.stmt, List.cons_append, List.append_assoc]
      exact statement_keyword (.advance (forLoop_each recovers (List.forall_mem_singleton.mp parts)
        (List.forall_mem_singleton.mp blocks) (by omega) n))
  | _ => exact isPlain.elim

/-! ## Blocks -/

/-- A block without its markers has the same text, and is the same without its lines. -/
theorem block_filter (body : Block) :
    s.block (body.filter fun st => !st.node.isMarker) = s.block body ∧
      Node.bareBlock (body.filter fun st => !st.node.isMarker) = Node.bareBlock body := by
  induction body with
  | nil => exact ⟨rfl, rfl⟩
  | cons st rest ih =>
      obtain ⟨line, n⟩ := st
      cases marker : n.isMarker with
      | true =>
          have nothing : s.stmt n = [] := by
            unfold Node.isMarker at marker
            split at marker
            · rfl
            · cases marker
          simp [marker, Style.block, Node.bareBlock, nothing, ih]
      | false => simp [marker, Style.block, Node.bareBlock, ih]

/-- Statements up to the end of the block. -/
theorem block_statements (recovers : g.Recovers s depth) {body : Block} (plain : body.Plain)
    (real : ∀ st ∈ body, st.node.isMarker = false) (short : (s.block body).length ≤ depth)
    (ends : kindAt rest 0 ∈ [.closeBrace, .endOfInput]) :
    Reads (block g) (fun parsed => Node.bareBlock parsed = Node.bareBlock body)
      (s.block body ++ rest) rest := by
  refine .along
    (I := fun left (state : Block × Int) =>
      Node.bareBlock state.1 ++ Node.bareBlock left = Node.bareBlock body ∧ Block.Plain left ∧
      (∀ st ∈ left, st.node.isMarker = false) ∧ (s.block left).length ≤ depth)
    (fun left => s.block left ++ rest) ?_ ?_ ⟨rfl, plain, real, short⟩
  · rintro ⟨parsed, last⟩ ⟨same, _⟩
    refine .peek_kind fun t kind => ?_
    rw [if_pos (by rw [kind]; simpa [Style.block] using ends)]
    refine .pure ?_
    simpa [Node.bareBlock] using same
  · rintro ⟨line, n⟩ left ⟨parsed, last⟩ ⟨same, plain, real, short⟩
    obtain ⟨here, others⟩ := List.forall_mem_cons.mp plain
    obtain ⟨noMarker, others'⟩ := List.forall_mem_cons.mp real
    have parted : Parted (s.block left ++ rest) := by
      cases left with
      | nil => exact parted_of_end ends
      | cons next left =>
          obtain ⟨line, next⟩ := next
          obtain ⟨t, more, text, opens⟩ := stmt_opens s (others _ List.mem_cons_self)
            (others' _ List.mem_cons_self)
          simp only [Style.block, text, List.cons_append]
          exact opens.parted _
    simp only [Style.block, List.length_append] at short
    have read := statement_stmt (n := n) recovers here noMarker (by omega) parted
    obtain ⟨t, more, text, opens⟩ := stmt_opens (n := n) s here noMarker
    simp only [Style.block, List.append_assoc]
    rw [text] at read short ⊢
    refine .inl ⟨.peek ?_, by simp only [List.length_append, List.length_cons]; omega⟩
    rw [if_neg opens.noEnd]
    refine .bind read fun node like => .pure ⟨?_, others, others', by omega⟩
    have noMarker' : node.isMarker = false := by
      rw [← Node.isMarker_bare, like, Node.isMarker_bare]
      exact noMarker
    have marker : Node.newLine.isMarker = true := rfl
    rw [← same, Node.bareBlock_append, Node.bareBlock_append]
    split <;> simp [Node.bareBlock, marker, noMarker, noMarker', like.symm]

theorem block_block (recovers : g.Recovers s depth) {body : Block} (plain : body.Plain)
    (short : (s.block body).length ≤ depth)
    (ends : kindAt rest 0 ∈ [.closeBrace, .endOfInput]) :
    Reads (block g) (fun parsed => Node.bareBlock parsed = Node.bareBlock body)
      (s.block body ++ rest) rest := by
  obtain ⟨text, bare⟩ := block_filter (s := s) body
  rw [← text, ← bare]
  refine block_statements recovers (fun st member => plain st (List.mem_filter.mp member).1)
    (fun st member => ?_) (by rw [text]; exact short) ends
  simpa using (List.mem_filter.mp member).2

end Rules

/-! ## Whole programs -/

/-- Nesting to a depth is enough for texts with fewer tokens. -/
theorem grammar_recovers (s : Style) (depth : Nat) : (grammar depth).Recovers s depth := by
  induction depth with
  | zero => exact ⟨fun _ => nofun, fun _ => nofun, fun _ => nofun, fun _ => nofun⟩
  | succ depth ih =>
      refine ⟨fun plain short closed => ?_, fun plain short closed => ?_,
        fun plain short ends => ?_, fun plain short ends => ?_⟩
      · exact expression_expr ih plain (by omega) closed
      · rw [Style.length_grouped] at short
        exact expression_group ih plain (by omega) closed
      · rw [Style.length_grouped] at short
        exact operand_group ih plain (by omega) ends
      · exact block_block ih plain (by omega) ends

theorem length_le_tokensWeight (tokens : List Token) : tokens.length ≤ tokensWeight tokens := by
  induction tokens with
  | nil => exact Nat.le_refl 0
  | cons t rest ih =>
      obtain ⟨kind, line, text, parts⟩ := t
      simp only [List.length_cons, tokensWeight, weight]
      omega

theorem program_reads {g : Grammar} {s : Style} {depth : Nat} (recovers : g.Recovers s depth)
    {body : Block} (plain : body.Plain) (short : (s.block body).length < depth) :
    Reads (program g) (fun parsed => Node.bareBlock parsed = Node.bareBlock body)
      (s.block body) [] := by
  have read := recovers.block plain short (show kindAt [] 0 ∈ _ by decide)
  rw [List.append_nil] at read
  refine .bind read fun parsed same => .peek_kind fun t kind => ?_
  have ends : t.kind = .endOfInput := kind
  simp only [ends, ne_eq, not_true_eq_false, if_false]
  exact .pure same

end EplLang.Parser

namespace EplLang

/-- Every program that can be written down is read back from its text, up to lines: no
statement runs into the next one, although nothing stands between them. -/
theorem parse_text (style : Style) {body : Block} (plain : body.Plain) :
    ∃ parsed, parse (style.block body) = .ok parsed ∧
      Node.bareBlock parsed = Node.bareBlock body := by
  have enough := Parser.length_le_tokensWeight (style.block body)
  have inline : Style.Inline (style.block body) :=
    Style.inline_block fun st member => Style.inline_stmt (plain st member)
  have same : (Parser.start 0 (style.block body)).tokens = style.block body :=
    List.filter_eq_self.mpr fun t member => by simpa using inline t member
  obtain ⟨parsed, c, ran, _, bare⟩ := Parser.program_reads
    (Parser.grammar_recovers style _) plain (Nat.lt_succ_of_le enough) _ same
  refine ⟨parsed, ?_, bare⟩
  unfold parse Parser.parseFrom
  rw [ran]
  rfl

/-- A function is bound, put under a key, called from there and by its name: on one line
these are `f=((x)=>{return(x)})a.k=(f)a.k((f))if(f){break}f()`. -/
theorem parse_text_call_after_value :
    ∃ body : Block, body = [
        ⟨1, .bind "f" (.function 0 ["x"] [⟨1, .give (.name "x")⟩])⟩,
        ⟨1, .assign (.name "a") [.text "k"] (.name "f")⟩,
        ⟨1, .call (.index (.name "a") [.text "k"]) [.name "f"]⟩,
        ⟨1, .branch (.name "f") [⟨1, .leave⟩] [] none⟩,
        ⟨1, .call (.name "f") []⟩] ∧
      body.Plain ∧
      ∃ parsed, parse ((Style.mk 1 fun _ => true).block body) = .ok parsed ∧
        Node.bareBlock parsed = Node.bareBlock body := by
  have name := Node.PlainExpr.name
  have text (t : Text) : (Node.text t).PlainExpr := .intro trivial nofun nofun
  have give : (Node.give (.name "x")).PlainStmt :=
    .intro trivial (List.forall_mem_singleton.mpr (name _)) nofun
  have place : (Node.index (.name "a") [.text "k"]).PlainExpr :=
    .intro nofun (List.forall_mem_cons.mpr ⟨name _, List.forall_mem_singleton.mpr (text _)⟩) nofun
  have plain : Block.Plain [
      ⟨1, .bind "f" (.function 0 ["x"] [⟨1, .give (.name "x")⟩])⟩,
      ⟨1, .assign (.name "a") [.text "k"] (.name "f")⟩,
      ⟨1, .call (.index (.name "a") [.text "k"]) [.name "f"]⟩,
      ⟨1, .branch (.name "f") [⟨1, .leave⟩] [] none⟩,
      ⟨1, .call (.name "f") []⟩] := by
    intro st member
    simp only [List.mem_cons, List.not_mem_nil, or_false] at member
    rcases member with rfl | rfl | rfl | rfl | rfl
    · refine .intro trivial (List.forall_mem_singleton.mpr ?_) nofun
      exact .intro trivial nofun (List.forall_mem_singleton.mpr give)
    · refine .intro ⟨⟨_, rfl⟩, nofun⟩ (List.forall_mem_cons.mpr ⟨name _, ?_⟩) nofun
      exact List.forall_mem_cons.mpr ⟨name _, List.forall_mem_singleton.mpr (text _)⟩
    · refine .intro ⟨"a", [.index [.text "k"]], rfl, fun _ => nofun, trivial⟩ ?_ nofun
      exact List.forall_mem_cons.mpr ⟨place, List.forall_mem_singleton.mpr (name _)⟩
    · refine .intro trivial (List.forall_mem_singleton.mpr (name _)) ?_
      exact List.forall_mem_singleton.mpr
        (List.forall_mem_singleton.mpr (.intro trivial nofun nofun))
    · exact .intro ⟨"f", [], rfl, trivial⟩ (List.forall_mem_singleton.mpr (name _)) nofun
  exact ⟨_, rfl, plain, parse_text _ plain⟩

end EplLang
