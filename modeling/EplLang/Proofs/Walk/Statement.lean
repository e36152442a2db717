import EplLang.Proofs.Walk.Expression

/-!
# Along the rules for statements

In every walk the rules for statements agree, and with them the whole grammar. Two of them take the
end of the tokens for an answer: a block is over there, and a `return` has no value. So they are not
loose: in a lenient walk the second parser, which may stand before more tokens there, is not bound
to follow. A block between braces binds it again.
-/

set_option autoImplicit false

namespace EplLang.Parser

section Statements

variable {ι : Type} {w : Walk ι} {i : ι} {n : Nat} {g g' : Grammar} (walks : Grammar.Walks w n g g')
  {c c' : Cursor}
include walks

/-! ## Assignments -/

omit walks in
theorem compound_agrees (stands : w.stands i n c c') :
    w.Agrees i True c c' idle (fun a b => a = b ∧ ∀ op ∈ a, op ∈ Node.arithmeticOps) compound
      compound := by
  refine .peek (.peek ?_)
  simp only [Bool.and_eq_true, decide_eq_true_eq, beq_iff_eq]
  refine .ite ?_ (fun operator => ?_) fun _ =>
    .pure stands ⟨rfl, fun _ same => by cases same⟩ not_false
  · exact w.blind_two stands (P := (· ∈ compoundOps)) (Q := (· = .assign)) (by decide) (by decide)
  · have some : c.tokens ≠ [] := by
      refine Cursor.tokens_ne_nil fun ends => ?_
      rw [ends] at operator
      exact absurd operator.1 (by decide)
    refine .advance (w.up stands) some fun stands op => .pure stands ⟨?_, ?_⟩ not_false
    · exact congrArg Option.some (w.kind op)
    · intro op same
      cases same
      exact operator.1

theorem assignment_agrees (stands : w.stands i n c c') {target target' : Node}
    (same : w.expr target target') :
    w.Agrees i True c c' idle w.expr (assignment g target) (assignment g' target') := by
  refine .bind stands (compound_agrees stands) fun op op' d d' stands ops => ?_
  obtain ⟨rfl, table⟩ := ops
  refine .expect (w.up stands) (by decide) fun stands _ => ?_
  refine .bind stands (expression_agrees walks (w.up stands)).weaken
    fun value value' d d' stands like => .pure stands ?_ not_false
  cases op with
  | none => exact like
  | some op => exact w.arithmetic (table op rfl) same like

theorem binding_agrees (stands : w.stands i (n + 1) c c') (here : c.tokens ≠ [] ∨ w.free) :
    w.Agrees i True c c' (fun _ => c.tokens ≠ []) w.stmt (binding g) (binding g') := by
  refine .advance_any stands here fun stands id => ?_
  rw [← w.text id]
  refine .bind stands (assignment_agrees walks stands (w.name _))
    fun value value' d d' stands like => ?_
  exact .pure stands (w.bind _ like) not_false

theorem indexed_agrees (stands : w.stands i (n + 1) c c') (here : c.tokens ≠ [] ∨ w.free)
    (starts : Cursor.StartsPath (Cursor.next c) ∨ w.free) :
    w.Agrees i True c c' (fun _ => c.tokens ≠ []) w.stmt (indexed g) (indexed g') := by
  refine .advance_any stands here fun stands id => ?_
  rw [← w.text id]
  refine .bind stands (path_agrees walks (w.up stands)).weaken fun path path' d d' stands rest => ?_
  have target := w.index (w.name (Cursor.peek c 0).text) rest.1 (starts.imp_left rest.2)
  refine .bind stands (suffixes_agrees walks (w.up stands) target)
    fun node node' d d' stands like => ?_
  have heads := w.head like
  split
  · obtain ⟨callee', args', rfl⟩ := Node.head_eq_call.mp heads.symm
    exact .pure stands (w.calling like) not_false
  · obtain ⟨base', path', rfl⟩ := Node.head_eq_index.mp heads.symm
    refine .bind stands (assignment_agrees walks stands like)
      fun value value' d d' stands also => ?_
    exact .pure stands (w.assign like also) not_false
  · rename_i not_call not_index
    split
    · obtain ⟨callee, args, same⟩ := Node.head_eq_call.mp heads
      exact absurd same (not_call callee args)
    · obtain ⟨base, path, same⟩ := Node.head_eq_index.mp heads
      exact absurd same (not_index base path)
    · exact .refuse (.inl id) _

/-! ## Branches and loops -/

theorem guarded_agrees (stands : w.stands i n c c') :
    w.Agrees i True c c' idle w.Guards (guarded g) (guarded g') := by
  refine .bind stands (expression_agrees walks (w.up stands)).weaken
    fun test test' d d' stands like => ?_
  refine .bind stands (braced_agrees walks (w.up stands)).weaken
    fun body body' d d' stands same => ?_
  exact .pure stands ⟨like, same⟩ not_false

theorem elseRound_agrees (stands : w.stands i n c c') {elifs elifs' : List (Node × Block)}
    (same : List.Forall₂ w.Guards elifs elifs') :
    w.Agrees i True c c' (Round.taking idle) (Round.Pairs (List.Forall₂ w.Guards)
      fun a b => List.Forall₂ w.Guards a.1 b.1 ∧ Option.Rel w.block a.2 b.2) (elseRound g elifs)
      (elseRound g' elifs') := by
  refine .seesKeyword stands (fun some => ?_) (.pure stands ⟨same, .none⟩ not_false)
  refine .advance (w.up stands) some fun stands _ => .seesKeyword stands (fun some => ?_) ?_
  · refine .advance (w.up stands) some fun stands _ => ?_
    refine .bind stands (guarded_agrees walks stands) fun elif elif' d d' stands like => ?_
    exact .pure stands (forall₂_concat same like) not_false
  · refine .bind stands (braced_agrees walks (w.up stands)).weaken
      fun body body' d d' stands last => ?_
    exact .pure stands ⟨same, .some last⟩ not_false

theorem elseBranches_agrees (stands : w.stands i n c c') :
    w.Agrees i True c c' idle
      (fun a b => List.Forall₂ w.Guards a.1 b.1 ∧ Option.Rel w.block a.2 b.2) (elseBranches g)
      (elseBranches g') :=
  .repeated (fun _ _ _ _ stands same => elseRound_agrees walks stands same) stands .nil

theorem forLoop_agrees (stands : w.stands i n c c') :
    w.Agrees i True c c' idle w.stmt (forLoop g) (forLoop g') := by
  refine .expect (w.up stands) (by decide) fun stands id => .peek ?_
  rw [← w.text id]
  refine .ite (by rw [w.isKeyword stands]) (fun _ => ?_) fun keyword => ?_
  · exact .refuse ((w.first stands).imp_right And.left) _
  have some := Cursor.tokens_of_isKeyword (by simpa using keyword)
  refine .advance (w.up stands) some fun stands _ => ?_
  refine .bind stands (expression_agrees walks (w.up stands)).weaken
    fun first first' d d' stands like => ?_
  refine .sees stands (by decide) (fun some => ?_) fun _ => ?_
  · refine .advance (w.up stands) some fun stands _ => ?_
    refine .bind stands (expression_agrees walks (w.up stands)).weaken
      fun last last' d d' stands also => ?_
    refine .bind stands (braced_agrees walks (w.up stands)).weaken
      fun body body' d d' stands same => ?_
    exact .pure stands (w.range _ like also same) not_false
  · refine .bind stands (braced_agrees walks (w.up stands)).weaken
      fun body body' d d' stands same => ?_
    exact .pure stands (w.each _ like same) not_false

omit walks in
/-- A `return` before a token has no value for both parsers or for none. -/
theorem return_over_iff (stands : w.stands i n c c')
    (returns : isKeyword (Cursor.peek c 0) "return" = true ∨ w.free)
    (like : w.token i (Cursor.peek (Cursor.next c) 0) (Cursor.peek (Cursor.next c') 0)) :
    ((Cursor.peek (Cursor.next c) 0).kind = .closeBrace ∨
        (Cursor.peek (Cursor.next c) 0).kind = .endOfInput ∨
        (Cursor.peek (Cursor.next c) 0).line ≠ (Cursor.peek c 0).line) ↔
      ((Cursor.peek (Cursor.next c') 0).kind = .closeBrace ∨
        (Cursor.peek (Cursor.next c') 0).kind = .endOfInput ∨
        (Cursor.peek (Cursor.next c') 0).line ≠ (Cursor.peek c' 0).line) := by
  rw [← w.kind like, Cursor.peek_next, Cursor.peek_next]
  by_cases ends : (Cursor.peek c (0 + 1)).kind = .endOfInput
  · simp [ends]
  · rw [Ne, w.returns stands returns ends]

theorem keywordStatement_agrees (stands : w.stands i (n + 1) c c')
    (here : (Cursor.peek c 0).kind = .keyword ∨ w.free) :
    w.Agrees i False c c' (fun _ => c.tokens ≠ []) w.stmt (keywordStatement g)
      (keywordStatement g') := by
  have outer := stands
  have some : c.tokens ≠ [] ∨ w.free :=
    here.imp_left fun keyword => Cursor.tokens_ne_nil (by simp [keyword])
  refine .advance_any stands some fun stands word => ?_
  refine .ite (by rw [w.text word]) (fun text => .peek ?_) fun _ => ?_
  · rcases w.first stands with like | ⟨lenient, none⟩
    · have returns : isKeyword (Cursor.peek c 0) "return" = true ∨ w.free :=
        here.imp_left fun keyword => by simp [isKeyword, keyword, text]
      refine .ite (return_over_iff outer returns like) (fun _ => ?_) fun _ => ?_
      · exact .pure stands (w.give (w.literal _)) not_false
      · refine .bind stands (expression_agrees walks (w.up stands)).weaken
          fun value value' d d' stands like => ?_
        exact .pure stands (w.give like) not_false
    · rw [if_pos (.inr (.inl (Cursor.peek_of_nil none 0)))]
      exact .ended lenient none stands (w.give (w.literal _)) not_false
  refine .ite (by rw [w.text word]) (fun _ => ?_) fun _ => ?_
  · refine .bind stands (guarded_agrees walks stands).tighten
      fun first first' d d' stands same => ?_
    refine .bind stands (elseBranches_agrees walks stands).tighten
      fun rest rest' d d' stands others => ?_
    exact .pure stands (w.branch same.1 same.2 others.1 others.2) not_false
  refine .ite (by rw [w.text word]) (fun _ => ?_) fun _ => ?_
  · refine .bind stands (guarded_agrees walks stands).tighten
      fun first first' d d' stands same => ?_
    exact .pure stands (w.loop same.1 same.2) not_false
  refine .ite (by rw [w.text word]) (fun _ => (forLoop_agrees walks stands).tighten) fun _ => ?_
  refine .ite (by rw [w.text word]) (fun _ => .pure stands w.leave not_false) fun _ => ?_
  refine .ite (by rw [w.text word]) (fun _ => ?_) fun _ => .refuse (.inl word) _
  refine .bind stands (expression_agrees walks (w.up stands)).weaken
    fun value value' d d' stands like => ?_
  exact .pure stands (w.load like) not_false

omit walks in
/-- Whether a binding starts is told by the first three tokens, and the third is only looked at
behind an operator. -/
theorem startsBinding_iff (stands : w.stands i n c c') :
    ((Cursor.peek c 0).kind = .identifier ∧
        startsBinding (Cursor.peek c 1).kind (Cursor.peek c 2).kind = true) ↔
      (Cursor.peek c' 0).kind = .identifier ∧
        startsBinding (Cursor.peek c' 1).kind (Cursor.peek c' 2).kind = true := by
  have name := w.blind stands (P := (· = .identifier)) (by decide) (Nat.zero_le _)
  refine Iff.trans (and_congr_right fun found => ?_) (and_congr_left' name)
  have some : c.tokens ≠ [] := Cursor.tokens_ne_nil (by simp [found])
  have moved := w.next (w.up stands) (.inl some)
  have plain := w.blind moved (P := (· = .assign)) (by decide) (Nat.zero_le _)
  have operator := w.blind_two moved (P := (· ∈ compoundOps)) (Q := (· = .assign))
    (by decide) (by decide)
  simp only [Cursor.peek_next] at plain operator
  simp only [startsBinding, Bool.or_eq_true, Bool.and_eq_true, decide_eq_true_eq, beq_iff_eq]
  exact or_congr plain operator

theorem statement_agrees (stands : w.stands i (n + 1) c c') :
    w.Agrees i False c c' always w.stmt (statement g) (statement g') := by
  have start := w.first stands
  refine .peek (.peek (.peek (.ite (startsBinding_iff stands) (fun here => ?_) fun _ => ?_)))
  · have some : c.tokens ≠ [] := Cursor.tokens_ne_nil (by simp [here.1])
    exact (binding_agrees walks stands (.inl some)).consequence (fun _ => trivial)
      (fun _ _ => some) fun _ _ => id
  refine .ite (w.blind_two stands (P := (· = .identifier))
    (Q := fun kind => kind = .openBracket ∨ kind = .dot) (by decide) (by decide))
    (fun here => ?_) fun _ => ?_
  · have some : c.tokens ≠ [] := Cursor.tokens_ne_nil (by simp [here.1])
    have starts : Cursor.StartsPath (Cursor.next c) := by
      simpa [Cursor.StartsPath, Cursor.peek_next] using here.2
    exact (indexed_agrees walks stands (.inl some) (.inl starts)).consequence (fun _ => trivial)
      (fun _ _ => some) fun _ _ => id
  refine .ite (w.blind stands (P := (· = .keyword)) (by decide) (Nat.zero_le _)) (fun here => ?_)
    fun _ => ?_
  · have some : c.tokens ≠ [] := Cursor.tokens_ne_nil (by simp [here])
    exact (keywordStatement_agrees walks stands (.inl here)).consequence id (fun _ _ => some)
      fun _ _ => id
  refine .bind_taken stands (expression_agrees walks stands).tighten (fun _ => trivial)
    fun node node' d d' stands like => ?_
  have heads := w.head like
  split
  · obtain ⟨callee', args', rfl⟩ := Node.head_eq_call.mp heads.symm
    exact .pure stands (w.calling like) not_false
  · rename_i not_call
    split
    · obtain ⟨callee, args, same⟩ := Node.head_eq_call.mp heads
      exact absurd same (not_call callee args)
    · exact .refuse (start.imp_right And.left) _

/-! ## Blocks -/

theorem blockRound_agrees (stands : w.stands i (n + 1) c c') {state state' : Block × Int}
    (same : w.block state.1 state'.1 ∧ w.line state.2 state'.2) :
    w.Agrees i False c c' (Round.taking idle)
      (Round.Pairs (fun a b => w.block a.1 b.1 ∧ w.line a.2 b.2) w.block) (blockRound g state)
      (blockRound g' state') := by
  obtain ⟨statements, last⟩ := state
  obtain ⟨statements', last'⟩ := state'
  refine .peek ?_
  rcases w.first stands with like | ⟨lenient, none⟩
  · refine .ite (by rw [w.kind like]) (fun _ => .pure stands same.1 not_false) fun _ => ?_
    refine .bind_taken stands (statement_agrees walks stands) (fun _ => trivial)
      fun node node' d d' stands also => ?_
    exact .pure stands ⟨w.more same.1 (w.lines like) same.2 also, w.lines like⟩ not_false
  · rw [if_pos (.inr (Cursor.peek_of_nil none 0))]
    have ends : Round.Pairs (fun a b : Block × Int => w.block a.1 b.1 ∧ w.line a.2 b.2) w.block
        (.done statements) (.done statements') := same.1
    exact .ended lenient none stands ends not_false

theorem block_agrees (stands : w.stands i (n + 1) c c') :
    w.Agrees i False c c' idle w.block (block g) (block g') :=
  .repeated (fun _ _ _ _ stands same => blockRound_agrees walks stands same) stands
    ⟨w.nil, w.noLine⟩

theorem program_agrees (stands : w.stands i n c c') :
    w.Agrees i False c c' idle w.block (program g) (program g') := by
  refine .bind stands (walks.block stands) fun body body' d d' stands same => .peek ?_
  rcases w.first stands with like | ⟨lenient, none⟩
  · refine .ite (by rw [w.kind like]) (fun _ => .refuse (.inl like) _) fun _ => ?_
    exact .pure stands same not_false
  · rw [if_neg (not_not_intro (Cursor.peek_of_nil none 0))]
    exact .ended lenient none stands same not_false

end Statements

/-! ## The whole grammar -/

/-- Rules that agree before fewer than `n` tokens make rules that agree before one more. -/
theorem grammar_walks {ι : Type} {w : Walk ι} {depth depth' : Nat}
    (base : Grammar.Walks w 0 (grammar depth) (grammar depth')) (n : Nat) :
    Grammar.Walks w n (grammar (depth + n)) (grammar (depth' + n)) := by
  induction n with
  | zero => exact base
  | succ n ih =>
      exact ⟨fun stands => (expression_agrees ih stands).weaken,
        fun stands => (operand_agrees ih stands).weaken, fun stands => block_agrees ih stands,
        fun _ none => fails_expression _ (by rw [none]; decide)⟩

end EplLang.Parser
