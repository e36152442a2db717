import EplLang.Proofs.Walk

/-!
# Along the rules for expressions

In every walk the rules for expressions agree, one statement for each rule in the order of the
grammar. The rules that occur inside others may come from two grammars; they are assumed to agree
where fewer tokens are left (`Grammar.Walks`), and each use of one is after a token is taken.

Where a rule looks for a closing bracket, a lenient walk may find one only for the second parser, at
the end of the tokens of the first. There the first one needs an expression, and it has none.
-/

set_option autoImplicit false

namespace EplLang.Parser

/-- The rules of two grammars that occur inside others agree before fewer than `n` tokens. -/
structure Grammar.Walks {ι : Type} (w : Walk ι) (n : Nat) (g g' : Grammar) : Prop where
  expression {i : ι} {c c' : Cursor} : w.stands i n c c' →
    w.Agrees i True c c' idle w.expr g.expression g'.expression
  operand {i : ι} {c c' : Cursor} : w.stands i n c c' →
    w.Agrees i True c c' idle w.expr g.operand g'.operand
  block {i : ι} {c c' : Cursor} : w.stands i n c c' →
    w.Agrees i False c c' idle w.block g.block g'.block
  needs {c : Cursor} : w.lenient → c.tokens = [] → Fails g.expression c

/-- An index path starts at a cursor. -/
def Cursor.StartsPath (c : Cursor) : Prop :=
  (Cursor.peek c 0).kind = .openBracket ∨ (Cursor.peek c 0).kind = .dot

section Expressions

variable {ι : Type} {w : Walk ι} {i : ι} {n : Nat} {g g' : Grammar} (walks : Grammar.Walks w n g g')
  {c c' : Cursor}
include walks

theorem braced_agrees (stands : w.stands i (n + 1) c c') :
    w.Agrees i True c c' always w.block (braced g) (braced g') := by
  refine .expect stands (by decide) fun stands _ => ?_
  refine .bind_needs stands (walks.block stands) (fun _ d none => ?_)
    fun body body' d d' stands same => ?_
  · exact fails_expect (by decide) none _
  · exact .expect (w.up stands) (by decide) fun stands _ => .pure stands same id

/-! ## Calls and index paths -/

theorem pathRound_agrees (stands : w.stands i (n + 1) c c') {segments segments' : List Node}
    (same : List.Forall₂ w.expr segments segments') :
    w.Agrees i True c c' (Round.taking fun _ => Cursor.StartsPath c)
      (Round.Pairs (fun a b => List.Forall₂ w.expr a b ∧ a ≠ [])
        fun a b => List.Forall₂ w.expr a b ∧ (segments ≠ [] ∨ Cursor.StartsPath c → a ≠ []))
      (pathRound g segments) (pathRound g' segments') := by
  refine .sees stands (by decide) (fun some => ?_) fun noDot => .sees stands (by decide)
    (fun some => ?_) fun noBracket => ?_
  · refine .advance stands some fun stands _ =>
      .expect (w.up stands) (by decide) fun stands id => ?_
    rw [w.text id]
    exact .pure stands ⟨forall₂_concat same (w.literal _), by simp⟩ not_false
  · refine .advance stands some fun stands _ => ?_
    refine .bind stands (walks.expression stands) fun e e' d d' stands like => ?_
    refine .expect (w.up stands) (by decide) fun stands _ => ?_
    exact .pure stands ⟨forall₂_concat same like, by simp⟩ not_false
  · have ends : ¬Cursor.StartsPath c := not_or.mpr ⟨noBracket, noDot⟩
    exact .pure stands ⟨same, fun some => some.resolve_right ends⟩ ends

/-- A path takes a token and leads somewhere where one starts. -/
theorem path_agrees (stands : w.stands i (n + 1) c c') :
    w.Agrees i True c c' (fun _ => Cursor.StartsPath c)
      (fun a b => List.Forall₂ w.expr a b ∧ (Cursor.StartsPath c → a ≠ [])) (path g) (path g') := by
  refine .repeated_from (I := fun a b => List.Forall₂ w.expr a b ∧ a ≠ []) ?_ stands
    ((pathRound_agrees walks stands .nil).mono (Round.Pairs.mono (fun _ _ => id) ?_))
  · intro segments segments' d d' stands holds
    refine (pathRound_agrees walks stands holds.1).consequence id ?_
      (Round.Pairs.mono (fun _ _ => id) fun a b same => ⟨same.1, fun _ => same.2 (.inl holds.2)⟩)
    intro r taken
    cases r with
    | again next => trivial
    | done result => exact taken.elim
  · exact fun a b same => ⟨same.1, fun starts => same.2 (.inr starts)⟩

theorem argumentRound_agrees (stands : w.stands i n c c') {args args' : List Node}
    (same : List.Forall₂ w.expr args args') :
    w.Agrees i True c c' (Round.taking idle)
      (Round.Pairs (List.Forall₂ w.expr) (List.Forall₂ w.expr)) (argumentRound g args)
      (argumentRound g' args') := by
  refine .sees_closing stands (by decide) (fun some => ?_)
    (fun lenient none => (walks.needs lenient none).bind _) ?_
  · exact .advance (w.up stands) some fun stands _ => .pure stands same not_false
  refine .bind stands (walks.expression stands) fun arg arg' d d' stands like => ?_
  have longer := forall₂_concat same like
  refine .sees_closing stands (by decide) (fun some => ?_)
    (fun _ none => fails_expect (by decide) none _) ?_
  · exact .advance (w.up stands) some fun stands _ => .pure stands longer not_false
  · exact .expect (w.up stands) (by decide) fun stands _ => .pure stands longer not_false

theorem arguments_agrees (stands : w.stands i (n + 1) c c') (here : c.tokens ≠ [] ∨ w.free) :
    w.Agrees i True c c' (fun _ => c.tokens ≠ []) (List.Forall₂ w.expr) (arguments g)
      (arguments g') :=
  .advance_any stands here fun stands _ => .repeated
    (fun _ _ _ _ stands same => argumentRound_agrees walks stands same) stands .nil

theorem suffixRound_agrees (stands : w.stands i (n + 1) c c') {left left' : Node}
    (same : w.expr left left') :
    w.Agrees i True c c' (Round.taking idle) (Round.Pairs w.expr w.expr) (suffixRound g left)
      (suffixRound g' left') := by
  refine .peek (.ite (w.blind stands (P := (· = .openParen)) (by decide) (Nat.zero_le _))
    (fun opens => ?_) fun _ => ?_)
  · have some := Cursor.tokens_ne_nil (c := c) (by simp [opens])
    refine .bind_taken stands (arguments_agrees walks stands (.inl some)) (fun _ => some)
      fun args args' d d' stands rest => ?_
    exact .pure stands (w.call same rest) not_false
  refine .ite (w.blind stands (P := fun kind => kind = .openBracket ∨ kind = .dot) (by decide)
    (Nat.zero_le _)) (fun starts => ?_) fun _ => .pure stands same not_false
  refine .bind_taken stands (path_agrees walks stands) (fun _ => starts)
    fun path path' d d' stands rest => ?_
  exact .pure stands (w.index same rest.1 (.inl (rest.2 starts))) not_false

theorem suffixes_agrees (stands : w.stands i (n + 1) c c') {left left' : Node}
    (same : w.expr left left') :
    w.Agrees i True c c' idle w.expr (suffixes g left) (suffixes g' left') :=
  .repeated (fun _ _ _ _ stands same => suffixRound_agrees walks stands same) stands same

/-! ## Functions -/

omit walks in
theorem paramRound_agrees (stands : w.stands i n c c') (names : List Text) :
    w.Agrees i True c c' (Round.taking idle) (Round.Pairs Eq Eq) (paramRound names)
      (paramRound names) := by
  refine .sees stands (by decide) (fun some => ?_) fun _ => .pure stands rfl not_false
  refine .advance (w.up stands) some fun stands _ => ?_
  refine .expect (w.up stands) (by decide) fun stands id => .pure stands ?_ not_false
  exact congrArg (names ++ [·]) (w.text id)

omit walks in
theorem moreParams_agrees (stands : w.stands i n c c') :
    w.Agrees i True c c' idle Eq moreParams moreParams := by
  refine .repeated (I := Eq) ?_ stands rfl
  rintro names _ d d' stands rfl
  exact paramRound_agrees stands names

theorem functionBody_agrees (stands : w.stands i n c c') (params : List Text) :
    w.Agrees i True c c' idle w.expr (functionBody g params) (functionBody g' params) := by
  refine .expect (w.up stands) (by decide) fun stands _ =>
    .expect (w.up stands) (by decide) fun stands _ =>
    .sees stands (by decide) (fun _ => ?_) fun _ => .peek ?_
  · refine .bind stands (braced_agrees walks (w.up stands)).weaken
      fun body body' d d' stands same => ?_
    exact .freshSite stands fun d d' stands sites =>
      .pure stands (w.function params sites same) not_false
  -- The line of the value is seen before the value, so there must be a token.
  rcases w.first stands with like | ⟨lenient, none⟩
  · refine .bind stands (walks.expression stands) fun value value' d d' stands same => ?_
    exact .freshSite stands fun d d' stands sites =>
      .pure stands (w.function params sites (w.single (w.lines like) same)) not_false
  · exact .of_fails lenient ((walks.needs lenient none).bind _)

theorem parenthesis_agrees (stands : w.stands i (n + 1) c c') (here : c.tokens ≠ [] ∨ w.free) :
    w.Agrees i True c c' (fun _ => c.tokens ≠ []) w.expr (parenthesis g) (parenthesis g') := by
  refine .advance_any stands here fun stands _ => ?_
  refine .sees_closing_bind (P := Option.Rel w.expr) stands (by decide)
    (.pure stands .none not_false) (fun lenient none => ?_)
    (.map stands (walks.expression stands) fun e e' like => .some like) ?_
  · rw [map_eq_pure_bind]
    exact (walks.needs lenient none).bind _
  intro inner inner' d d' stands same
  refine .sees_same stands (by decide) fun comma => ?_
  have arrow {d d' : Cursor} (stands : w.stands i n d d') :=
    w.blind_two stands (P := (· = .assign)) (Q := (· = .greater)) (by decide) (by decide)
  rw [← Likeness.bind_name? same]
  generalize single : inner.bind name? = first
  cases first with
  | none =>
      refine .expect (w.up stands) (by decide) fun stands closing => .peek (.peek
        (.ite (arrow stands) (fun _ => ?_) fun _ =>
          .pure stands (Likeness.getD_null same) not_false))
      cases same with
      | none => exact functionBody_agrees walks stands []
      | some like => exact .refuse (.inl closing) _
  | some first =>
      cases comma with
      | true =>
          refine .bind stands (moreParams_agrees stands) fun more more' d d' stands params => ?_
          rw [params]
          exact .expect (w.up stands) (by decide) fun stands _ => functionBody_agrees walks stands _
      | false =>
          refine .expect (w.up stands) (by decide) fun stands closing => .peek (.peek
            (.ite (arrow stands) (fun _ => ?_) fun _ =>
              .pure stands (Likeness.getD_null same) not_false))
          cases same with
          | none => cases single
          | some like => exact functionBody_agrees walks stands [first]

/-! ## Arrays and objects -/

theorem objectRound_agrees (stands : w.stands i n c c') {items items' : Container Node}
    (same : w.Listed items items') :
    w.Agrees i True c c' (Round.taking idle) (Round.Pairs w.Listed w.Listed)
      (objectRound g items) (objectRound g' items') := by
  refine .sees_closing stands (by decide) (fun some => ?_)
    (fun _ none => fails_expect (by decide) none _) ?_
  · exact .advance (w.up stands) some fun stands _ => .pure stands same not_false
  refine .expect (w.up stands) (by decide) fun stands id =>
    .expect (w.up stands) (by decide) fun stands _ => ?_
  refine .bind stands (walks.expression stands) fun value value' d d' stands like => ?_
  rw [w.text id]
  exact .pure stands (same.set (Scalar.isLost_string _) like) not_false

theorem objectItems_agrees (stands : w.stands i n c c') :
    w.Agrees i True c c' idle w.Listed (objectItems g) (objectItems g') :=
  .repeated (fun _ _ _ _ stands same => objectRound_agrees walks stands same) stands
    Likeness.listed_empty

theorem arrayRound_agrees (stands : w.stands i n c c') {items items' : Container Node}
    (same : w.Listed items items') :
    w.Agrees i True c c' (Round.taking idle) (Round.Pairs w.Listed w.Listed)
      (arrayRound g items) (arrayRound g' items') := by
  refine .sees_closing stands (by decide) (fun _ => .pure stands same not_false)
    (fun lenient none => (walks.needs lenient none).bind _) ?_
  refine .bind stands (walks.expression stands) fun value value' d d' stands like => ?_
  have longer := same.set (Scalar.isLost_ofInt items.size) like
  rw [← same.size]
  refine .sees stands (by decide) (fun some => ?_) fun _ => .pure stands longer not_false
  exact .advance (w.up stands) some fun stands _ => .pure stands longer not_false

theorem arrayItems_agrees (stands : w.stands i n c c') :
    w.Agrees i True c c' idle w.Listed (arrayItems g) (arrayItems g') := by
  refine .bind stands (P := w.Listed) (.repeated
    (fun _ _ _ _ stands same => arrayRound_agrees walks stands same) stands
    Likeness.listed_empty) fun items items' d d' stands same => ?_
  exact .expect (w.up stands) (by decide) fun stands _ => .pure stands same not_false

theorem containerLiteral_agrees (stands : w.stands i (n + 1) c c') (here : c.tokens ≠ [] ∨ w.free) :
    w.Agrees i True c c' (fun _ => c.tokens ≠ []) w.expr (containerLiteral g)
      (containerLiteral g') := by
  refine .advance_any stands here fun stands _ => .peek (.peek (.ite ?_ (fun _ => ?_) fun _ => ?_))
  · exact w.blind_two stands (P := (· = .identifier)) (Q := (· = .assign)) (by decide) (by decide)
  · refine .bind stands (objectItems_agrees walks stands) fun items items' d d' stands same => ?_
    exact .pure stands (w.container .object same) not_false
  · refine .bind stands (arrayItems_agrees walks stands) fun items items' d d' stands same => ?_
    exact .pure stands (w.container .array same) not_false

/-! ## Strings with segments -/

omit walks in
theorem segment_of_ok {tokens : List Token} {d : Cursor} {value : Node}
    (ran : g.expression (start c.site tokens) = .ok (value, d)) :
    segment g tokens c =
      if (Cursor.peek d 0).kind ≠ .endOfInput then .error ((Cursor.peek d 0).illegal .interpolation)
      else .ok (value, { c with site := d.site }) := by
  simp only [segment, bind, StateT.bind, get, getThe, MonadStateOf.get, StateT.get, set,
    StateT.set, Except.bind, pure, Except.pure, StateT.pure, peek, ran]
  split <;> rfl

omit walks in
theorem segment_of_error {tokens : List Token} {e : Stop}
    (ran : g.expression (start c.site tokens) = .error e) : segment g tokens c = .error e := by
  simp only [segment, bind, StateT.bind, get, getThe, MonadStateOf.get, StateT.get, set,
    StateT.set, Except.bind, pure, Except.pure, ran]

/-- A segment is read by itself, and the cursors stay where they are. -/
theorem segment_agrees (stands : w.stands i n c c') {tokens tokens' : List Token}
    (inside : w.segment i n tokens tokens') :
    w.Agrees i True c c' idle w.expr (segment g tokens) (segment g' tokens') := by
  obtain ⟨j, starts, stops, leaves⟩ := w.enter stands inside
  have inner := walks.expression starts
  unfold Walk.Agrees at inner ⊢
  generalize ran : g.expression _ = r, ran' : g'.expression _ = r' at inner
  cases inner with
  | stop bad =>
      rw [segment_of_error ran, segment_of_error ran']
      exact .stop (stops _ _ bad)
  | excused lenient =>
      rw [segment_of_error ran]
      exact .excused lenient
  | @ok value value' _ d d' _ like there _ _ gives =>
      obtain ⟨ends, back⟩ := leaves _ _ _ there
      rw [segment_of_ok ran, segment_of_ok (ran'.trans (gives fun _ => .inl trivial))]
      by_cases last : (Cursor.peek d 0).kind = .endOfInput
      · rw [if_neg (not_not_intro last), if_neg (not_not_intro (ends last))]
        exact .ok like back List.suffix_rfl False.elim fun _ => rfl
      · rw [if_pos last]
        rcases w.first there with same | ⟨lenient, _⟩
        · rw [if_pos (w.kind same ▸ last)]
          exact .stop (stops _ _ (w.refused _ same))
        · exact .excused lenient

omit walks in
theorem slice_agrees (stands : w.stands i n c c') (text : Text) {first last : Nat}
    (placed : first ≤ last ∧ last ≤ text.length ∨ w.stop i .misplaced .misplaced) :
    w.Agrees i True c c' idle Eq (slice text first last) (slice text first last) := by
  unfold slice
  split
  · exact .pure stands rfl not_false
  next bad => exact .stop (placed.resolve_left bad)

omit walks in
theorem lead_agrees (stands : w.stands i n c c') (text : Text) {place : Nat}
    (placed : place ≤ text.length ∨ w.stop i .misplaced .misplaced) {before before' : Option Node}
    (same : Option.Rel w.expr before before') :
    w.Agrees i True c c' idle w.expr (lead text place before) (lead text place before') := by
  cases same with
  | some like => exact .pure stands like not_false
  | none =>
      refine .bind stands (slice_agrees stands text (placed.imp_left fun inside =>
        ⟨Nat.zero_le _, inside⟩)) fun left left' d d' stands same => ?_
      rw [same]
      exact .pure stands (w.literal _) not_false

omit walks in
/-- The place of a segment comes before the next one, and all come before the end of the text. -/
theorem placed_cons {place length : Nat} {tokens : List Token} {rest : List (Nat × List Token)}
    (placed : (((place, tokens) :: rest).map Prod.fst ++ [length]).Pairwise (· ≤ ·)) :
    place ≤ length ∧ (place ≤ (rest.head?.map Prod.fst).getD length ∧
      (rest.head?.map Prod.fst).getD length ≤ length) ∧
      (rest.map Prod.fst ++ [length]).Pairwise (· ≤ ·) := by
  rw [List.map_cons, List.cons_append, List.pairwise_cons] at placed
  obtain ⟨first, others⟩ := placed
  refine ⟨first length (by simp), ?_, others⟩
  cases rest with
  | nil => exact ⟨first length (by simp), Nat.le_refl _⟩
  | cons part rest =>
      rw [List.map_cons, List.cons_append, List.pairwise_cons] at others
      exact ⟨first part.1 (by simp), others.1 length (by simp)⟩

/-- The segments are read one after another; the text around them is cut at the same places. -/
theorem interpolation_agrees (stands : w.stands i n c c') (text : Text)
    {parts parts' : List (Nat × List Token)}
    (inside : List.Forall₂ (fun part part' => part.1 = part'.1 ∧ w.segment i n part.2 part'.2)
      parts parts')
    (placed : (parts.map Prod.fst ++ [text.length]).Pairwise (· ≤ ·) ∨
      w.stop i .misplaced .misplaced) {before before' : Option Node}
    (same : Option.Rel w.expr before before') :
    w.Agrees i True c c' idle w.expr (interpolation g text before parts)
      (interpolation g' text before' parts') := by
  induction inside generalizing before before' c c' with
  | nil =>
      cases same with
      | none => exact .pure stands (w.literal _) not_false
      | some like => exact .pure stands like not_false
  | @cons part part' rest rest' first others ih =>
      obtain ⟨place, tokens⟩ := part
      obtain ⟨place', tokens'⟩ := part'
      obtain ⟨rfl, inner⟩ : place = place' ∧ w.segment i n tokens tokens' := first
      have next : rest.head?.map Prod.fst = rest'.head?.map Prod.fst := by
        cases others with
        | nil => rfl
        | cons head _ => exact congrArg some head.1
      refine .bind stands (segment_agrees walks stands inner)
        fun value value' d d' stands like => ?_
      refine .bind stands (lead_agrees stands text (placed.imp_left fun places =>
        (placed_cons places).1) same) fun left left' d d' stands like' => ?_
      rw [← next]
      refine .bind stands (slice_agrees stands text (placed.imp_left fun places =>
        (placed_cons places).2.1)) fun after after' d d' stands cut => ?_
      rw [cut]
      refine ih stands (placed.imp_left fun places => (placed_cons places).2.2) (.some ?_)
      exact w.arithmetic (by decide) (w.arithmetic (by decide) like' like) (w.literal _)

theorem interpolated_agrees (stands : w.stands i (n + 1) c c') (here : c.tokens ≠ [] ∨ w.free) :
    w.Agrees i True c c' (fun _ => c.tokens ≠ []) w.expr (interpolated g) (interpolated g') := by
  refine .advance_any stands here fun moved like => ?_
  have parts := w.parts stands like
  have placed := w.placed like
  unfold Token.Placed at placed
  rw [← w.text like]
  exact interpolation_agrees walks moved _ parts placed .none

/-! ## Operands and operators -/

omit walks in
theorem fails_atom (g : Grammar) {c : Cursor} (ends : kindAt c.tokens 0 ∈ enders) :
    Fails (atom g) c := by
  intro r ran
  rw [← kind_peek] at ends
  rw [atom, peek_run] at ran
  simp only [enders, List.mem_cons, List.not_mem_nil, or_false] at ends
  rcases ends with kind | kind | kind
  all_goals
    rw [kind] at ran
    cases ran

/-- Whatever an atom starts with is taken. -/
theorem atom_agrees (stands : w.stands i (n + 1) c c') :
    w.Agrees i True c c' always w.expr (atom g) (atom g') := by
  rcases w.first stands with like | ⟨lenient, none⟩
  swap
  · exact .of_fails lenient (fails_atom g (by rw [none]; decide))
  refine .peek ?_
  rw [← w.kind like, ← w.text like]
  have some {kind : Kind} (found : (Cursor.peek c 0).kind = kind) (real : kind ≠ .endOfInput) :
      c.tokens ≠ [] := Cursor.tokens_ne_nil (found ▸ real)
  generalize found : (Cursor.peek c 0).kind = kind
  cases kind with
  | interpolated =>
      have some := some found (by decide)
      exact (interpolated_agrees walks stands (.inl some)).consequence id (fun _ _ => some)
        fun _ _ => id
  | number | string | boolean | null =>
      exact .advance stands (some found (by simp)) fun stands _ =>
        .pure stands (w.literal _) not_false
  | identifier =>
      exact .advance stands (some found (by decide)) fun stands _ =>
        .pure stands (w.name _) not_false
  | length =>
      refine .advance stands (some found (by decide)) fun stands _ => ?_
      refine .bind stands (walks.operand stands) fun e e' d d' stands like => ?_
      exact .pure stands (w.length like) not_false
  | minus | not =>
      refine .advance stands (some found (by decide)) fun stands _ => ?_
      refine .bind stands (walks.operand stands) fun e e' d d' stands like => ?_
      exact .pure stands (w.unary (by decide) like) not_false
  | openParen =>
      have some := some found (by decide)
      exact (parenthesis_agrees walks stands (.inl some)).consequence id (fun _ _ => some)
        fun _ _ => id
  | openBracket =>
      have some := some found (by decide)
      exact (containerLiteral_agrees walks stands (.inl some)).consequence id (fun _ _ => some)
        fun _ _ => id
  | _ => exact .refuse (.inl like) _

theorem operand_agrees (stands : w.stands i (n + 1) c c') :
    w.Agrees i True c c' always w.expr (operand g) (operand g') :=
  .bind_taken stands (atom_agrees walks stands) (fun _ => trivial)
    fun _ _ _ _ stands like => suffixes_agrees walks (w.up stands) like

section Chains

variable {ops : List Kind} {next next' : Parse Node}
  (table : ∀ op ∈ ops, op ∈ Node.arithmeticOps)
  (inner : ∀ {c c' : Cursor}, w.stands i (n + 1) c c' →
    w.Agrees i True c c' always w.expr next next')
include table inner

omit walks

theorem chainRound_agrees (stands : w.stands i n c c') {left left' : Node}
    (like : w.expr left left') :
    w.Agrees i True c c' (Round.taking idle) (Round.Pairs w.expr w.expr)
      (chainRound ops next left) (chainRound ops next' left') := by
  have none : ∀ kind ∈ enders, kind ∉ Node.arithmeticOps := by decide
  have apart : ∀ kind ∈ enders, kind ∉ ops := fun kind ender member =>
    none kind ender (table kind member)
  refine .seesOperator stands apart (fun operator some => ?_) (.pure stands like not_false)
  refine .advance (w.up stands) some fun stands op => ?_
  refine .bind stands (inner (w.up stands)).weaken fun right right' d d' stands also => ?_
  rw [← w.kind op]
  exact .pure stands (w.arithmetic (table _ operator) like also) not_false

theorem leftChain_agrees (stands : w.stands i (n + 1) c c') :
    w.Agrees i True c c' always w.expr (leftChain ops next) (leftChain ops next') :=
  .bind_taken stands (inner stands) (fun _ => trivial) fun _ _ _ _ stands like =>
    .repeated (fun _ _ _ _ stands like => chainRound_agrees table inner stands like) stands like

end Chains

theorem factor_agrees (stands : w.stands i (n + 1) c c') :
    w.Agrees i True c c' always w.expr (factor g) (factor g') :=
  leftChain_agrees (by decide) (operand_agrees walks) stands

theorem term_agrees (stands : w.stands i (n + 1) c c') :
    w.Agrees i True c c' always w.expr (term g) (term g') :=
  leftChain_agrees (by decide) (factor_agrees walks) stands

theorem additive_agrees (stands : w.stands i (n + 1) c c') :
    w.Agrees i True c c' always w.expr (additive g) (additive g') :=
  leftChain_agrees (by decide) (term_agrees walks) stands

omit walks in
theorem conditionOps_of_relational {op : Kind} (table : op ∈ relational) :
    op ∈ Node.conditionOps := by
  simp only [relational, List.mem_cons, List.not_mem_nil, or_false] at table
  rcases table with rfl | rfl | rfl | rfl | rfl | rfl <;> decide

theorem comparison_agrees (stands : w.stands i (n + 1) c c') :
    w.Agrees i True c c' always w.expr (comparison g) (comparison g') := by
  refine .bind_taken stands (additive_agrees walks stands) (fun _ => trivial)
    fun left left' d d' stands like => .peek (.ite (w.blind stands (P := (· ∈ relational))
      (by decide) (Nat.zero_le _)) (fun operator => ?_) fun _ => .pure stands like not_false)
  have some : d.tokens ≠ [] := by
    refine Cursor.tokens_ne_nil fun ends => ?_
    rw [ends] at operator
    exact absurd operator (by decide)
  refine .advance (w.up stands) some fun stands op => ?_
  refine .bind stands (additive_agrees walks (w.up stands)).weaken
    fun right right' d d' stands also => ?_
  rw [← w.kind op]
  exact .pure stands (w.condition (conditionOps_of_relational operator) like also) not_false

omit walks in
theorem kind_of_logical {t : Token} {op : Kind} (found : logical? t = some op) :
    t.kind = .keyword := by
  by_contra other
  simp [logical?, isKeyword, other] at found

omit walks in
theorem conditionOps_of_logical {t : Token} {op : Kind} (found : logical? t = some op) :
    op ∈ Node.conditionOps := by
  unfold logical? at found
  split at found
  · cases found
    decide
  · split at found
    · cases found
      decide
    · cases found

theorem logicalRound_agrees (stands : w.stands i n c c') {left left' : Node}
    (like : w.expr left left') :
    w.Agrees i True c c' (Round.taking idle) (Round.Pairs w.expr w.expr) (logicalRound g left)
      (logicalRound g' left') := by
  refine .peek ?_
  rw [← w.logical? stands]
  cases found : logical? (Cursor.peek c 0) with
  | none => exact .pure stands like not_false
  | some op =>
      have some : c.tokens ≠ [] := Cursor.tokens_ne_nil (by simp [kind_of_logical found])
      refine .advance (w.up stands) some fun stands _ => ?_
      refine .bind stands (comparison_agrees walks (w.up stands)).weaken
        fun right right' d d' stands also => ?_
      exact .pure stands (w.condition (conditionOps_of_logical found) like also) not_false

theorem expression_agrees (stands : w.stands i (n + 1) c c') :
    w.Agrees i True c c' always w.expr (expression g) (expression g') :=
  .bind_taken stands (comparison_agrees walks stands) (fun _ => trivial)
    fun _ _ _ _ stands like => .repeated
      (fun _ _ _ _ stands like => logicalRound_agrees walks stands like) stands like

omit walks in
/-- Every expression starts with an atom. -/
theorem fails_expression (g : Grammar) {c : Cursor} (ends : kindAt c.tokens 0 ∈ enders) :
    Fails (expression g) c := by
  have factors : Fails (factor g) c := ((fails_atom g ends).bind _).bind _
  have terms : Fails (additive g) c := (factors.bind _).bind _
  exact (terms.bind _).bind _

end Expressions

end EplLang.Parser
