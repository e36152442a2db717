import EplLang.Proofs.Lines

/-!
# Progress of the parser

A rule never goes back, and never beyond the last token: the tokens that are left after it are a
suffix of those before it. Some rules take a token whenever they give something. Both are part of
what a walk along the grammar says of each rule (`Walk.Agrees`), here of the free walk of a parser
beside itself: any rule from any cursor, with any nodes to go on from.

Rules that repeat something take a token in each round that is not the last. So the rounds can be
counted: `k` of them leave at least `k` tokens less, and the last one comes after at most as many
rounds as there were tokens (`repeated_ends`). The bound that is part of the definition of
`repeated` is therefore never reached.

What nests is bounded in the same way, by the number of tokens with those in the segments of
strings, and so each list of tokens is a program or is refused (`parser_progress`). Lists that no
source text has are included; a string among them may have segments that have no place in its text.
-/

set_option autoImplicit false

namespace EplLang.Parser

/-! ## The rules -/

section Tables

variable (g : Grammar)

/-- Statements, expressions and the levels below them. -/
inductive Level : Parse Node → Prop where
  | statement : Level (statement g)
  | expression : Level (expression g)
  | comparison : Level (comparison g)
  | additive : Level (additive g)
  | term : Level (term g)
  | factor : Level (factor g)
  | operand : Level (operand g)
  | atom : Level (atom g)

/-- The rounds of rules that repeat something. -/
inductive Loop : {α β : Type} → (α → Parse (Round α β)) → Prop where
  | block : Loop (blockRound g)
  | elseBranches : Loop (elseRound g)
  | expression : Loop (logicalRound g)
  | additive : Loop (chainRound [.plus, .minus] (term g))
  | term : Loop (chainRound [.times, .divide] (factor g))
  | factor : Loop (chainRound [.power] (operand g))
  | suffixes : Loop (suffixRound g)
  | arguments : Loop (argumentRound g)
  | path : Loop (pathRound g)
  | moreParams : Loop paramRound
  | objectItems : Loop (objectRound g)
  | arrayItems : Loop (arrayRound g)

/-- All rules, from those that look at a token to the whole program. -/
inductive Rule : {α : Type} → Parse α → Prop where
  | peek (n : Nat) : Rule (peek n)
  | sees (kind : Kind) : Rule (sees kind)
  | seesKeyword (word : Text) : Rule (seesKeyword word)
  | seesOperator (ops : List Kind) : Rule (seesOperator ops)
  | advance : Rule advance
  | expect (kind : Kind) : Rule (expect kind)
  | freshSite : Rule freshSite
  | level {x : Parse Node} : Level g x → Rule x
  | round {α β : Type} {round : α → Parse (Round α β)} (a : α) : Loop g round → Rule (round a)
  | loop {α β : Type} {round : α → Parse (Round α β)} (a : α) : Loop g round →
      Rule (repeated a round)
  | braced : Rule (braced g)
  | arguments : Rule (arguments g)
  | functionBody (params : List Text) : Rule (functionBody g params)
  | parenthesis : Rule (parenthesis g)
  | arrayItems : Rule (arrayItems g)
  | containerLiteral : Rule (containerLiteral g)
  | segment (tokens : List Token) : Rule (segment g tokens)
  | slice (text : Text) (first last : Nat) : Rule (slice text first last)
  | lead (text : Text) (place : Nat) (before : Option Node) : Rule (lead text place before)
  | interpolation (text : Text) (before : Option Node) (parts : List (Nat × List Token)) :
      Rule (interpolation g text before parts)
  | interpolated : Rule (interpolated g)
  | compound : Rule compound
  | assignment (target : Node) : Rule (assignment g target)
  | binding : Rule (binding g)
  | indexed : Rule (indexed g)
  | guarded : Rule (guarded g)
  | forLoop : Rule (forLoop g)
  | keywordStatement : Rule (keywordStatement g)
  | program : Rule (program g)

end Tables

/-! ## Rounds -/

section Rounds

variable {α β : Type}

/-- Some rounds one after another, none of them the last. -/
inductive Leads (round : α → Parse (Round α β)) : Nat → α → Cursor → α → Cursor → Prop where
  | start (a : α) (c : Cursor) : Leads round 0 a c a c
  | again {k : Nat} {a a' a'' : α} {c c' c'' : Cursor} : round a c = .ok (.again a', c') →
      Leads round k a' c' a'' c'' → Leads round (k + 1) a c a'' c''

/-- The outcome of a last round: a result, or a token that is refused. -/
inductive LastRound (round : α → Parse (Round α β)) (a : α) (c : Cursor) :
    Except Stop (β × Cursor) → Prop where
  | done {b : β} {d : Cursor} : round a c = .ok (.done b, d) → LastRound round a c (.ok (b, d))
  | stop {e : Stop} : round a c = .error e → LastRound round a c (.error e)

/-- **A loop ends after at most as many rounds as there are tokens left.** The induction is
on the number of rounds that are allowed, which is more than the tokens that are left at any
time. -/
theorem repeated_ends {round : α → Parse (Round α β)}
    (takes : ∀ a c a' d, round a c = .ok (.again a', d) → d.tokens.length < c.tokens.length)
    (a : α) (c : Cursor) :
    ∃ k a' c', Leads round k a c a' c' ∧ k + c'.tokens.length ≤ c.tokens.length ∧
      LastRound round a' c' (repeated a round c) := by
  have counted (bound : Nat) : ∀ a c, c.tokens.length < bound → ∃ k a' c',
      Leads round k a c a' c' ∧ k + c'.tokens.length ≤ c.tokens.length ∧
        LastRound round a' c' (rounds round bound a c) := by
    induction bound with
    | zero => exact fun _ _ few => absurd few (Nat.not_lt_zero _)
    | succ bound ih =>
        intro a c few
        rw [rounds_succ]
        cases first : round a c with
        | error e => exact ⟨0, a, c, .start a c, Nat.le_of_eq (Nat.zero_add _), .stop first⟩
        | ok pair =>
            obtain ⟨outcome, d⟩ := pair
            cases outcome with
            | done b => exact ⟨0, a, c, .start a c, Nat.le_of_eq (Nat.zero_add _), .done first⟩
            | again next =>
                have fewer : d.tokens.length < c.tokens.length := takes a c _ _ first
                obtain ⟨k, a', c', leads, count, ends⟩ := ih next d (by omega)
                exact ⟨k + 1, a', c', .again first leads, by omega, ends⟩
  exact counted _ a c (Nat.lt_succ_self _)

end Rounds

/-! ## Rules beside themselves -/

section Beside

variable {α β : Type}

/-- A rule agrees with itself in the free walk from a cursor on. -/
def Beside (c : Cursor) (took : α → Prop) (x : Parse α) : Prop :=
  ∃ (loose : Prop) (R : α → α → Prop), (Walk.itself False).Agrees c loose c c took R x x

theorem Beside.of_agrees {loose : Prop} {c : Cursor} {took : α → Prop} {R : α → α → Prop}
    {x : Parse α} (agrees : (Walk.itself False).Agrees c loose c c took R x x) : Beside c took x :=
  ⟨loose, R, agrees⟩

theorem Beside.weaken {c : Cursor} {took : α → Prop} {x : Parse α} (beside : Beside c took x) :
    Beside c idle x := by
  obtain ⟨loose, R, agrees⟩ := beside
  exact ⟨loose, R, agrees.consequence id (fun _ => False.elim) fun _ _ => id⟩

/-- A rule that is one action on the cursor. -/
theorem Beside.of_ok {c d : Cursor} {a : α} {x : Parse α} (ran : x c = .ok (a, d))
    (later : Cursor.Later c d) : Beside c idle x := by
  refine ⟨True, Eq, ?_⟩
  unfold Walk.Agrees
  rw [ran]
  exact .ok (n := 0) rfl ⟨rfl, later⟩ later.suffix False.elim fun _ => rfl

theorem stands_itself (n : Nat) (c : Cursor) : (Walk.itself False).stands c n c c :=
  ⟨rfl, .refl c⟩

theorem expr_itself (e : Node) : (Walk.itself False).expr e e := ⟨rfl, False.elim⟩

theorem forall₂_expr_itself (all : List Node) :
    List.Forall₂ (Walk.itself False).expr all all :=
  List.forall₂_same.mpr fun e _ => expr_itself e

theorem rel_expr_itself (e : Option Node) : Option.Rel (Walk.itself False).expr e e := by
  cases e with
  | none => exact .none
  | some e => exact .some (expr_itself e)

theorem listed_itself (items : Container Node) : (Walk.itself False).Listed items items :=
  List.forall₂_same.mpr fun entry _ => ⟨rfl, rel_expr_itself entry.2, .inr id⟩

theorem guards_itself (elifs : List (Node × Block)) :
    List.Forall₂ (Walk.itself False).Guards elifs elifs :=
  List.forall₂_same.mpr fun _ _ => ⟨expr_itself _, rfl, False.elim⟩

/-- Rounds that agree, whatever they go on from. -/
structure RoundsBeside (round : α → Parse (Round α β)) (loose : Prop) (I : α → α → Prop)
    (Q : β → β → Prop) : Prop where
  all (a : α) : I a a
  each {i : Cursor} (a b : α) (c c' : Cursor) : (Walk.itself False).stands i 0 c c' →
    I a b → (Walk.itself False).Agrees i loose c c' (Round.taking idle) (Round.Pairs I Q)
      (round a) (round b)

end Beside

section Rules

variable {n : Nat} {g : Grammar} (walks : Grammar.Walks (.itself False) n g g)
include walks

theorem Level.beside {x : Parse Node} (level : Level g x) (c : Cursor) : Beside c always x := by
  have stands := stands_itself (n + 1) c
  cases level with
  | statement => exact .of_agrees (statement_agrees walks stands)
  | expression => exact .of_agrees (expression_agrees walks stands)
  | comparison => exact .of_agrees (comparison_agrees walks stands)
  | additive => exact .of_agrees (additive_agrees walks stands)
  | term => exact .of_agrees (term_agrees walks stands)
  | factor => exact .of_agrees (factor_agrees walks stands)
  | operand => exact .of_agrees (operand_agrees walks stands)
  | atom => exact .of_agrees (atom_agrees walks stands)

theorem Loop.beside {α β : Type} {round : α → Parse (Round α β)} (loop : Loop g round) :
    ∃ loose I Q, RoundsBeside round loose I Q := by
  cases loop with
  | block => exact ⟨_, _, _, fun _ => ⟨⟨rfl, False.elim⟩, rfl⟩,
      fun _ _ _ _ stands same => blockRound_agrees walks stands same⟩
  | elseBranches => exact ⟨_, _, _, guards_itself,
      fun _ _ _ _ stands same => elseRound_agrees walks stands same⟩
  | expression => exact ⟨_, _, _, expr_itself,
      fun _ _ _ _ stands same => logicalRound_agrees walks stands same⟩
  | additive => exact ⟨_, _, _, expr_itself,
      fun _ _ _ _ stands same => chainRound_agrees (by decide) (term_agrees walks) stands same⟩
  | term => exact ⟨_, _, _, expr_itself, fun _ _ _ _ stands same =>
      chainRound_agrees (by decide) (factor_agrees walks) stands same⟩
  | factor => exact ⟨_, _, _, expr_itself, fun _ _ _ _ stands same =>
      chainRound_agrees (by decide) (operand_agrees walks) stands same⟩
  | suffixes => exact ⟨_, _, _, expr_itself,
      fun _ _ _ _ stands same => suffixRound_agrees walks stands same⟩
  | arguments => exact ⟨_, _, _, forall₂_expr_itself,
      fun _ _ _ _ stands same => argumentRound_agrees walks stands same⟩
  | path =>
      refine ⟨True, List.Forall₂ (Walk.itself False).expr, List.Forall₂ (Walk.itself False).expr,
        forall₂_expr_itself, fun _ _ _ _ stands same => ?_⟩
      refine (pathRound_agrees walks stands same).consequence id (fun r taken => ?_)
        (Round.Pairs.mono (fun _ _ => And.left) fun _ _ => And.left)
      cases r with
      | again next => trivial
      | done result => exact taken.elim
  | moreParams =>
      refine ⟨True, Eq, Eq, fun _ => rfl, fun names _ _ _ stands same => ?_⟩
      cases same
      exact paramRound_agrees stands names
  | objectItems => exact ⟨_, _, _, listed_itself,
      fun _ _ _ _ stands same => objectRound_agrees walks stands same⟩
  | arrayItems => exact ⟨_, _, _, listed_itself,
      fun _ _ _ _ stands same => arrayRound_agrees walks stands same⟩

theorem Rule.beside {α : Type} {x : Parse α} (rule : Rule g x) (c : Cursor) : Beside c idle x := by
  have stands (m : Nat) := stands_itself m c
  have anywhere : c.tokens ≠ [] ∨ (Walk.itself False).free := .inr id
  have places : (Walk.itself False).stop c .misplaced .misplaced := ⟨rfl, False.elim⟩
  cases rule with
  | peek k => exact .of_ok rfl (.refl c)
  | sees kind => exact .of_ok rfl (.refl c)
  | seesKeyword word => exact .of_ok rfl (.refl c)
  | seesOperator ops => exact .of_ok rfl (.refl c)
  | advance => exact .of_ok rfl (Cursor.Later.refl c).next
  | freshSite => exact .of_ok rfl ⟨List.suffix_rfl, rfl⟩
  | expect kind =>
      have ahead : (Walk.itself False).token c (Cursor.peek c 0) (Cursor.peek c 0) :=
        ⟨rfl, (Cursor.Later.refl c).peek 0⟩
      have chosen : Beside c idle (if (Cursor.peek c 0).kind = kind then Parser.advance
          else refuse (Cursor.peek c 0) (.expected kind)) := by
        split
        · exact .of_ok rfl (Cursor.Later.refl c).next
        · exact ⟨True, Eq, .refuse (.inl ahead) _⟩
      exact chosen
  | level level => exact (level.beside walks c).weaken
  | round a loop =>
      obtain ⟨loose, I, Q, rounds⟩ := loop.beside walks
      exact .weaken (.of_agrees (rounds.each a a c c (stands 0) (rounds.all a)))
  | loop a loop =>
      obtain ⟨loose, I, Q, rounds⟩ := loop.beside walks
      exact .of_agrees (.repeated rounds.each (stands 0) (rounds.all a))
  | braced => exact .weaken (.of_agrees (braced_agrees walks (stands _)))
  | arguments => exact .weaken (.of_agrees (arguments_agrees walks (stands _) anywhere))
  | functionBody params => exact .of_agrees (functionBody_agrees walks (stands _) params)
  | parenthesis => exact .weaken (.of_agrees (parenthesis_agrees walks (stands _) anywhere))
  | arrayItems => exact .of_agrees (arrayItems_agrees walks (stands _))
  | containerLiteral =>
      exact .weaken (.of_agrees (containerLiteral_agrees walks (stands _) anywhere))
  | segment tokens => exact .of_agrees (segment_agrees walks (stands _) ⟨rfl, False.elim⟩)
  | slice text first last => exact .of_agrees (slice_agrees (stands 0) text (.inr places))
  | lead text place before =>
      exact .of_agrees (lead_agrees (stands 0) text (.inr places) (rel_expr_itself before))
  | interpolation text before parts =>
      exact .of_agrees (interpolation_agrees walks (stands _) text
        (List.forall₂_same.mpr fun _ _ => ⟨rfl, rfl, False.elim⟩) (.inr places)
        (rel_expr_itself before))
  | interpolated => exact .weaken (.of_agrees (interpolated_agrees walks (stands _) anywhere))
  | compound => exact .of_agrees (compound_agrees (stands 0))
  | assignment target => exact .of_agrees (assignment_agrees walks (stands _) (expr_itself target))
  | binding => exact .weaken (.of_agrees (binding_agrees walks (stands _) anywhere))
  | indexed => exact .weaken (.of_agrees (indexed_agrees walks (stands _) anywhere (.inr id)))
  | guarded => exact .of_agrees (guarded_agrees walks (stands _))
  | forLoop => exact .of_agrees (forLoop_agrees walks (stands _))
  | keywordStatement =>
      exact .weaken (.of_agrees (keywordStatement_agrees walks (stands _) (.inr id)))
  | program => exact .of_agrees (program_agrees walks (stands _))

end Rules

/-! ## The whole parser -/

/-- Each list of tokens is a program, or it is refused at a token in sight. -/
theorem parse_ends (tokens : List Token) : (∃ body, parse tokens = .ok body) ∨
    ∃ t, Cursor.InSight (start 0 tokens) t ∧
      ((∃ complaint, parse tokens = .error (t.illegal complaint)) ∨
        ¬t.Placed ∧ parse tokens = .error .misplaced) := by
  have deep := program_ne_outOfFuel 0 (Nat.lt_succ_self (tokensWeight tokens))
  have spec := parseFrom_spec 0 tokens
  unfold parse
  unfold parseFrom at spec ⊢
  cases ran : program (grammar (tokensWeight tokens + 1)) (start 0 tokens) with
  | ok pair => exact .inl ⟨pair.1, rfl⟩
  | error e =>
      rw [ran] at deep spec
      cases spec with
      | illegal complaint seen => exact .inr ⟨_, seen, .inl ⟨complaint, rfl⟩⟩
      | misplaced seen bad => exact .inr ⟨_, seen, .inr ⟨bad, rfl⟩⟩
      | outOfFuel => exact absurd rfl deep

/-- **The parser always makes progress**, before any list of tokens and with any nesting.
What statements, expressions and the levels below them give, they give after taking a token. No
rule goes back or beyond the end. Each loop comes to its last round after `k` others, and `k` is
at most the number of tokens that they take. And a nesting as deep as there are tokens, those
in the segments of strings included, is enough, so each list of tokens is a program or is refused
at a token in sight: one that is not expected there, or a string whose segments have no place in
its text. -/
theorem parser_progress (depth : Nat) :
    (∀ x, Level (grammar depth) x → ∀ c a d, x c = .ok (a, d) →
      d.tokens.length < c.tokens.length) ∧
    (∀ (α : Type) (x : Parse α), Rule (grammar depth) x → ∀ c a d, x c = .ok (a, d) →
      Cursor.Later c d) ∧
    (∀ (α β : Type) (round : α → Parse (Round α β)), Loop (grammar depth) round → ∀ a c,
      ∃ k a' c', Leads round k a c a' c' ∧ k + c'.tokens.length ≤ c.tokens.length ∧
        LastRound round a' c' (repeated a round c)) ∧
    (∀ site tokens, tokensWeight tokens < depth →
      program (grammar depth) (start site tokens) ≠ .error .outOfFuel) ∧
    ∀ tokens, (∃ body, parse tokens = .ok body) ∨
      ∃ t, Cursor.InSight (start 0 tokens) t ∧
        ((∃ complaint, parse tokens = .error (t.illegal complaint)) ∨
          ¬t.Placed ∧ parse tokens = .error .misplaced) := by
  have walks := grammar_itself False depth
  refine ⟨fun x level c a d ran => ?_, fun α x rule c a d ran => ?_, fun α β round loop => ?_,
    fun site tokens deep => program_ne_outOfFuel site deep, parse_ends⟩
  · obtain ⟨_, _, agrees⟩ := level.beside walks c
    exact (agrees.itself_ok ran).2.2.2 trivial
  · obtain ⟨_, _, agrees⟩ := rule.beside walks c
    exact (agrees.itself_ok ran).2.1
  · obtain ⟨_, _, _, rounds⟩ := loop.beside walks
    refine repeated_ends fun a c a' d ran => ?_
    exact ((rounds.each a a c c (stands_itself 0 c) (rounds.all a)).itself_ok ran).2.2.2 trivial

end EplLang.Parser
