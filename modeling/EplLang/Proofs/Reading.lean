import EplLang.Proofs.Entries
import EplLang.Proofs.Syntax

/-!
# Reading tokens

The parser decides by looking ahead: the class of the next token or the next two
tells which rule goes on and where an expression ends. Here are the rules for
following it on a known list of tokens. `Reads` says that a rule, given some tokens,
succeeds with a certain result and leaves certain others; there is one statement for
each thing that the rules of the grammar do with the cursor, so that no proof about
the grammar opens the cursor.

An expression is over where no token can go on with it (`Closed`). A rule that
repeats something is read round by round: each round but the last takes a token, so
the bound on the rounds is never reached (`Reads.again`).
-/

set_option autoImplicit false

namespace EplLang.Parser

variable {α β : Type}

/-! ## Looking ahead -/

/-- The class of the token at a place of a list; past the last one stands the end of
the input. -/
def kindAt (tokens : List Token) (n : Nat) : Kind := ((tokens[n]?).map Token.kind).getD .endOfInput

theorem kind_peek (c : Cursor) (n : Nat) : (Cursor.peek c n).kind = kindAt c.tokens n := by
  unfold Cursor.peek kindAt
  cases c.tokens[n]? <;> rfl

/-- The classes of tokens that go on with an expression, or make the group before
them the parameters of a function. -/
def continuing : List Kind :=
  [.assign, .openParen, .openBracket, .dot, .plus, .minus, .times, .divide, .power, .equal,
    .notEqual, .less, .lessEqual, .greater, .greaterEqual]

/-- Whether every expression ends before a token. -/
def closes (t : Token) : Bool := t.kind ∉ continuing && (logical? t).isNone

/-- Every expression ends before some tokens. -/
def Closed (tokens : List Token) : Prop := ∀ t ∈ tokens.head?, closes t = true

theorem not_continuing_of_closes {t : Token} (closed : closes t = true) : t.kind ∉ continuing := by
  simp only [closes, Bool.and_eq_true, decide_eq_true_eq] at closed
  exact closed.1

theorem logical?_of_closes {t : Token} (closed : closes t = true) : logical? t = none := by
  simp only [closes, Bool.and_eq_true] at closed
  exact Option.isNone_iff_eq_none.mp closed.2

theorem Closed.peek {c : Cursor} (closed : Closed c.tokens) : closes (Cursor.peek c 0) = true := by
  unfold Cursor.peek
  cases tokens : c.tokens with
  | nil => rfl
  | cons t rest =>
      rw [tokens] at closed
      exact closed t rfl

theorem Closed.not_continuing {tokens : List Token} (closed : Closed tokens) :
    kindAt tokens 0 ∉ continuing := by
  have peeked := not_continuing_of_closes
    (Closed.peek (c := { tokens, endLine := 0, site := 0 }) closed)
  rwa [kind_peek] at peeked

theorem Closed.not_mem {tokens : List Token} (closed : Closed tokens) {ops : List Kind}
    (among : ∀ op ∈ ops, op ∈ continuing) : kindAt tokens 0 ∉ ops :=
  fun member => closed.not_continuing (among _ member)

theorem closed_cons {t : Token} {tokens : List Token} (closed : closes t = true) :
    Closed (t :: tokens) := by
  intro other same
  cases same
  exact closed

/-- The classes of tokens that go on with an operand in parentheses. -/
def attaching : List Kind := [.assign, .openParen, .openBracket, .dot]

theorem Closed.not_attaching {rest : List Token} (closed : Closed rest) :
    kindAt rest 0 ∉ attaching := closed.not_mem (by decide)

/-! ## Following the rules -/

section Runs

variable {c d : Cursor}

theorem bind_of_ok {x : Parse α} {f : α → Parse β} {a : α} (ran : x c = .ok (a, d)) :
    (x >>= f) c = f a d := by
  have steps : (x >>= f) c = (x c >>= fun pair => f pair.1 pair.2) := rfl
  rw [steps, ran]
  rfl

theorem peek_run (n : Nat) (f : Token → Parse β) (c : Cursor) :
    (peek n >>= f) c = f (Cursor.peek c n) c := rfl

theorem sees_run (kind : Kind) (f : Bool → Parse β) (c : Cursor) :
    (sees kind >>= f) c = f (kindAt c.tokens 0 == kind) c := by
  rw [← kind_peek]
  rfl

theorem seesOperator_run (ops : List Kind) (f : Bool → Parse β) (c : Cursor) :
    (seesOperator ops >>= f) c =
      f (decide (kindAt c.tokens 0 ∈ ops) && kindAt c.tokens 1 != .assign) c := by
  rw [← kind_peek, ← kind_peek]
  rfl

theorem advance_run (f : Token → Parse β) (t : Token) (tokens : List Token) (line : Int)
    (site : Nat) : (advance >>= f) ⟨t :: tokens, line, site⟩ = f t ⟨tokens, line, site⟩ := rfl

theorem expect_run {kind : Kind} (f : Token → Parse β) {t : Token} (found : t.kind = kind)
    (tokens : List Token) (line : Int) (site : Nat) :
    (expect kind >>= f) ⟨t :: tokens, line, site⟩ = f t ⟨tokens, line, site⟩ := by
  have steps : (expect kind >>= f) ⟨t :: tokens, line, site⟩ =
      ((if t.kind = kind then advance else refuse t (.expected kind)) >>= f)
        ⟨t :: tokens, line, site⟩ := rfl
  rw [steps, if_pos found]
  rfl

end Runs

/-! ## Reading -/

/-- A rule, given some tokens, gives something with a property and leaves others. -/
def Reads (x : Parse α) (P : α → Prop) (before after : List Token) : Prop :=
  ∀ c : Cursor, c.tokens = before → ∃ a c', x c = .ok (a, c') ∧ c'.tokens = after ∧ P a

namespace Reads

variable {P : α → Prop} {Q : β → Prop} {before after tokens : List Token} {t : Token}

theorem pure {a : α} (holds : P a) : Reads (pure a) P tokens tokens :=
  fun c same => ⟨a, c, rfl, same, holds⟩

theorem bind {x : Parse α} {f : α → Parse β} (first : Reads x P before tokens)
    (next : ∀ a, P a → Reads (f a) Q tokens after) : Reads (x >>= f) Q before after := by
  intro c same
  obtain ⟨a, c', ran, left, holds⟩ := first c same
  obtain ⟨b, c'', ran', left', holds'⟩ := next a holds c' left
  exact ⟨b, c'', (bind_of_ok ran).trans ran', left', holds'⟩

theorem map {x : Parse α} {f : α → β} (first : Reads x P before after)
    (next : ∀ a, P a → Q (f a)) : Reads (f <$> x) Q before after := by
  have steps : f <$> x = x >>= fun a => Pure.pure (f a) := map_eq_pure_bind f x
  rw [steps]
  exact first.bind fun a holds => .pure (next a holds)

section Tokens

variable {f : Token → Parse β}

theorem peek (next : Reads (f t) Q (t :: tokens) after) :
    Reads (peek 0 >>= f) Q (t :: tokens) after := by
  intro c same
  have here : Cursor.peek c 0 = t := by simp [Cursor.peek, same]
  have steps : (Parser.peek 0 >>= f) c = f (Cursor.peek c 0) c := rfl
  rw [steps, here]
  exact next c same

/-- Looking at a token of which only the class is known. -/
theorem peek_kind {n : Nat}
    (next : ∀ t : Token, t.kind = kindAt before n → Reads (f t) Q before after) :
    Reads (Parser.peek n >>= f) Q before after := by
  intro c same
  exact next (Cursor.peek c n) (by rw [kind_peek, same]) c same

/-- Looking at a token before which an expression ends. -/
theorem peek_closed (closed : Closed before)
    (next : ∀ t : Token, closes t = true → Reads (f t) Q before after) :
    Reads (Parser.peek 0 >>= f) Q before after := by
  intro c same
  exact next (Cursor.peek c 0) (Closed.peek (same ▸ closed)) c same

theorem advance (next : Reads (f t) Q tokens after) :
    Reads (advance >>= f) Q (t :: tokens) after := by
  rintro ⟨_, line, site⟩ rfl
  rw [advance_run]
  exact next _ rfl

theorem expect {kind : Kind} (found : t.kind = kind) (next : Reads (f t) Q tokens after) :
    Reads (expect kind >>= f) Q (t :: tokens) after := by
  rintro ⟨_, line, site⟩ rfl
  rw [expect_run f found]
  exact next _ rfl

end Tokens

section Classes

variable {kind : Kind} {f : Bool → Parse β}

theorem sees (next : Reads (f (kindAt before 0 == kind)) Q before after) :
    Reads (sees kind >>= f) Q before after := by
  intro c same
  rw [sees_run, same]
  exact next c same

theorem sees_then {x y : Parse β} (found : kindAt before 0 = kind) (next : Reads x Q before after) :
    Reads (Parser.sees kind >>= fun b => if b then x else y) Q before after := by
  refine sees ?_
  rw [if_pos (beq_iff_eq.mpr found)]
  exact next

theorem sees_else {x y : Parse β} (other : kindAt before 0 ≠ kind) (next : Reads y Q before after) :
    Reads (Parser.sees kind >>= fun b => if b then x else y) Q before after := by
  refine sees ?_
  rw [if_neg (mt beq_iff_eq.mp other)]
  exact next

theorem seesKeyword_then {word : Text} {x y : Parse β} (found : isKeyword t word = true)
    (next : Reads x Q (t :: tokens) after) :
    Reads (seesKeyword word >>= fun b => if b then x else y) Q (t :: tokens) after := by
  intro c same
  have here : Cursor.peek c 0 = t := by simp [Cursor.peek, same]
  have steps : (seesKeyword word >>= fun b => if b then x else y) c =
      (if isKeyword (Cursor.peek c 0) word then x else y) c := rfl
  rw [steps, here, if_pos found]
  exact next c same

theorem seesKeyword_else {word : Text} {x y : Parse β}
    (absent : ∀ t ∈ before.head?, isKeyword t word = false) (next : Reads y Q before after) :
    Reads (seesKeyword word >>= fun b => if b then x else y) Q before after := by
  intro c same
  have other : isKeyword (Cursor.peek c 0) word = false := by
    unfold Cursor.peek
    rw [same]
    cases before with
    | nil => rfl
    | cons t rest => exact absent t rfl
  have steps : (seesKeyword word >>= fun b => if b then x else y) c =
      (if isKeyword (Cursor.peek c 0) word then x else y) c := rfl
  rw [steps, if_neg (Bool.eq_false_iff.mp other)]
  exact next c same

theorem seesOperator {ops : List Kind}
    (next : Reads (f (decide (kindAt before 0 ∈ ops) && kindAt before 1 != .assign)) Q before
      after) :
    Reads (seesOperator ops >>= f) Q before after := by
  intro c same
  rw [seesOperator_run, same]
  exact next c same

end Classes

theorem freshSite {f : Nat → Parse β} (next : ∀ n, Reads (f n) Q before after) :
    Reads (freshSite >>= f) Q before after :=
  fun c same => next c.site { c with site := c.site + 1 } same

end Reads

/-! ## Rounds -/

/-- What a round hands on satisfies the invariant, and what it ends with the
property wanted. -/
def Round.Meets (I : α → Prop) (Q : β → Prop) : Round α β → Prop
  | .again state => I state
  | .done result => Q result

@[simp] theorem Round.meets_again {I : α → Prop} {Q : β → Prop} {a : α} :
    Round.Meets I Q (.again a) ↔ I a := .rfl

@[simp] theorem Round.meets_done {I : α → Prop} {Q : β → Prop} {b : β} :
    Round.Meets I Q (.done b) ↔ Q b := .rfl

/-- One round, and the others if it was not the last. -/
theorem rounds_succ (round : α → Parse (Round α β)) (bound : Nat) (a : α) (c : Cursor) :
    rounds round (bound + 1) a c = (round a c >>= fun pair =>
      match pair.1 with
      | .again next => rounds round bound next pair.2
      | .done result => .ok (result, pair.2)) := by
  have steps : rounds round (bound + 1) a c = (round a c >>= fun pair =>
      (match pair.1 with
        | .again next => rounds round bound next
        | .done result => Pure.pure result : Parse β) pair.2) := rfl
  rw [steps]
  congr 1
  funext pair
  cases pair.1 <;> rfl

/-- More rounds than needed do no harm. -/
theorem rounds_mono {round : α → Parse (Round α β)} {bound bound' : Nat} (le : bound ≤ bound')
    {a : α} {c : Cursor} {r : β × Cursor} (ran : rounds round bound a c = .ok r) :
    rounds round bound' a c = .ok r := by
  induction bound generalizing a c bound' with
  | zero => cases ran
  | succ bound ih =>
      obtain ⟨more, rfl⟩ := Nat.exists_eq_add_of_le le
      rw [Nat.add_right_comm]
      rw [rounds_succ] at ran ⊢
      cases first : round a c with
      | error e =>
          rw [first] at ran
          cases ran
      | ok pair =>
          rw [first] at ran
          obtain ⟨outcome, c'⟩ := pair
          cases outcome with
          | again next => exact ih (Nat.le_add_right _ _) ran
          | done result => exact ran

theorem repeated_of_done {round : α → Parse (Round α β)} {a : α} {b : β} {c d : Cursor}
    (last : round a c = .ok (.done b, d)) : repeated a round c = .ok (b, d) := by
  have steps : repeated a round c = rounds round (c.tokens.length + 1) a c := rfl
  rw [steps, rounds_succ, last]
  rfl

/-- A round that is not the last takes a token, so there are rounds enough for the others. -/
theorem repeated_of_again {round : α → Parse (Round α β)} {a b : α} {c d : Cursor}
    {r : β × Cursor} (first : round a c = .ok (.again b, d))
    (shorter : d.tokens.length < c.tokens.length) (others : repeated b round d = .ok r) :
    repeated a round c = .ok r := by
  have steps : repeated a round c = rounds round (c.tokens.length + 1) a c := rfl
  rw [steps, rounds_succ, first]
  exact rounds_mono shorter others

namespace Reads

variable {Q : β → Prop} {before after tokens : List Token} {round : α → Parse (Round α β)} {a : α}

/-- The last round. -/
theorem done (last : Reads (round a) (Round.Meets (fun _ => False) Q) before after) :
    Reads (repeated a round) Q before after := by
  intro c same
  obtain ⟨outcome, c', ran, left, holds⟩ := last c same
  cases outcome with
  | again next => exact holds.elim
  | done result => exact ⟨result, c', repeated_of_done ran, left, holds⟩

/-- A round that is not the last. -/
theorem again {I : α → Prop}
    (first : Reads (round a) (Round.Meets I fun _ => False) before tokens)
    (shorter : tokens.length < before.length)
    (others : ∀ next, I next → Reads (repeated next round) Q tokens after) :
    Reads (repeated a round) Q before after := by
  intro c same
  obtain ⟨outcome, c', ran, left, holds⟩ := first c same
  cases outcome with
  | done result => exact holds.elim
  | again next =>
      obtain ⟨b, c'', ran', left', holds'⟩ := others next holds c' left
      have taken : c'.tokens.length < c.tokens.length := by rwa [left, same]
      exact ⟨b, c'', repeated_of_again ran taken ran', left', holds'⟩

/-- Rounds along a list: each takes the text of one member, and the last finds either
the text of none or that of a last member. -/
theorem along {ι : Type} {I : List ι → α → Prop} (text : List ι → List Token)
    (stop : ∀ a, I [] a → Reads (round a) (Round.Meets (fun _ => False) Q) (text []) after)
    (step : ∀ x xs a, I (x :: xs) a →
      Reads (round a) (Round.Meets (I xs) fun _ => False) (text (x :: xs)) (text xs) ∧
        (text xs).length < (text (x :: xs)).length ∨
      Reads (round a) (Round.Meets (fun _ => False) Q) (text (x :: xs)) after)
    {xs : List ι} {a : α} (holds : I xs a) : Reads (repeated a round) Q (text xs) after := by
  induction xs generalizing a with
  | nil => exact done (stop a holds)
  | cons x xs ih =>
      rcases step x xs a holds with ⟨first, shorter⟩ | last
      · exact again first shorter fun next holds => ih holds
      · exact done last

end Reads

/-! ## Where nothing follows -/

section Stops

variable {g : Grammar} {P : Node → Prop} {before rest : List Token}

theorem suffixes_none {c : Cursor} (n : Node)
    (ends : kindAt c.tokens 0 ∉ [.openParen, .openBracket, .dot]) :
    suffixes g n c = .ok (n, c) := by
  simp only [List.mem_cons, List.not_mem_nil, or_false, not_or] at ends
  refine repeated_of_done ?_
  rw [suffixRound, peek_run, kind_peek, if_neg ends.1, if_neg (by simp [ends])]
  rfl

/-- No call and no index path goes on with an operand. -/
theorem suffixes_stop {n : Node} (holds : P n) (ends : kindAt rest 0 ≠ .openParen)
    (ends' : kindAt rest 0 ≠ .openBracket) (ends'' : kindAt rest 0 ≠ .dot) :
    Reads (suffixes g n) P rest rest := by
  rintro c rfl
  exact ⟨n, c, suffixes_none n (by simp [ends, ends', ends'']), rfl, holds⟩

section Chains

variable {ops : List Kind} {next : Parse Node} {op : Token} {tokens : List Token}

theorem leftChain_of_one {c d : Cursor} {e : Node} (first : next c = .ok (e, d))
    (ends : kindAt d.tokens 0 ∉ ops) : leftChain ops next c = .ok (e, d) := by
  rw [leftChain, bind_of_ok first]
  refine repeated_of_done ?_
  rw [chainRound, seesOperator_run, decide_eq_false ends]
  rfl

theorem leftChain_of_two {c d : Cursor} {e e' : Node} {line : Int} {site : Nat}
    (first : next c = .ok (e, ⟨op :: tokens, line, site⟩)) (operator : op.kind ∈ ops)
    (plain : kindAt tokens 0 ≠ .assign) (second : next ⟨tokens, line, site⟩ = .ok (e', d))
    (shorter : d.tokens.length ≤ tokens.length) (ends : kindAt d.tokens 0 ∉ ops) :
    leftChain ops next c = .ok (.arithmetic e op.kind e', d) := by
  rw [leftChain, bind_of_ok first]
  refine repeated_of_again (b := .arithmetic e op.kind e') (d := d) ?_
    (Nat.lt_succ_of_le shorter) (repeated_of_done ?_)
  · have sees : (decide (kindAt (op :: tokens) 0 ∈ ops) && kindAt (op :: tokens) 1 != .assign) =
        true := by
      simpa [kindAt] using ⟨operator, plain⟩
    rw [chainRound, seesOperator_run, sees, if_pos rfl, advance_run, bind_of_ok second]
    rfl
  · rw [chainRound, seesOperator_run, decide_eq_false ends]
    rfl

theorem leftChain_stop (first : Reads next P before rest) (ends : kindAt rest 0 ∉ ops) :
    Reads (leftChain ops next) P before rest := by
  intro c same
  obtain ⟨e, d, ran, rfl, holds⟩ := first c same
  exact ⟨e, d, leftChain_of_one ran ends, rfl, holds⟩

/-- Two operands with an operator of the level between them. -/
theorem leftChain_once {Q R : Node → Prop} (first : Reads next P before (op :: tokens))
    (operator : op.kind ∈ ops) (plain : kindAt tokens 0 ≠ .assign)
    (second : Reads next Q tokens rest) (shorter : rest.length ≤ tokens.length)
    (ends : kindAt rest 0 ∉ ops) (joined : ∀ a b, P a → Q b → R (.arithmetic a op.kind b)) :
    Reads (leftChain ops next) R before rest := by
  intro c same
  obtain ⟨a, ⟨_, line, site⟩, ran, rfl, left⟩ := first c same
  obtain ⟨b, d, ran', rfl, right⟩ := second ⟨tokens, line, site⟩ rfl
  exact ⟨_, d, leftChain_of_two ran operator plain ran' shorter ends, rfl, joined a b left right⟩

end Chains

theorem comparison_stop (first : Reads (additive g) P before rest)
    (ends : kindAt rest 0 ∉ relational) : Reads (comparison g) P before rest := by
  refine first.bind fun n holds => .peek_kind fun t same => ?_
  rw [if_neg (by rw [same]; exact ends)]
  exact .pure holds

theorem expression_stop (first : Reads (comparison g) P before rest) (closed : Closed rest) :
    Reads (expression g) P before rest := by
  refine first.bind fun n holds => .done (.peek_closed closed fun t closes => ?_)
  rw [logical?_of_closes closes]
  exact .pure holds

/-- An operand with no operator of arithmetic after it is a whole sum. -/
theorem additive_of_operand {P : Node → Prop} {before : List Token}
    (first : Reads (operand g) P before rest) (ends : kindAt rest 0 ∉ Node.arithmeticOps) :
    Reads (additive g) P before rest := by
  have none {ops : List Kind} (among : ∀ op ∈ ops, op ∈ Node.arithmeticOps) :
      kindAt rest 0 ∉ ops := fun member => ends (among _ member)
  have factored : Reads (factor g) P before rest := leftChain_stop first (none (by decide))
  exact leftChain_stop (leftChain_stop factored (none (by decide))) (none (by decide))

/-- An operand with nothing after it is a whole expression. -/
theorem expression_of_operand {P : Node → Prop} {before : List Token}
    (first : Reads (operand g) P before rest) (closed : Closed rest) :
    Reads (expression g) P before rest := by
  have added := additive_of_operand first (closed.not_mem (by decide))
  exact expression_stop (comparison_stop added (closed.not_mem (by decide))) closed

end Stops

end EplLang.Parser
