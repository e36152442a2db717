import EplLang.Proofs.Reading

/-!
# Two parsers side by side

Whatever is true of every rule of the grammar is proved by going along the grammar once. A walk is
what such a proof depends on. It is about two parsers at once: which cursors they may stand at,
which tokens they may see there, what they may give and how they may stop. Its laws are about single
tokens, single actions on a cursor and single forms of nodes, and `Agrees` is the judgement that
follows from them for every rule: both parsers give things that are alike and stand at such cursors
again, or both stop in ways that go together. A parser beside itself is the special case in which
nothing but an invariant is left.

The judgement also counts. A result of a class `took` is only given after a token is taken, so loops
that take a token in each round but the last never run out of rounds. The cursors carry a number
that bounds the tokens that are left, those in segments included; one token less makes it one less,
which is what pays for the nesting of the rules.

Two things make room for special readings. A lenient walk only asks that what the first parser gives
is given by the second one, and asks it of rules that are not loose only while tokens are left: the
second parser may stand before more tokens, if the first of them is one before which expressions
end. A free walk also reads rules from cursors at which the grammar never uses them.
-/

set_option autoImplicit false

namespace EplLang

/-! ## Nodes that are alike -/

/-- What the grammar asks about an expression that it has read. -/
inductive Node.Head where
  | call
  | index
  | name (n : Text)
  | other
  deriving DecidableEq

/-- What an expression is, as far as the grammar asks. -/
def Node.head : Node → Node.Head
  | .call .. => .call
  | .index .. => .index
  | .name n => .name n
  | _ => .other

namespace Node

variable {n n' : Node}

theorem head_eq_call : n.head = .call ↔ ∃ callee args, n = .call callee args := by
  cases n <;> simp [head]

theorem head_eq_index : n.head = .index ↔ ∃ base path, n = .index base path := by
  cases n <;> simp [head]

theorem name?_eq_some {text : Text} : Parser.name? n = some text ↔ n.head = .name text := by
  cases n <;> simp [Parser.name?, head]

theorem name?_congr (same : n.head = n'.head) : Parser.name? n = Parser.name? n' :=
  Option.ext fun text => by rw [name?_eq_some, name?_eq_some, same]

end Node

/-- Entries of container literals under one key: with values that are related, or both without one,
which only is so in literals that no grammar makes. -/
def Node.EntryPair (free : Prop) (R : Node → Node → Prop) (entry entry' : Scalar × Option Node) :
    Prop :=
  entry.1 = entry'.1 ∧ Option.Rel R entry.2 entry'.2 ∧ (entry.2.isSome ∨ free)

/-- A relation between the lines, numbers and nodes of two parsers that the grammar respects. In a
free one nothing is known of the nodes that a rule starts with. -/
structure Likeness where
  free : Prop
  line : Int → Int → Prop
  site : Nat → Nat → Prop
  expr : Node → Node → Prop
  stmt : Node → Node → Prop
  block : Block → Block → Prop
  noLine : line Parser.noLine Parser.noLine
  head {e e' : Node} : expr e e' → e.head = e'.head
  literal (x : Scalar) : expr (.literal x) (.literal x)
  name (n : Text) : expr (.name n) (.name n)
  call {callee callee' : Node} {args args' : List Node} : expr callee callee' →
    List.Forall₂ expr args args' → expr (.call callee args) (.call callee' args')
  index {base base' : Node} {path path' : List Node} : expr base base' →
    List.Forall₂ expr path path' → path ≠ [] ∨ free →
    expr (.index base path) (.index base' path')
  function {s s' : Nat} {body body' : Block} (params : List Text) : site s s' →
    block body body' → expr (.function s params body) (.function s' params body')
  container {items items' : Items Node} (shape : Shape) :
    List.Forall₂ (Node.EntryPair free expr) items.entries items'.entries →
    expr (.container shape items) (.container shape items')
  length {e e' : Node} : expr e e' → expr (.length e) (.length e')
  unary {op : Kind} {e e' : Node} : op = .minus ∨ op = .not → expr e e' →
    expr (.unary op e) (.unary op e')
  arithmetic {op : Kind} {left left' right right' : Node} : op ∈ Node.arithmeticOps →
    expr left left' → expr right right' →
    expr (.arithmetic left op right) (.arithmetic left' op right')
  condition {op : Kind} {left left' right right' : Node} : op ∈ Node.conditionOps →
    expr left left' → expr right right' →
    expr (.condition left op right) (.condition left' op right')
  bind {value value' : Node} (n : Text) : expr value value' →
    stmt (.bind n value) (.bind n value')
  assign {base base' value value' : Node} {path path' : List Node} :
    expr (.index base path) (.index base' path') → expr value value' →
    stmt (.assign base path value) (.assign base' path' value')
  calling {callee callee' : Node} {args args' : List Node} :
    expr (.call callee args) (.call callee' args') →
    stmt (.call callee args) (.call callee' args')
  give {value value' : Node} : expr value value' → stmt (.give value) (.give value')
  leave : stmt .leave .leave
  load {path path' : Node} : expr path path' → stmt (.load path) (.load path')
  branch {test test' : Node} {body body' : Block} {elifs elifs' : List (Node × Block)}
    {last last' : Option Block} : expr test test' → block body body' →
    List.Forall₂ (fun elif elif' => expr elif.1 elif'.1 ∧ block elif.2 elif'.2) elifs elifs' →
    Option.Rel block last last' →
      stmt (.branch test body elifs last) (.branch test' body' elifs' last')
  loop {test test' : Node} {body body' : Block} : expr test test' → block body body' →
    stmt (.loop test body) (.loop test' body')
  range {first first' last last' : Node} {body body' : Block} (n : Text) : expr first first' →
    expr last last' → block body body' →
    stmt (.range n first last body) (.range n first' last' body')
  each {collection collection' : Node} {body body' : Block} (n : Text) :
    expr collection collection' → block body body' →
    stmt (.each n collection body) (.each n collection' body')
  nil : block [] []
  single {l l' : Int} {value value' : Node} : line l l' → expr value value' →
    block [⟨l, .give value⟩] [⟨l', .give value'⟩]
  more {body body' : Block} {l l' last last' : Int} {n n' : Node} : block body body' →
    line l l' → line last last' → stmt n n' →
    block (body ++ (if l = last then [] else [⟨l, .newLine⟩]) ++ [⟨l, n⟩])
      (body' ++ (if l' = last' then [] else [⟨l', .newLine⟩]) ++ [⟨l', n'⟩])

namespace Likeness

variable (l : Likeness)

/-- Container literals with the same keys in the same order and with entries that are alike. -/
def Listed (items items' : Container Node) : Prop :=
  List.Forall₂ (Node.EntryPair l.free l.expr) items.entries items'.entries

/-- A test and a block. -/
def Guards (pair pair' : Node × Block) : Prop := l.expr pair.1 pair'.1 ∧ l.block pair.2 pair'.2

variable {l}

theorem listed_empty : l.Listed .empty .empty := .nil

theorem Listed.size {items items' : Container Node} (listed : l.Listed items items') :
    items.size = items'.size := by
  rw [← items.length_entries, ← items'.length_entries]
  exact List.Forall₂.length_eq listed

/-- Setting a key that can be looked up. -/
theorem Listed.set {items items' : Container Node} (listed : l.Listed items items') {k : Scalar}
    (known : k.isLost = false) {e e' : Node} (like : l.expr e e') :
    l.Listed (items.set k e) (items'.set k e') := by
  unfold Listed at *
  rw [Container.entries_set, Container.entries_set, known]
  simp only [Bool.false_eq_true, if_false]
  generalize items.entries = entries, items'.entries = entries' at listed
  have given (key : Scalar) : Node.EntryPair l.free l.expr (key, some e) (key, some e') :=
    ⟨rfl, .some like, .inl rfl⟩
  induction listed with
  | nil => exact .cons (given k) .nil
  | @cons entry entry' rest rest' first others ih =>
      obtain ⟨key, value⟩ := entry
      obtain ⟨key', value'⟩ := entry'
      obtain ⟨same, values⟩ := first
      obtain rfl : key = key' := same
      unfold OrderedMap.put
      split
      · exact .cons (given key) others
      · exact .cons ⟨rfl, values⟩ ih

theorem getD_null {inner inner' : Option Node} (same : Option.Rel l.expr inner inner') :
    l.expr (inner.getD .null) (inner'.getD .null) := by
  cases same with
  | none => exact l.literal _
  | some like => exact like

theorem bind_name? {inner inner' : Option Node} (same : Option.Rel l.expr inner inner') :
    inner.bind Parser.name? = inner'.bind Parser.name? := by
  cases same with
  | none => rfl
  | some like => exact Node.name?_congr (l.head like)

end Likeness

theorem forall₂_concat {α β : Type} {R : α → β → Prop} {xs : List α} {ys : List β} {x : α} {y : β}
    (others : List.Forall₂ R xs ys) (last : R x y) : List.Forall₂ R (xs ++ [x]) (ys ++ [y]) :=
  List.rel_append others (.cons last .nil)

/-- The segments of a string go to places in its text, in their order. -/
def Token.Placed (t : Token) : Prop :=
  (t.parts.map Prod.fst ++ [t.text.length]).Pairwise (· ≤ ·)

instance (t : Token) : Decidable t.Placed :=
  inferInstanceAs (Decidable ((t.parts.map Prod.fst ++ [t.text.length]).Pairwise (· ≤ ·)))

namespace Parser

/-! ## Cursors -/

/-- The cursor after a token is taken. -/
def Cursor.next (c : Cursor) : Cursor := { c with tokens := c.tokens.tail }

namespace Cursor

variable {c : Cursor}

theorem peek_next (c : Cursor) (k : Nat) : peek (next c) k = peek c (k + 1) := by
  simp [Cursor.peek, Cursor.next]

theorem peek_of_nil (none : c.tokens = []) (k : Nat) : (peek c k).kind = .endOfInput := by
  simp [Cursor.peek, none]

theorem tokens_ne_nil (real : (peek c 0).kind ≠ .endOfInput) : c.tokens ≠ [] :=
  fun none => real (peek_of_nil none 0)

theorem tokens_of_isKeyword {word : Text} (found : isKeyword (peek c 0) word = true) :
    c.tokens ≠ [] := by
  refine tokens_ne_nil fun ends => ?_
  simp [isKeyword, ends] at found

theorem length_next (some : c.tokens ≠ []) : (next c).tokens.length < c.tokens.length := by
  have pos := List.length_pos_iff.mpr some
  simp only [next, List.length_tail]
  omega

end Cursor

/-- The classes of tokens before which every expression and every list of them is over. -/
def enders : List Kind := [.endOfInput, .closeParen, .closeBracket]

section Fails

variable {α β : Type} {c : Cursor}

/-- A rule stops. -/
def Fails (x : Parse α) (c : Cursor) : Prop := ∀ r, x c ≠ .ok r

theorem Fails.bind {x : Parse α} (fails : Fails x c) (f : α → Parse β) : Fails (x >>= f) c := by
  intro r ran
  have steps : (x >>= f) c = (x c >>= fun pair => f pair.1 pair.2) := rfl
  cases first : x c with
  | ok pair => exact fails pair first
  | error e =>
      rw [steps, first] at ran
      cases ran

theorem fails_expect {kind : Kind} (real : kind ≠ .endOfInput) (none : c.tokens = [])
    (f : Token → Parse β) : Fails (expect kind >>= f) c := by
  refine Fails.bind (fun r ran => ?_) f
  have steps : expect kind c = (if (Cursor.peek c 0).kind = kind then advance
    else refuse (Cursor.peek c 0) (.expected kind) : Parse Token) c := rfl
  rw [steps, if_neg (by rw [Cursor.peek_of_nil none]; exact real.symm)] at ran
  cases ran

end Fails

/-! ## Walks -/

/-- What two parsers that go along the grammar side by side may do. The index stands for the input
that they are in: the program, or a segment of a string. -/
structure Walk (ι : Type) extends Likeness where
  /-- Whether the second parser may give more than the first one. -/
  lenient : Prop
  /-- The cursors at which the parsers may stand, before fewer than a number of tokens. -/
  stands : ι → Nat → Cursor → Cursor → Prop
  /-- The tokens that they may see. -/
  token : ι → Token → Token → Prop
  /-- The tokens of a segment that they may read, fewer than a number of them. -/
  segment : ι → Nat → List Token → List Token → Prop
  /-- The ways in which they may stop. -/
  stop : ι → Stop → Stop → Prop
  strict : free → ¬lenient
  up {i : ι} {n : Nat} {c c' : Cursor} : stands i n c c' → stands i (n + 1) c c'
  later {i : ι} {n m : Nat} {c c' d d' : Cursor} : stands i n c c' → stands i m d d' →
    d.tokens <:+ c.tokens → stands i n d d'
  shorter {i : ι} {n m : Nat} {c c' d d' : Cursor} : stands i (n + 1) c c' → stands i m d d' →
    d.tokens <:+ c.tokens → d.tokens.length < c.tokens.length → stands i n d d'
  next {i : ι} {n : Nat} {c c' : Cursor} : stands i (n + 1) c c' → c.tokens ≠ [] ∨ free →
    stands i n (Cursor.next c) (Cursor.next c')
  fresh {i : ι} {n : Nat} {c c' : Cursor} : stands i n c c' → site c.site c'.site ∧
    stands i n { c with site := c.site + 1 } { c' with site := c'.site + 1 }
  count {i : ι} {n : Nat} {c c' : Cursor} : stands i n c c' →
    c.tokens.length ≤ c'.tokens.length
  ahead {i : ι} {n k : Nat} {c c' : Cursor} : stands i n c c' → k ≤ c.tokens.length →
    token i (Cursor.peek c k) (Cursor.peek c' k) ∨
      lenient ∧ k = c.tokens.length ∧ (Cursor.peek c' k).kind ∈ enders
  kind {i : ι} {t t' : Token} : token i t t' → t.kind = t'.kind
  text {i : ι} {t t' : Token} : token i t t' → t.text = t'.text
  placed {i : ι} {t t' : Token} : token i t t' → t.Placed ∨ stop i .misplaced .misplaced
  lines {i : ι} {t t' : Token} : token i t t' → line t.line t'.line
  refused {i : ι} {t t' : Token} (complaint : Complaint) : token i t t' →
    stop i (t.illegal complaint) (t'.illegal complaint)
  returns {i : ι} {n : Nat} {c c' : Cursor} : stands i n c c' →
    isKeyword (Cursor.peek c 0) "return" = true ∨ free → (Cursor.peek c 1).kind ≠ .endOfInput →
    ((Cursor.peek c 1).line = (Cursor.peek c 0).line ↔
      (Cursor.peek c' 1).line = (Cursor.peek c' 0).line)
  parts {i : ι} {n : Nat} {c c' : Cursor} : stands i (n + 1) c c' →
    token i (Cursor.peek c 0) (Cursor.peek c' 0) →
    List.Forall₂ (fun part part' => part.1 = part'.1 ∧ segment i n part.2 part'.2)
      (Cursor.peek c 0).parts (Cursor.peek c' 0).parts
  enter {i : ι} {n : Nat} {c c' : Cursor} {tokens tokens' : List Token} : stands i n c c' →
    segment i n tokens tokens' → ∃ j, stands j n (start c.site tokens) (start c'.site tokens') ∧
      (∀ e e', stop j e e' → stop i e e') ∧
      ∀ m d d', stands j m d d' →
        ((Cursor.peek d 0).kind = .endOfInput → (Cursor.peek d' 0).kind = .endOfInput) ∧
        stands i n { c with site := d.site } { c' with site := d'.site }

namespace Walk

variable {ι α β : Type} (w : Walk ι) {i : ι} {n : Nat} {c c' : Cursor}

/-! ## Looking ahead -/

section Looks

variable (stands : w.stands i n c c')
include stands

theorem first : w.token i (Cursor.peek c 0) (Cursor.peek c' 0) ∨ w.lenient ∧ c.tokens = [] :=
  (w.ahead stands (Nat.zero_le _)).imp_right fun ⟨lenient, ends, _⟩ =>
    ⟨lenient, List.length_eq_zero_iff.mp ends.symm⟩

/-- Up to the end of the tokens, a class of tokens that tells no ender from another is there for
both parsers or for none. -/
theorem blind {P : Kind → Prop} (same : ∀ kind ∈ enders, P kind ↔ P .endOfInput) {k : Nat}
    (near : k ≤ c.tokens.length) :
    P (Cursor.peek c k).kind ↔ P (Cursor.peek c' k).kind := by
  rcases w.ahead stands near with like | ⟨_, rfl, ender⟩
  · rw [w.kind like]
  · have beyond : (Cursor.peek c c.tokens.length).kind = .endOfInput := by simp [Cursor.peek]
    rw [beyond]
    exact (same _ ender).symm

/-- The same of two tokens, the first of which is there. -/
theorem blind_two {P Q : Kind → Prop} (none : ∀ kind ∈ enders, ¬P kind)
    (same : ∀ kind ∈ enders, Q kind ↔ Q .endOfInput) :
    P (Cursor.peek c 0).kind ∧ Q (Cursor.peek c 1).kind ↔
      P (Cursor.peek c' 0).kind ∧ Q (Cursor.peek c' 1).kind := by
  have first : P (Cursor.peek c 0).kind ↔ P (Cursor.peek c' 0).kind :=
    w.blind stands (fun kind ender => iff_of_false (none kind ender) (none _ (by decide)))
      (Nat.zero_le _)
  refine Iff.trans (and_congr_right fun found => w.blind stands same ?_) (and_congr_left' first)
  refine List.length_pos_iff.mpr (Cursor.tokens_ne_nil fun ends => none _ ?_ found)
  rw [ends]
  decide

theorem isKeyword (word : Text) :
    isKeyword (Cursor.peek c 0) word = isKeyword (Cursor.peek c' 0) word := by
  have same := w.blind stands (P := (· = .keyword)) (by decide) (Nat.zero_le _)
  by_cases keyword : (Cursor.peek c 0).kind = .keyword
  · rcases w.first stands with like | ⟨_, none⟩
    · rw [Parser.isKeyword, Parser.isKeyword, w.kind like, w.text like]
    · rw [Cursor.peek_of_nil none] at keyword
      cases keyword
  · rw [Parser.isKeyword, Parser.isKeyword, beq_false_of_ne keyword,
      beq_false_of_ne (mt same.mpr keyword), Bool.false_and, Bool.false_and]

theorem logical? : logical? (Cursor.peek c 0) = logical? (Cursor.peek c' 0) := by
  unfold Parser.logical?
  rw [w.isKeyword stands, w.isKeyword stands]

end Looks

/-! ## Rules that agree -/

/-- Outcomes of two rules, the first one before the tokens `before`. In a lenient walk the second
outcome is only bound to the first if the rule is loose or leaves a token. -/
inductive Outcome (i : ι) (loose : Prop) (before : List Token) (took : α → Prop)
    (R : α → α → Prop) : Except Stop (α × Cursor) → Except Stop (α × Cursor) → Prop where
  | ok {a b : α} {n : Nat} {d d' : Cursor} {r : Except Stop (α × Cursor)} : R a b →
      w.stands i n d d' → d.tokens <:+ before → (took a → d.tokens.length < before.length) →
      ((w.lenient → loose ∨ d.tokens ≠ []) → r = .ok (b, d')) →
      Outcome i loose before took R (.ok (a, d)) r
  | stop {e e' : Stop} : w.stop i e e' → Outcome i loose before took R (.error e) (.error e')
  | excused {e : Stop} {r : Except Stop (α × Cursor)} : w.lenient →
      Outcome i loose before took R (.error e) r

/-- From two cursors, two rules give results related by `R` or both stop. A result in `took` is
given only after a token is taken. -/
def Agrees (i : ι) (loose : Prop) (c c' : Cursor) (took : α → Prop) (R : α → α → Prop)
    (x y : Parse α) : Prop := w.Outcome i loose c.tokens took R (x c) (y c')

end Walk

section Results

variable {α β : Type}

/-- Results that need no token. -/
def idle : α → Prop := fun _ => False

/-- Results that all need a token. -/
def always : α → Prop := fun _ => True

/-- Rounds that need a token: those after which others follow, and some last ones. -/
def Round.taking (took : β → Prop) : Round α β → Prop
  | .again _ => True
  | .done b => took b

/-- Rounds that hand on related things, or end with related results. -/
def Round.Pairs (I : α → α → Prop) (Q : β → β → Prop) : Round α β → Round α β → Prop
  | .again a, .again b => I a b
  | .done a, .done b => Q a b
  | _, _ => False

theorem Round.Pairs.mono {I I' : α → α → Prop} {Q Q' : β → β → Prop}
    (again : ∀ a b, I a b → I' a b) (done : ∀ a b, Q a b → Q' a b) (r r' : Round α β)
    (pairs : Round.Pairs I Q r r') : Round.Pairs I' Q' r r' := by
  cases r <;> cases r'
  case again.again => exact again _ _ pairs
  case done.done => exact done _ _ pairs
  all_goals exact pairs.elim

end Results

/-- What is read after nothing or more. -/
theorem Walk.Outcome.widen {ι β : Type} {w : Walk ι} {i : ι} {loose : Prop}
    {before after : List Token} {took rest : β → Prop} {Q : β → β → Prop}
    {r r' : Except Stop (β × Cursor)} (outcome : w.Outcome i loose after rest Q r r')
    (suffix : after <:+ before) (count : ∀ b, took b → rest b ∨ after.length < before.length) :
    w.Outcome i loose before took Q r r' := by
  cases outcome with
  | ok holds stands suffix' taken owed =>
      refine .ok holds stands (suffix'.trans suffix) (fun took => ?_) owed
      rcases count _ took with took | fewer
      · exact Nat.lt_of_lt_of_le (taken took) suffix.length_le
      · exact Nat.lt_of_le_of_lt suffix'.length_le fewer
  | stop stops => exact .stop stops
  | excused lenient => exact .excused lenient

namespace Walk.Agrees

variable {ι α β : Type} {w : Walk ι} {i : ι} {loose : Prop} {n : Nat} {c c' : Cursor}
  {took : β → Prop} {P : α → α → Prop} {Q : β → β → Prop}

theorem pure {a b : β} (stands : w.stands i n c c') (holds : Q a b) (free : ¬took a) :
    w.Agrees i loose c c' took Q (pure a) (pure b) :=
  .ok holds stands List.suffix_rfl (fun taken => absurd taken free) fun _ => rfl

theorem refuse {t t' : Token} (like : w.token i t t' ∨ w.lenient) (complaint : Complaint) :
    w.Agrees i loose c c' took Q (refuse t complaint) (refuse t' complaint) := by
  rcases like with like | lenient
  · exact .stop (w.refused complaint like)
  · exact .excused lenient

theorem of_fails {x y : Parse β} (lenient : w.lenient) (fails : Fails x c) :
    w.Agrees i loose c c' took Q x y := by
  unfold Agrees
  cases ran : x c with
  | ok r => exact absurd ran (fails r)
  | error e => exact .excused lenient

/-- What is given at the end of the tokens binds the second parser in no way. -/
theorem ended {a b : β} {y : Parse β} (lenient : w.lenient) (none : c.tokens = [])
    (stands : w.stands i n c c') (holds : Q a b) (free : ¬took a) :
    w.Agrees i False c c' took Q (Pure.pure a) y :=
  .ok holds stands List.suffix_rfl (fun taken => absurd taken free)
    fun owes => absurd none ((owes lenient).resolve_left id)

theorem consequence {loose' : Prop} {took' : β → Prop} {R : β → β → Prop} {x y : Parse β}
    (agrees : w.Agrees i loose c c' took Q x y) (tighter : loose' → loose)
    (fewer : ∀ b, took' b → took b) (implies : ∀ a b, Q a b → R a b) :
    w.Agrees i loose' c c' took' R x y := by
  unfold Agrees at *
  generalize x c = r, y c' = r' at agrees
  cases agrees with
  | ok holds stands suffix taken owed =>
      exact .ok (implies _ _ holds) stands suffix (fun took => taken (fewer _ took))
        fun owes => owed fun lenient => (owes lenient).imp_left tighter
  | stop stops => exact .stop stops
  | excused lenient => exact .excused lenient

theorem mono {R : β → β → Prop} {x y : Parse β} (agrees : w.Agrees i loose c c' took Q x y)
    (implies : ∀ a b, Q a b → R a b) : w.Agrees i loose c c' took R x y :=
  agrees.consequence id (fun _ => id) implies

theorem weaken {x y : Parse β} (agrees : w.Agrees i True c c' took Q x y) :
    w.Agrees i loose c c' idle Q x y :=
  agrees.consequence (fun _ => trivial) (fun _ => False.elim) fun _ _ => id

theorem tighten {x y : Parse β} (agrees : w.Agrees i True c c' took Q x y) :
    w.Agrees i loose c c' took Q x y :=
  agrees.consequence (fun _ => trivial) (fun _ => id) fun _ _ => id

theorem ite {p p' : Prop} [Decidable p] [Decidable p'] {x x' y y' : Parse β} (same : p ↔ p')
    (yes : p → w.Agrees i loose c c' took Q x x') (no : ¬p → w.Agrees i loose c c' took Q y y') :
    w.Agrees i loose c c' took Q (if p then x else y) (if p' then x' else y') := by
  by_cases holds : p
  · rw [if_pos holds, if_pos (same.mp holds)]
    exact yes holds
  · rw [if_neg holds, if_neg (mt same.mpr holds)]
    exact no holds

section Bind

variable {x y : Parse α} {f h : α → Parse β}

/-- One rule after another. A token is taken by the first or by the second, and where the second
one binds the other parser so does the first. -/
theorem bind_via {loose' : Prop} {took' : α → Prop} {S : β → Prop}
    (first : w.Agrees i loose' c c' took' P x y)
    (count : ∀ a b d e, f a d = .ok (b, e) → took b → took' a ∨ S b)
    (owed : ∀ a d r, w.lenient → f a d = .ok r → r.2.tokens <:+ d.tokens →
      loose ∨ r.2.tokens ≠ [] → loose' ∨ d.tokens ≠ [])
    (next : ∀ a b m d d', w.stands i m d d' → d.tokens <:+ c.tokens →
      (took' a → d.tokens.length < c.tokens.length) → P a b →
      w.Agrees i loose d d' S Q (f a) (h b)) :
    w.Agrees i loose c c' took Q (x >>= f) (y >>= h) := by
  have run : (x >>= f) c = (x c >>= fun pair => f pair.1 pair.2) := rfl
  have run' : (y >>= h) c' = (y c' >>= fun pair => h pair.1 pair.2) := rfl
  unfold Agrees at *
  rw [run, run']
  generalize x c = r, y c' = r' at first
  cases first with
  | stop stops => exact .stop stops
  | excused lenient => exact .excused lenient
  | @ok a b m d d' _ holds stands suffix taken gives =>
      have others := next a b m d d' stands suffix taken holds
      show w.Outcome i loose c.tokens took Q (f a d) _
      generalize ran : f a d = s, ran' : h b d' = s' at others
      cases others with
      | @ok q q' _ e e' _ holds' stands' suffix' taken' gives' =>
          refine .ok holds' stands' (suffix'.trans suffix) (fun took => ?_) fun owes => ?_
          · rcases count a q d e ran took with took | took
            · exact Nat.lt_of_le_of_lt suffix'.length_le (taken took)
            · exact Nat.lt_of_lt_of_le (taken' took) suffix.length_le
          · rw [gives fun lenient => owed a d _ lenient ran suffix' (owes lenient)]
            exact ran'.trans (gives' owes)
      | stop stops =>
          by_cases lenient : w.lenient
          · exact .excused lenient
          · rw [gives fun yes => absurd yes lenient]
            show w.Outcome i loose c.tokens took Q _ (h b d')
            rw [ran']
            exact .stop stops
      | excused lenient => exact .excused lenient

/-- What leaves a token leaves one to what comes before it. -/
theorem tokens_of_suffix {before after : List Token} (suffix : after <:+ before)
    (left : loose ∨ after ≠ []) : loose ∨ before ≠ [] := by
  refine left.imp_right fun some none => some ?_
  rw [none] at suffix
  exact List.suffix_nil.mp suffix

theorem bind (stands : w.stands i n c c') (first : w.Agrees i loose c c' idle P x y)
    (next : ∀ a b d d', w.stands i n d d' → P a b → w.Agrees i loose d d' took Q (f a) (h b)) :
    w.Agrees i loose c c' took Q (x >>= f) (y >>= h) :=
  bind_via first (fun _ _ _ _ _ => .inr) (fun _ _ _ _ _ => tokens_of_suffix)
    fun a b _ d d' there suffix _ holds => next a b d d' (w.later stands there suffix) holds

/-- After a rule that takes a token. -/
theorem bind_taken {took' : α → Prop} (stands : w.stands i (n + 1) c c')
    (first : w.Agrees i loose c c' took' P x y) (takes : ∀ a, took' a)
    (next : ∀ a b d d', w.stands i n d d' → P a b → w.Agrees i loose d d' idle Q (f a) (h b)) :
    w.Agrees i loose c c' took Q (x >>= f) (y >>= h) :=
  bind_via first (fun a _ _ _ _ _ => .inl (takes a)) (fun _ _ _ _ _ => tokens_of_suffix)
    fun a b _ d d' there suffix taken holds =>
      next a b d d' (w.shorter stands there suffix (taken (takes a))) holds

/-- After a rule that need not be loose comes one that needs a token. -/
theorem bind_needs (stands : w.stands i n c c') (first : w.Agrees i False c c' idle P x y)
    (needs : ∀ a d, d.tokens = [] → Fails (f a) d)
    (next : ∀ a b d d', w.stands i n d d' → P a b → w.Agrees i loose d d' took Q (f a) (h b)) :
    w.Agrees i loose c c' took Q (x >>= f) (y >>= h) :=
  bind_via first (fun _ _ _ _ _ => .inr)
    (fun a d r _ ran _ _ => .inr fun none => needs a d none r ran)
    fun a b _ d d' there suffix _ holds => next a b d d' (w.later stands there suffix) holds

end Bind

theorem map {x y : Parse α} {f : α → β} (stands : w.stands i n c c')
    (first : w.Agrees i loose c c' idle P x y) (next : ∀ a b, P a b → Q (f a) (f b)) :
    w.Agrees i loose c c' idle Q (f <$> x) (f <$> y) := by
  rw [map_eq_pure_bind, map_eq_pure_bind]
  exact bind stands first fun a b d d' stands holds => .pure stands (next a b holds) not_false

section Tokens

variable {f h : Token → Parse β}

theorem peek {k : Nat}
    (next : w.Agrees i loose c c' took Q (f (Cursor.peek c k)) (h (Cursor.peek c' k))) :
    w.Agrees i loose c c' took Q (peek k >>= f) (peek k >>= h) := next

theorem advance (stands : w.stands i (n + 1) c c') (some : c.tokens ≠ [])
    (next : w.stands i n (Cursor.next c) (Cursor.next c') →
      w.token i (Cursor.peek c 0) (Cursor.peek c' 0) →
      w.Agrees i loose (Cursor.next c) (Cursor.next c') idle Q
        (f (Cursor.peek c 0)) (h (Cursor.peek c' 0))) :
    w.Agrees i loose c c' took Q (advance >>= f) (advance >>= h) :=
  (next (w.next stands (.inl some))
    ((w.first stands).resolve_right fun ends => some ends.2)).widen (List.tail_suffix _)
    fun _ _ => .inr (Cursor.length_next some)

/-- In a free walk the next token is taken even if it is the end of the input. -/
theorem advance_any (stands : w.stands i (n + 1) c c') (here : c.tokens ≠ [] ∨ w.free)
    (next : w.stands i n (Cursor.next c) (Cursor.next c') →
      w.token i (Cursor.peek c 0) (Cursor.peek c' 0) →
      w.Agrees i loose (Cursor.next c) (Cursor.next c') idle Q
        (f (Cursor.peek c 0)) (h (Cursor.peek c' 0))) :
    w.Agrees i loose c c' (fun _ => c.tokens ≠ []) Q (Parser.advance >>= f)
      (Parser.advance >>= h) := by
  by_cases some : c.tokens ≠ []
  · exact advance stands some next
  · have free := here.resolve_left some
    exact (next (w.next stands (.inr free))
      ((w.first stands).resolve_right fun ends => w.strict free ends.1)).widen (List.tail_suffix _)
      fun _ taken => absurd taken some

theorem expect (stands : w.stands i (n + 1) c c') {kind : Kind} (real : kind ≠ .endOfInput)
    (next : w.stands i n (Cursor.next c) (Cursor.next c') →
      w.token i (Cursor.peek c 0) (Cursor.peek c' 0) →
      w.Agrees i loose (Cursor.next c) (Cursor.next c') idle Q
        (f (Cursor.peek c 0)) (h (Cursor.peek c' 0))) :
    w.Agrees i loose c c' took Q (expect kind >>= f) (expect kind >>= h) := by
  rcases w.first stands with like | ⟨lenient, none⟩
  · have steps : ∀ k : Token → Parse β, Parser.expect kind >>= k = Parser.peek 0 >>= fun t =>
        (if t.kind = kind then Parser.advance else Parser.refuse t (.expected kind)) >>= k :=
      fun _ => rfl
    rw [steps, steps]
    refine .peek ?_
    by_cases found : (Cursor.peek c 0).kind = kind
    · rw [if_pos found, if_pos (w.kind like ▸ found)]
      exact .advance stands (Cursor.tokens_ne_nil (found ▸ real)) next
    · rw [if_neg found, if_neg (w.kind like ▸ found)]
      exact refuse (.inl like) _
  · exact of_fails lenient (fails_expect real none f)

end Tokens

section Looks

variable {kind : Kind} {f h : Bool → Parse β}

/-- A look whose outcome is the same for both parsers. -/
theorem look {x : Parse Bool} {seen : Bool} (reads : x c = .ok (seen, c))
    (reads' : x c' = .ok (seen, c'))
    (yes : seen = true → w.Agrees i loose c c' took Q (f true) (h true))
    (no : seen = false → w.Agrees i loose c c' took Q (f false) (h false)) :
    w.Agrees i loose c c' took Q (x >>= f) (x >>= h) := by
  unfold Agrees
  rw [bind_of_ok reads, bind_of_ok reads']
  cases seen with
  | true => exact yes rfl
  | false => exact no rfl

/-- A look for a token that is no ender. -/
theorem sees (stands : w.stands i n c c') (other : kind ∉ enders)
    (yes : c.tokens ≠ [] → w.Agrees i loose c c' took Q (f true) (h true))
    (no : (Cursor.peek c 0).kind ≠ kind → w.Agrees i loose c c' took Q (f false) (h false)) :
    w.Agrees i loose c c' took Q (sees kind >>= f) (sees kind >>= h) := by
  have same : (Cursor.peek c 0).kind = kind ↔ (Cursor.peek c' 0).kind = kind := by
    refine w.blind stands (P := (· = kind)) (fun e ender => ?_) (Nat.zero_le _)
    exact iff_of_false (fun same => other (same ▸ ender)) fun same => other (same ▸ by decide)
  have reads : Parser.sees kind c' = .ok ((Cursor.peek c 0).kind == kind, c') := by
    have seen : ((Cursor.peek c 0).kind == kind) = ((Cursor.peek c' 0).kind == kind) :=
      Bool.eq_iff_iff.mpr (by simpa using same)
    rw [seen]
    rfl
  refine look rfl reads (fun found => yes ?_) fun missed => no (beq_eq_false_iff_ne.mp missed)
  refine Cursor.tokens_ne_nil fun ends => other ?_
  rw [← beq_iff_eq.mp found, ends]
  decide

/-- A look for a closing bracket, without which a token is needed. -/
theorem sees_closing (stands : w.stands i n c c') (real : kind ≠ .endOfInput)
    (yes : c.tokens ≠ [] → w.Agrees i loose c c' took Q (f true) (h true))
    (needs : w.lenient → c.tokens = [] → Fails (f false) c)
    (no : w.Agrees i loose c c' took Q (f false) (h false)) :
    w.Agrees i loose c c' took Q (Parser.sees kind >>= f) (Parser.sees kind >>= h) := by
  rcases w.first stands with like | ⟨lenient, none⟩
  · have reads : Parser.sees kind c' = .ok ((Cursor.peek c 0).kind == kind, c') := by
      rw [w.kind like]
      rfl
    refine look rfl reads (fun found => yes ?_) fun _ => no
    exact Cursor.tokens_ne_nil (beq_iff_eq.mp found ▸ real)
  · have reads : Parser.sees kind c = .ok (false, c) := by
      have other : ((Cursor.peek c 0).kind == kind) = false := by
        rw [Cursor.peek_of_nil none]
        exact beq_eq_false_iff_ne.mpr real.symm
      rw [← other]
      rfl
    refine of_fails lenient fun r ran => needs lenient none r ?_
    rwa [bind_of_ok reads] at ran

/-- A look for a closing bracket, after which both ways are one. -/
theorem sees_closing_bind (stands : w.stands i n c c') (real : kind ≠ .endOfInput)
    {x x' y y' : Parse α} {f h : α → Parse β} (yes : w.Agrees i loose c c' idle P x x')
    (needs : w.lenient → c.tokens = [] → Fails y c) (no : w.Agrees i loose c c' idle P y y')
    (next : ∀ a b d d', w.stands i n d d' → P a b → w.Agrees i loose d d' took Q (f a) (h b)) :
    w.Agrees i loose c c' took Q
      (Parser.sees kind >>= fun seen => if seen = true then x >>= f else y >>= f)
      (Parser.sees kind >>= fun seen => if seen = true then x' >>= h else y' >>= h) :=
  sees_closing stands real (fun _ => .bind stands yes next)
    (fun lenient none => (needs lenient none).bind f) (.bind stands no next)

/-- A look for a token that is no ender, whose outcome is used in one way. -/
theorem sees_same (stands : w.stands i n c c') (other : kind ∉ enders)
    (next : ∀ seen, w.Agrees i loose c c' took Q (f seen) (h seen)) :
    w.Agrees i loose c c' took Q (Parser.sees kind >>= f) (Parser.sees kind >>= h) :=
  sees stands other (fun _ => next true) fun _ => next false

theorem seesKeyword {word : Text} (stands : w.stands i n c c')
    (yes : c.tokens ≠ [] → w.Agrees i loose c c' took Q (f true) (h true))
    (no : w.Agrees i loose c c' took Q (f false) (h false)) :
    w.Agrees i loose c c' took Q (seesKeyword word >>= f) (seesKeyword word >>= h) := by
  have reads : Parser.seesKeyword word c' = .ok (Parser.isKeyword (Cursor.peek c 0) word, c') := by
    rw [w.isKeyword stands]
    rfl
  exact look rfl reads (fun found => yes (Cursor.tokens_of_isKeyword found)) fun _ => no

theorem seesOperator {ops : List Kind} (stands : w.stands i n c c')
    (table : ∀ kind ∈ enders, kind ∉ ops)
    (yes : (Cursor.peek c 0).kind ∈ ops → c.tokens ≠ [] →
      w.Agrees i loose c c' took Q (f true) (h true))
    (no : w.Agrees i loose c c' took Q (f false) (h false)) :
    w.Agrees i loose c c' took Q (seesOperator ops >>= f) (seesOperator ops >>= h) := by
  have same := w.blind_two stands (P := (· ∈ ops)) (Q := (· ≠ .assign)) table (by decide)
  have reads : Parser.seesOperator ops c' =
      .ok (decide ((Cursor.peek c 0).kind ∈ ops) && (Cursor.peek c 1).kind != .assign, c') := by
    have seen : (decide ((Cursor.peek c 0).kind ∈ ops) && (Cursor.peek c 1).kind != .assign) =
        (decide ((Cursor.peek c' 0).kind ∈ ops) && (Cursor.peek c' 1).kind != .assign) :=
      Bool.eq_iff_iff.mpr (by simpa using same)
    rw [seen]
    rfl
  refine look rfl reads (fun found => ?_) fun _ => no
  rw [Bool.and_eq_true, decide_eq_true_eq] at found
  refine yes found.1 (Cursor.tokens_ne_nil fun ends => table _ ?_ found.1)
  rw [ends]
  decide

end Looks

theorem freshSite {f h : Nat → Parse β} (stands : w.stands i n c c')
    (next : ∀ d d', w.stands i n d d' → w.site c.site c'.site →
      w.Agrees i loose d d' took Q (f c.site) (h c'.site)) :
    w.Agrees i loose c c' took Q (freshSite >>= f) (freshSite >>= h) :=
  (next { c with site := c.site + 1 } { c' with site := c'.site + 1 } (w.fresh stands).2
    (w.fresh stands).1).widen List.suffix_rfl fun _ => .inl

/-! ## Rounds -/

section Rounds

variable {I : α → α → Prop} {round round' : α → Parse (Round α β)}
  (each : ∀ a b d d', w.stands i n d d' → I a b →
    w.Agrees i loose d d' (Round.taking idle) (Round.Pairs I Q) (round a) (round' b))
include each

/-- Every round but the last takes a token, so the tokens are enough for the rounds. -/
theorem rounds {bound bound' : Nat} (le : bound ≤ bound') (stands : w.stands i n c c')
    (enough : c.tokens.length < bound) {a b : α} (holds : I a b) :
    w.Agrees i loose c c' idle Q (rounds round bound a) (rounds round' bound' b) := by
  induction bound generalizing bound' c c' a b with
  | zero => cases enough
  | succ bound ih =>
      obtain ⟨more, rfl⟩ := Nat.exists_eq_add_of_le le
      rw [Nat.add_right_comm]
      refine bind_via (each a b c c' stands holds) (fun _ _ _ _ _ => .inr)
        (fun _ _ _ _ _ => tokens_of_suffix) fun r r' m d d' there suffix taken pairs => ?_
      cases r <;> cases r'
      case again.again next next' =>
        have fewer : d.tokens.length < c.tokens.length := taken trivial
        exact ih (Nat.le_add_right _ _) (w.later stands there suffix) (by omega) pairs
      case done.done => exact .pure there pairs id
      all_goals exact pairs.elim

/-- Rounds of which the first may take a token in any case. -/
theorem repeated_from {a b : α} (stands : w.stands i n c c')
    (first : w.Agrees i loose c c' (Round.taking took) (Round.Pairs I Q) (round a) (round' b)) :
    w.Agrees i loose c c' took Q (repeated a round) (repeated b round') := by
  have run : Parser.repeated a round c = Parser.rounds round (c.tokens.length + 1) a c := rfl
  have run' : Parser.repeated b round' c' = Parser.rounds round' (c'.tokens.length + 1) b c' := rfl
  have whole : w.Agrees i loose c c' took Q (Parser.rounds round (c.tokens.length + 1) a)
      (Parser.rounds round' (c'.tokens.length + 1) b) := by
    refine bind_via (S := idle) first (fun r b d e ran took => ?_)
      (fun _ _ _ _ _ => tokens_of_suffix)
      fun r r' m d d' there suffix taken pairs => ?_
    · cases r with
      | again next => exact .inl trivial
      | done result =>
          cases ran
          exact .inl took
    · cases r <;> cases r'
      case again.again next next' =>
        exact .rounds each (w.count stands) (w.later stands there suffix) (taken trivial) pairs
      case done.done => exact .pure there pairs id
      all_goals exact pairs.elim
  unfold Agrees at whole ⊢
  rw [run, run']
  exact whole

theorem repeated {a b : α} (stands : w.stands i n c c') (holds : I a b) :
    w.Agrees i loose c c' idle Q (repeated a round) (repeated b round') :=
  repeated_from each stands (each a b c c' stands holds)

end Rounds

end Walk.Agrees

end Parser

end EplLang
