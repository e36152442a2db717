import EplLang.Proofs.Printing

/-!
# Lines of tokens

Newline tokens and the lines of tokens are there for messages and for markers. The one
place where the grammar looks at a line is after `return`: what follows on the same line
is the value that it gives. `Token.reflow` keeps of a list of tokens what is left then:
the tokens that are no newlines, also inside the segments of strings, and of their lines
only whether a `return` has the next token on its line.

Two parsers that stand before lists with the same reflow do the same: both give programs that
are the same but for lines and markers, or both refuse a token for the same cause
(`lines_carry_no_syntax`). This is a walk along the grammar (`Walk.twins`).

Lists with the same reflow have one size, the number of tokens in the reflow with those
in segments. Twins of size less than `n` (`Cursor.Twin`) are what the rules with a
nesting of `n` levels are read from; after a token is taken, one level less is enough. So
neither parser runs out of rounds or of levels of the grammar.
-/

set_option autoImplicit false

namespace EplLang

namespace Token

/-- Whether the next token that is no newline stands on the line of a token. -/
def joined (t : Token) (rest : List Token) : Bool :=
  (rest.find? (·.kind ≠ .newline)).any (·.line == t.line)

mutual

/-- A token without its line. One that is `return` is still marked if the next token
stands on its line. -/
def unlined (joined : Bool) : Token → Token
  | ⟨kind, _, text, parts⟩ =>
    { kind, line := if kind = .keyword ∧ text = "return" ∧ joined then 1 else 0, text,
      parts := reflowParts parts }

/-- The segments of a string without their lines. -/
def reflowParts : List (Nat × List Token) → List (Nat × List Token)
  | [] => []
  | (offset, tokens) :: rest => (offset, reflow tokens) :: reflowParts rest

/-- Tokens without newlines and without their lines. -/
def reflow : List Token → List Token
  | [] => []
  | t :: rest => if t.kind = .newline then reflow rest else t.unlined (t.joined rest) :: reflow rest

end

/-- Tokens that differ in their lines only. -/
structure Alike (t t' : Token) : Prop where
  kind : t.kind = t'.kind
  text : t.text = t'.text
  parts : reflowParts t.parts = reflowParts t'.parts

namespace Alike

variable {t t' : Token}

theorem spelling (alike : t.Alike t') : t.spelling = t'.spelling := by
  unfold Token.spelling
  rw [alike.kind, alike.text]

end Alike

theorem alike_of_unlined {t t' : Token} {joined joined' : Bool}
    (same : t.unlined joined = t'.unlined joined') : t.Alike t' := by
  obtain ⟨kind, line, text, parts⟩ := t
  obtain ⟨kind', line', text', parts'⟩ := t'
  simp only [unlined, mk.injEq] at same
  exact ⟨same.1, same.2.2.1, same.2.2.2⟩

/-- The line of a `return` without its line is whether the next token stands on it. -/
theorem joined_of_unlined {t t' : Token} {joined joined' : Bool}
    (same : t.unlined joined = t'.unlined joined')
    (returns : Parser.isKeyword t "return" = true) : joined = joined' := by
  obtain ⟨kind, line, text, parts⟩ := t
  obtain ⟨kind', line', text', parts'⟩ := t'
  simp only [Parser.isKeyword, Bool.and_eq_true, beq_iff_eq] at returns
  obtain ⟨rfl, rfl⟩ := returns
  simp only [unlined, mk.injEq] at same
  obtain ⟨rfl, lines, rfl, _⟩ := same
  cases joined <;> cases joined' <;> simp_all

/-! ## Lists of tokens -/

open Style (Inline inline_nil inline_cons)

theorem reflow_cons {t : Token} {rest : List Token} (real : t.kind ≠ .newline) :
    reflow (t :: rest) = t.unlined (t.joined rest) :: reflow rest := by
  rw [reflow, if_neg real]

theorem length_reflow {tokens : List Token} (inline : Inline tokens) :
    (reflow tokens).length = tokens.length := by
  induction tokens with
  | nil => rfl
  | cons t rest ih =>
      obtain ⟨real, inline⟩ := inline_cons.mp inline
      rw [reflow_cons real, List.length_cons, List.length_cons, ih inline]

theorem reflow_filter (tokens : List Token) :
    reflow (tokens.filter (·.kind ≠ .newline)) = reflow tokens := by
  induction tokens with
  | nil => rfl
  | cons t rest ih =>
      by_cases newline : t.kind = .newline
      · rw [List.filter_cons_of_neg (by simpa using newline), ih, reflow, if_pos newline]
      · rw [List.filter_cons_of_pos (by simpa using newline), reflow_cons newline, ih,
          reflow_cons newline]
        simp [joined, List.find?_filter]

/-- Lists without newlines and with the same reflow have the same first token, but for its
line, and the same reflow after it. -/
theorem cons_of_reflow {t : Token} {rest tokens : List Token} (inline : Inline (t :: rest))
    (inline' : Inline tokens) (same : reflow (t :: rest) = reflow tokens) :
    ∃ t' rest', tokens = t' :: rest' ∧ t.unlined (t.joined rest) = t'.unlined (t'.joined rest') ∧
      reflow rest = reflow rest' := by
  rw [reflow_cons (inline_cons.mp inline).1] at same
  cases tokens with
  | nil => cases same
  | cons t' rest' =>
      rw [reflow_cons (inline_cons.mp inline').1] at same
      injection same with first rest
      exact ⟨t', rest', rfl, first, rest⟩

theorem alike_of_reflow {tokens tokens' : List Token} (inline : Inline tokens)
    (inline' : Inline tokens') (same : reflow tokens = reflow tokens') :
    List.Forall₂ Alike tokens tokens' := by
  induction tokens generalizing tokens' with
  | nil =>
      have none : tokens'.length = 0 := by
        rw [← length_reflow inline', ← same]
        rfl
      rw [List.length_eq_zero_iff.mp none]
      exact .nil
  | cons t rest ih =>
      obtain ⟨t', rest', rfl, first, others⟩ := cons_of_reflow inline inline' same
      exact .cons (alike_of_unlined first)
        (ih (inline_cons.mp inline).2 (inline_cons.mp inline').2 others)

end Token

/-! ## Programs but for their lines -/

namespace Node

theorem head_bare (n : Node) : n.bare.head = n.head := by
  cases n <;> simp [bare, head]

theorem bareAll_congr {all all' : List Node}
    (same : List.Forall₂ (fun n n' => n.bare = n'.bare) all all') : bareAll all = bareAll all' := by
  induction same with
  | nil => rfl
  | cons first _ ih => simp only [bareAll, first, ih]

theorem bareEntries_congr {free : Prop} {entries entries' : List (Scalar × Option Node)}
    (same : List.Forall₂ (EntryPair free fun n n' => n.bare = n'.bare) entries entries') :
    bareEntries entries = bareEntries entries' := by
  induction same with
  | nil => rfl
  | @cons entry entry' _ _ first _ ih =>
      obtain ⟨k, value⟩ := entry
      obtain ⟨k', value'⟩ := entry'
      obtain ⟨rfl, values, _⟩ := first
      cases values with
      | none => simp only [bareEntries, ih]
      | some like => simp only [bareEntries, like, ih]

theorem bareElifs_congr {elifs elifs' : List (Node × Block)}
    (same : List.Forall₂ (fun elif elif' => elif.1.bare = elif'.1.bare ∧
      bareBlock elif.2 = bareBlock elif'.2) elifs elifs') : bareElifs elifs = bareElifs elifs' := by
  induction same with
  | nil => rfl
  | cons first _ ih => simp only [bareElifs, first.1, first.2, ih]

/-- A statement after others, with a marker before it or without. -/
theorem bareBlock_more {body body' : Block} {n n' : Node} (same : bareBlock body = bareBlock body')
    (like : n.bare = n'.bare) (line line' last last' : Int) :
    bareBlock (body ++ (if line = last then [] else [⟨line, .newLine⟩]) ++ [⟨line, n⟩]) =
      bareBlock (body' ++ (if line' = last' then [] else [⟨line', .newLine⟩]) ++
        [⟨line', n'⟩]) := by
  have unmarked (line last : Int) :
      bareBlock (if line = last then [] else [⟨line, .newLine⟩]) = [] := by
    split <;> rfl
  have marked : bareBlock [⟨line, n⟩] = bareBlock [⟨line', n'⟩] := by
    simp only [bareBlock, ← isMarker_bare n, ← isMarker_bare n', like]
  simp only [bareBlock_append, unmarked, same, marked]

end Node

/-- Nodes that are the same but for lines, markers and the numbers of function literals. -/
def Likeness.bare : Likeness where
  free := False
  line _ _ := True
  site _ _ := True
  expr n n' := n.bare = n'.bare
  stmt n n' := n.bare = n'.bare
  block body body' := Node.bareBlock body = Node.bareBlock body'
  noLine := trivial
  head {n n'} like := by rw [← n.head_bare, ← n'.head_bare, like]
  literal _ := rfl
  name _ := rfl
  call first rest := by simp only [Node.bare, first, Node.bareAll_congr rest]
  index first rest _ := by simp only [Node.bare, first, Node.bareAll_congr rest]
  function _ _ body := by simp only [Node.bare, body]
  container {items items'} _ same := by
    obtain ⟨entries⟩ := items
    obtain ⟨entries'⟩ := items'
    simp only [Node.bare, Node.bareEntries_congr same]
  length like := by simp only [Node.bare, like]
  unary _ like := by simp only [Node.bare, like]
  arithmetic _ left right := by simp only [Node.bare, left, right]
  condition _ left right := by simp only [Node.bare, left, right]
  bind _ value := by simp only [Node.bare, value]
  assign target value := by
    simp only [Node.bare, Node.index.injEq] at target
    simp only [Node.bare, target.1, target.2, value]
  calling like := like
  give value := by simp only [Node.bare, value]
  leave := rfl
  load path := by simp only [Node.bare, path]
  branch test body more last := by
    cases last with
    | none => simp only [Node.bare, test, body, Node.bareElifs_congr more]
    | some last => simp only [Node.bare, Node.bareLast, test, body, Node.bareElifs_congr more, last]
  loop test body := by simp only [Node.bare, test, body]
  range _ first last body := by simp only [Node.bare, first, last, body]
  each _ collection body := by simp only [Node.bare, collection, body]
  nil := rfl
  single _ value := by simp [Node.bareBlock, Node.isMarker, Node.bare, value]
  more same _ _ like := Node.bareBlock_more same like ..

namespace Parser

open Style (Inline inline_nil inline_cons)
open Token (reflow reflowParts Alike)

/-! ## Sizes -/

theorem weight_unlined (joined : Bool) (t : Token) :
    weight (t.unlined joined) = 1 + partsWeight (reflowParts t.parts) := by
  obtain ⟨kind, line, text, parts⟩ := t
  rfl

mutual

theorem weight_unlined_le (joined : Bool) : ∀ t : Token, weight (t.unlined joined) ≤ weight t
  | ⟨_, _, _, parts⟩ => by
      simp only [Token.unlined, weight]
      exact Nat.add_le_add_left (partsWeight_reflowParts_le parts) 1

theorem partsWeight_reflowParts_le : ∀ parts : List (Nat × List Token),
    partsWeight (reflowParts parts) ≤ partsWeight parts
  | [] => Nat.le_refl _
  | (_, tokens) :: rest => by
      simp only [reflowParts, partsWeight]
      exact Nat.add_le_add (tokensWeight_reflow_le tokens) (partsWeight_reflowParts_le rest)

theorem tokensWeight_reflow_le : ∀ tokens : List Token,
    tokensWeight (reflow tokens) ≤ tokensWeight tokens
  | [] => Nat.le_refl _
  | t :: rest => by
      have later := tokensWeight_reflow_le rest
      simp only [reflow]
      split
      · exact Nat.le_trans later (Nat.le_add_left ..)
      · exact Nat.add_le_add (weight_unlined_le _ t) later

end

theorem tokensWeight_suffix {before after : List Token} (suffix : after <:+ before) :
    tokensWeight (reflow after) ≤ tokensWeight (reflow before) := by
  obtain ⟨taken, rfl⟩ := suffix
  induction taken with
  | nil => exact Nat.le_refl _
  | cons t taken ih =>
      rw [List.cons_append, reflow]
      split
      · exact ih
      · exact Nat.le_trans ih (Nat.le_add_left ..)

theorem tokensWeight_tail {tokens : List Token} (inline : Inline tokens) (some : tokens ≠ []) :
    tokensWeight (reflow tokens.tail) < tokensWeight (reflow tokens) := by
  cases tokens with
  | nil => exact absurd rfl some
  | cons t rest =>
      rw [Token.reflow_cons (inline_cons.mp inline).1, tokensWeight, weight_unlined, List.tail_cons]
      omega

/-- A suffix that is shorter is lighter. -/
theorem tokensWeight_shorter {before after : List Token} (inline : Inline before)
    (suffix : after <:+ before) (shorter : after.length < before.length) :
    tokensWeight (reflow after) < tokensWeight (reflow before) := by
  cases before with
  | nil => cases shorter
  | cons t rest =>
      have later : after <:+ rest := by
        rcases List.suffix_cons_iff.mp suffix with rfl | later
        · exact absurd shorter (Nat.lt_irrefl _)
        · exact later
      exact Nat.lt_of_le_of_lt (tokensWeight_suffix later) (tokensWeight_tail inline (by simp))

/-! ## Pairs of cursors -/

/-- Cursors before lists without newlines that have the same reflow. -/
structure Cursor.Paired (c c' : Cursor) : Prop where
  inline : Inline c.tokens
  inline' : Inline c'.tokens
  same : reflow c.tokens = reflow c'.tokens

/-- A pair of cursors before lists of a size less than `n`. -/
structure Cursor.Twin (n : Nat) (c c' : Cursor) : Prop extends Cursor.Paired c c' where
  small : tokensWeight (reflow c.tokens) < n

namespace Cursor

variable {n : Nat} {c c' d d' : Cursor}

theorem Paired.length (paired : Paired c c') : c.tokens.length = c'.tokens.length := by
  rw [← Token.length_reflow paired.inline, paired.same, Token.length_reflow paired.inline']

/-- Tokens at the same place differ in their lines only. -/
theorem Paired.peek (paired : Paired c c') (n : Nat) : (peek c n).Alike (peek c' n) := by
  have alike := Token.alike_of_reflow paired.inline paired.inline' paired.same
  unfold Cursor.peek
  generalize c.tokens = tokens at alike
  generalize c'.tokens = tokens' at alike
  induction alike generalizing n with
  | nil => exact ⟨rfl, rfl, rfl⟩
  | cons first _ ih =>
      cases n with
      | zero => exact first
      | succ n => simpa using ih n

theorem Paired.next (paired : Paired c c') : Paired (next c) (next c') := by
  obtain ⟨inline, inline', same⟩ := paired
  refine ⟨fun t member => inline t (List.mem_of_mem_tail member),
    fun t member => inline' t (List.mem_of_mem_tail member), ?_⟩
  unfold Cursor.next
  dsimp only
  cases tokens : c.tokens with
  | nil =>
      rw [tokens] at same
      have none := congrArg List.length same
      rw [Token.length_reflow inline'] at none
      rw [List.length_eq_zero_iff.mp none.symm]
  | cons t rest =>
      rw [tokens] at inline same
      obtain ⟨t', rest', tokens', _, others⟩ := Token.cons_of_reflow inline inline' same
      rw [tokens']
      exact others

/-- After `return` the next token stands on the same line in both lists or in none. -/
theorem Paired.return_line (paired : Paired c c')
    (returns : isKeyword (Cursor.peek c 0) "return" = true)
    (real : (Cursor.peek c 1).kind ≠ .endOfInput) :
    (Cursor.peek c 1).line = (Cursor.peek c 0).line ↔
      (Cursor.peek c' 1).line = (Cursor.peek c' 0).line := by
  obtain ⟨inline, inline', same⟩ := paired
  unfold Cursor.peek at *
  match tokens : c.tokens with
  | [] => simp [tokens] at real
  | [t] => simp [tokens] at real
  | t :: next :: rest =>
      rw [tokens] at inline same returns
      obtain ⟨t', rest', tokens', first, others⟩ := Token.cons_of_reflow inline inline' same
      rw [tokens'] at inline'
      obtain ⟨next', rest', rfl, _⟩ := Token.cons_of_reflow (inline_cons.mp inline).2
        (inline_cons.mp inline').2 others
      have joined := Token.joined_of_unlined first returns
      simp only [inline_cons] at inline inline'
      simp only [tokens', List.getElem?_cons_succ, List.getElem?_cons_zero, Option.getD_some]
      simpa [Token.joined, inline.2.1, inline'.2.1] using joined

namespace Twin

theorem up (twin : Twin n c c') : Twin (n + 1) c c' := ⟨twin.toPaired, Nat.lt_succ_of_lt twin.small⟩

/-- No token is needed to stay in size. -/
theorem of_suffix (twin : Twin n c c') (paired : Paired d d') (suffix : d.tokens <:+ c.tokens) :
    Twin n d d' := ⟨paired, Nat.lt_of_le_of_lt (tokensWeight_suffix suffix) twin.small⟩

/-- The segments of the next token are smaller than what starts with it. -/
theorem segments (twin : Twin (n + 1) c c') (some : c.tokens ≠ []) :
    partsWeight (reflowParts (peek c 0).parts) < n := by
  obtain ⟨t, rest, tokens⟩ := List.exists_cons_of_ne_nil some
  have first : (peek c 0) = t := by simp [Cursor.peek, tokens]
  have small := twin.small
  have inline := twin.inline
  rw [tokens] at small inline
  rw [Token.reflow_cons (inline_cons.mp inline).1, tokensWeight, weight_unlined] at small
  rw [first]
  omega

/-- A token taken makes the size less. -/
theorem of_shorter (twin : Twin (n + 1) c c') (paired : Paired d d')
    (suffix : d.tokens <:+ c.tokens) (shorter : d.tokens.length < c.tokens.length) :
    Twin n d d' :=
  ⟨paired, Nat.lt_of_lt_of_le (tokensWeight_shorter twin.inline suffix shorter)
    (Nat.le_of_lt_succ twin.small)⟩

end Twin

end Cursor

/-- The starts of lists with the same reflow. -/
theorem start_paired (site site' : Nat) {tokens tokens' : List Token}
    (same : reflow tokens = reflow tokens') :
    Cursor.Paired (start site tokens) (start site' tokens') := by
  refine ⟨?_, ?_, ?_⟩
  · intro t member
    simpa using (List.mem_filter.mp member).2
  · intro t member
    simpa using (List.mem_filter.mp member).2
  · simp only [start]
    rw [Token.reflow_filter, Token.reflow_filter, same]

theorem tokensWeight_start (site : Nat) (tokens : List Token) :
    tokensWeight (reflow (start site tokens).tokens) = tokensWeight (reflow tokens) := by
  simp only [start]
  rw [Token.reflow_filter]

/-! ## Twins along the grammar -/

/-- Stops for the same cause, or both at a string whose segments have no place. -/
inductive Stop.Alike : Stop → Stop → Prop where
  | fault (line line' : Int) (cause : Cause) : Alike (.fault ⟨line, cause⟩) (.fault ⟨line', cause⟩)
  | misplaced : Alike .misplaced .misplaced

/-- The segments of twins, each smaller than what they are segments of. -/
theorem segments_of_reflowParts {n : Nat} {parts parts' : List (Nat × List Token)}
    (same : reflowParts parts = reflowParts parts') (small : partsWeight (reflowParts parts) < n) :
    List.Forall₂ (fun part part' => part.1 = part'.1 ∧ reflow part.2 = reflow part'.2 ∧
      tokensWeight (reflow part.2) < n) parts parts' := by
  induction parts generalizing parts' with
  | nil =>
      cases parts' with
      | nil => exact .nil
      | cons part' rest' => cases same
  | cons part rest ih =>
      cases parts' with
      | nil => cases same
      | cons part' rest' =>
          obtain ⟨offset, tokens⟩ := part
          obtain ⟨offset', tokens'⟩ := part'
          simp only [reflowParts, List.cons.injEq, Prod.mk.injEq] at same
          simp only [reflowParts, partsWeight] at small
          have first : tokensWeight (reflow tokens) < n := by omega
          exact .cons ⟨same.1.1, same.1.2, first⟩ (ih same.2 (by omega))

/-- Parsers before lists with the same reflow. -/
def Walk.twins : Walk Unit where
  toLikeness := .bare
  lenient := False
  stands _ := Cursor.Twin
  token _ := Alike
  segment _ n tokens tokens' := reflow tokens = reflow tokens' ∧ tokensWeight (reflow tokens) < n
  stop _ := Stop.Alike
  strict := False.elim
  up := Cursor.Twin.up
  later twin there suffix := twin.of_suffix there.toPaired suffix
  shorter twin there suffix fewer := twin.of_shorter there.toPaired suffix fewer
  next twin here := twin.of_shorter twin.toPaired.next (List.tail_suffix _)
    (Cursor.length_next (here.resolve_right id))
  fresh twin := ⟨trivial, ⟨twin.inline, twin.inline', twin.same⟩, twin.small⟩
  count twin := twin.length.le
  ahead twin _ := .inl (twin.peek _)
  kind := Alike.kind
  text := Alike.text
  placed _ := .inr .misplaced
  lines _ := trivial
  refused complaint alike := by
    unfold Token.illegal
    rw [alike.kind, alike.spelling]
    exact .fault _ _ _
  returns twin returns real := twin.return_line (returns.resolve_right id) real
  parts {_ _ c c'} twin alike := by
    by_cases none : c.tokens = []
    · have empty : (Cursor.peek c 0).parts = [] := by simp [Cursor.peek, none]
      have same := alike.parts
      rw [empty] at same ⊢
      cases others : (Cursor.peek c' 0).parts with
      | nil => exact .nil
      | cons part rest =>
          rw [others] at same
          cases same
    · exact segments_of_reflowParts alike.parts (twin.segments none)
  enter {_ _ c c' _ _} twin inside := by
    refine ⟨(), ⟨start_paired _ _ inside.1, ?_⟩, fun _ _ => id, fun _ d d' there => ⟨?_, ?_⟩⟩
    · rw [tokensWeight_start]
      exact inside.2
    · rw [(there.peek 0).kind]
      exact id
    · exact ⟨⟨twin.inline, twin.inline', twin.same⟩, twin.small⟩

theorem grammar_twins (n : Nat) {depth depth' : Nat} (deep : n ≤ depth) (deep' : n ≤ depth') :
    Grammar.Walks .twins n (grammar depth) (grammar depth') := by
  have nothing {α : Type} {loose : Prop} {took : α → Prop} {R : α → α → Prop} {x y : Parse α}
      {i : Unit} {c c' : Cursor} (twin : Cursor.Twin 0 c c') :
      Walk.twins.Agrees i loose c c' took R x y := absurd twin.small (Nat.not_lt_zero _)
  obtain ⟨more, rfl⟩ := Nat.exists_eq_add_of_le' deep
  obtain ⟨more', rfl⟩ := Nat.exists_eq_add_of_le' deep'
  exact grammar_walks ⟨nothing, nothing, nothing, False.elim⟩ n

theorem start_twin (site site' : Nat) {tokens tokens' : List Token}
    (same : reflow tokens = reflow tokens') :
    Cursor.Twin (tokensWeight (reflow tokens) + 1) (start site tokens) (start site' tokens') := by
  refine ⟨start_paired site site' same, ?_⟩
  rw [tokensWeight_start]
  exact Nat.lt_succ_self _

/-- As many levels of the grammar as there are tokens, those in segments included, are
enough. -/
theorem program_ne_outOfFuel {depth : Nat} (site : Nat) {tokens : List Token}
    (deep : tokensWeight tokens < depth) :
    program (grammar depth) (start site tokens) ≠ .error .outOfFuel := by
  have enough := Nat.lt_of_le_of_lt (tokensWeight_reflow_le tokens) deep
  have outcome := program_agrees (grammar_twins _ enough enough) (i := ())
    (start_twin site site rfl)
  intro short
  unfold Walk.Agrees at outcome
  rw [short] at outcome
  cases outcome with
  | stop alike => cases alike
  | excused lenient => exact lenient

end Parser

/-- **Lines carry no syntax but after `return`.** Two lists of tokens that are the same
without newlines and lines, with the next token after each `return` on its line in both or
in none, are both programs, the same but for lines and markers, or are both refused for
the same cause, or both have strings whose segments have no place in them. -/
theorem lines_carry_no_syntax {tokens tokens' : List Token}
    (same : Token.reflow tokens = Token.reflow tokens') :
    (∃ body body', parse tokens = .ok body ∧ parse tokens' = .ok body' ∧
      Node.bareBlock body = Node.bareBlock body') ∨
    (∃ line line' cause, parse tokens = .error (.fault ⟨line, cause⟩) ∧
      parse tokens' = .error (.fault ⟨line', cause⟩)) ∨
    parse tokens = .error .misplaced ∧ parse tokens' = .error .misplaced ∧
      ∃ t, Parser.Cursor.InSight (Parser.start 0 tokens) t ∧ ¬t.Placed := by
  have deep := Parser.tokensWeight_reflow_le tokens
  have deep' := Parser.tokensWeight_reflow_le tokens'
  rw [← same] at deep'
  -- The size of the two lists is that of their reflow, and both grammars go as deep.
  have walks := Parser.grammar_twins (Parser.tokensWeight (Token.reflow tokens) + 1)
    (Nat.add_le_add_right deep 1) (Nat.add_le_add_right deep' 1)
  have outcome := Parser.program_agrees walks (i := ()) (Parser.start_twin 0 0 same)
  have bad := @Parser.exists_of_misplaced tokens
  unfold Parser.Walk.Agrees at outcome
  unfold parse Parser.parseFrom at bad ⊢
  generalize Parser.program _ (Parser.start 0 tokens) = r at outcome bad ⊢
  generalize Parser.program _ (Parser.start 0 tokens') = r' at outcome ⊢
  cases outcome with
  | ok bodies _ _ _ gives =>
      cases gives False.elim
      exact .inl ⟨_, _, rfl, rfl, bodies⟩
  | stop alike =>
      cases alike with
      | fault line line' cause => exact .inr (.inl ⟨line, line', cause, rfl, rfl⟩)
      | misplaced => exact .inr (.inr ⟨rfl, rfl, bad rfl⟩)
  | excused lenient => exact lenient.elim

/-- A call with a string over several lines and a `return` below it, and the same on one
line. -/
theorem lines_carry_no_syntax_string :
    let mark (line : Int) (kind : Kind) : Token := { kind, line }
    let name (line : Int) (text : Text) : Token := { kind := .identifier, line, text }
    let string (line : Int) (inner : List Token) : Token :=
      { kind := .interpolated, line, text := "v ", parts := [(2, inner)] }
    let back (line : Int) : Token := { kind := .keyword, line, text := "return" }
    let spread := [name 1 "f", mark 1 .openParen, mark 1 .newline,
      string 2 [name 1 "a", mark 1 .newline, mark 2 .plus, name 2 "b"], mark 2 .newline,
      mark 3 .closeParen, mark 3 .newline, back 4, name 4 "x", mark 4 .newline]
    let inline := [name 1 "f", mark 1 .openParen, string 1 [name 1 "a", mark 1 .plus, name 1 "b"],
      mark 1 .closeParen, back 1, name 1 "x"]
    Token.reflow spread = Token.reflow inline ∧
    ((∃ body body', parse spread = .ok body ∧ parse inline = .ok body' ∧
      Node.bareBlock body = Node.bareBlock body') ∨
    (∃ line line' cause, parse spread = .error (.fault ⟨line, cause⟩) ∧
      parse inline = .error (.fault ⟨line', cause⟩)) ∨
    parse spread = .error .misplaced ∧ parse inline = .error .misplaced ∧
      ∃ t, Parser.Cursor.InSight (Parser.start 0 spread) t ∧ ¬t.Placed) :=
  ⟨rfl, lines_carry_no_syntax rfl⟩

end EplLang
