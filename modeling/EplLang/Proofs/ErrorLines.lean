import EplLang.Proofs.Numbering
import EplLang.Proofs.Lines

/-!
# Where syntax errors point

A program is read by whole statements, up to its end or to a statement that is not read
(`block_readTo`). Everything that is refused there is in sight of the first token of that
statement. As lines never go down, its line is at least the line of that token, and at most the
line of the end of the input; only what is refused in a segment of a string can be elsewhere
(`syntax_error_line`).

A segment without tokens has its end on the first line, wherever the string stands
(`syntax_error_line_empty_segment`).
-/

set_option autoImplicit false

namespace EplLang

namespace Parser

/-! ## Statements one after another -/

/-- The classes of tokens before which a block ends. -/
abbrev EndsBlock (kind : Kind) : Prop := kind = .closeBrace ∨ kind = .endOfInput

/-- Whole statements, one after another, lead from the cursor `b` to another one. -/
inductive Statements (g : Grammar) (b : Cursor) : Cursor → Prop where
  | none : Statements g b b
  | more {c d : Cursor} {node : Node} : Statements g b c → ¬EndsBlock (Cursor.peek c 0).kind →
      statement g c = .ok (node, d) → Statements g b d

theorem Statements.later {n : Nat} {g : Grammar} (walks : Grammar.Walks (.itself True) n g g)
    {b c : Cursor} (statements : Statements g b c) : Cursor.Later b c := by
  induction statements with
  | none => exact .refl b
  | @more c d node _ _ ran ih => exact ((statement_agrees walks ⟨rfl, ih⟩).itself_ok ran).2.1

section Blocks

variable {g : Grammar} {b : Cursor} {α β : Type}

/-- What a list of statements that starts at `b` comes to: whole statements up to where a block
ends, or up to one that is not read. -/
def ReadTo (g : Grammar) (b : Cursor) : Except Stop (β × Cursor) → Prop
  | .ok (_, d) => Statements g b d ∧ EndsBlock (Cursor.peek d 0).kind
  | .error e => e = .outOfFuel ∨
      ∃ d, Statements g b d ∧ ¬EndsBlock (Cursor.peek d 0).kind ∧ statement g d = .error e

/-- Rounds that read a statement each, up to where a block ends. -/
theorem rounds_statements {round : α → Parse (Round α β)}
    (each : ∀ state c, ∃ (result : β) (next : Node → α), round state c =
      if EndsBlock (Cursor.peek c 0).kind then .ok (.done result, c)
      else statement g c >>= fun pair => .ok (.again (next pair.1), pair.2))
    (bound : Nat) (state : α) {c : Cursor} (before : Statements g b c) :
    ReadTo g b (rounds round bound state c) := by
  induction bound generalizing state c with
  | zero => exact .inl rfl
  | succ bound ih =>
    obtain ⟨result, next, round_eq⟩ := each state c
    rw [rounds_succ, round_eq]
    by_cases ends : EndsBlock (Cursor.peek c 0).kind
    · rw [if_pos ends]
      exact ⟨before, ends⟩
    rw [if_neg ends]
    cases ran : statement g c with
    | error e => exact .inr ⟨c, before, ends, ran⟩
    | ok pair => exact ih (next pair.1) (before.more ends ran)

theorem repeated_run (state : α) (round : α → Parse (Round α β)) (c : Cursor) :
    repeated state round c = rounds round (c.tokens.length + 1) state c := rfl

theorem block_readTo (g : Grammar) (b : Cursor) : ReadTo g b (block g b) := by
  unfold block
  rw [repeated_run]
  refine rounds_statements ?_ _ _ .none
  rintro ⟨statements, last⟩ c
  refine ⟨statements, fun node => (statements ++ (if (Cursor.peek c 0).line = last then [] else
    [⟨(Cursor.peek c 0).line, .newLine⟩]) ++ [⟨(Cursor.peek c 0).line, node⟩],
    (Cursor.peek c 0).line), ?_⟩
  dsimp only
  rw [blockRound, peek_run]
  by_cases ends : EndsBlock (Cursor.peek c 0).kind
  · rw [if_pos ends, if_pos ends]
    rfl
  · rw [if_neg ends, if_neg ends]
    rfl

end Blocks

/-- The end of the statements that a program is refused at: a statement that is not read, or a
closing brace that belongs to no block. -/
def RefusedAt (g : Grammar) (c : Cursor) (e : Stop) : Prop :=
  ¬EndsBlock (Cursor.peek c 0).kind ∧ statement g c = .error e ∨
    (Cursor.peek c 0).kind = .closeBrace ∧ e = (Cursor.peek c 0).illegal .closingBracket

namespace RefusedAt

variable {g : Grammar} {c : Cursor} {e : Stop}

theorem tokens_ne_nil (refused : RefusedAt g c e) : c.tokens ≠ [] := by
  apply Cursor.tokens_ne_nil
  intro ending
  rcases refused with ⟨goes, -⟩ | ⟨brace, -⟩
  · exact goes (.inr ending)
  · rw [ending] at brace
    cases brace

theorem refusal {n : Nat} (refused : RefusedAt g c e)
    (walks : Grammar.Walks (.itself True) n g g) : Refusal c e := by
  rcases refused with ⟨-, stops⟩ | ⟨-, rfl⟩
  · exact (statement_agrees walks ⟨rfl, .refl c⟩).itself_error stops trivial
  · exact .illegal _ (.ahead ((Cursor.Later.refl c).peek 0))

end RefusedAt

theorem program_refused {depth : Nat} {b : Cursor} {e : Stop}
    (refused : program (grammar (depth + 1)) b = .error e) :
    e = .outOfFuel ∨ ∃ c, Statements (grammar depth) b c ∧ RefusedAt (grammar depth) c e := by
  have outcome := block_readTo (grammar depth) b
  have steps : program (grammar (depth + 1)) b = (block (grammar depth) b >>= fun pair =>
      (do
        let t ← peek 0
        if t.kind ≠ .endOfInput then refuse t .closingBracket
        return pair.1 : Parse Block) pair.2) := rfl
  rw [steps] at refused
  cases ran : block (grammar depth) b with
  | error e' =>
    rw [ran] at outcome refused
    cases refused
    exact outcome.imp_right fun ⟨c, before, goes, stops⟩ => ⟨c, before, .inl ⟨goes, stops⟩⟩
  | ok pair =>
    rw [ran] at outcome refused
    obtain ⟨before, ends⟩ := outcome
    have stops : (peek 0 >>= fun t => do
        if t.kind ≠ .endOfInput then refuse t .closingBracket
        return pair.1 : Parse Block) pair.2 = .error e := refused
    right
    rcases ends with brace | ending
    · refine ⟨pair.2, before, .inr ⟨brace, ?_⟩⟩
      rw [peek_run, if_pos (by rw [brace]; decide)] at stops
      cases stops
      rfl
    · rw [peek_run, if_neg (not_not_intro ending)] at stops
      cases stops

/-- Tokens that are no program are refused, since the levels of the grammar are enough for them. -/
theorem parseFrom_refused {site : Nat} {tokens : List Token} {e : Stop}
    (refused : parseFrom site tokens = .error e) :
    e ≠ .outOfFuel ∧
      program (grammar (tokensWeight tokens + 1)) (start site tokens) = .error e := by
  have deep := program_ne_outOfFuel site (Nat.lt_succ_self (tokensWeight tokens))
  unfold parseFrom at refused
  cases ran : program (grammar (tokensWeight tokens + 1)) (start site tokens) with
  | ok pair =>
    rw [ran] at refused
    cases refused
  | error e' =>
    rw [ran] at deep refused
    cases refused
    exact ⟨fun short => deep (congrArg _ short), rfl⟩

/-! ## Lines of what is refused -/

section Lines

variable {source : Text} {tokens : List Token} {site : Nat} {c : Cursor} {t : Token}
  (later : Cursor.Later (start site tokens) c)
include later

theorem mem_of_later (member : t ∈ c.tokens) : t ∈ tokens :=
  (List.mem_filter.mp (later.suffix.subset member)).1

variable (lexed : lex source = .ok tokens)
include lexed

theorem endLine_of_later : c.endLine = Token.finalLine tokens :=
  later.endLine.trans (endLine_eq_finalLine (.of_tokensFrom lexed))

/-- The tokens that are left stand between the next one and the end of the input. -/
theorem line_of_mem (member : t ∈ c.tokens) :
    (Cursor.peek c 0).line ≤ t.line ∧ t.line ≤ Token.finalLine tokens := by
  have numbered : Lexer.Numbered 1 tokens := .of_tokensFrom lexed
  have sorted : c.tokens.Pairwise fun t u => t.line ≤ u.line :=
    numbered.sorted.sublist (later.suffix.sublist.trans List.filter_sublist)
  constructor
  · obtain ⟨first, rest, left⟩ := List.exists_cons_of_ne_nil (List.ne_nil_of_mem member)
    have here : Cursor.peek c 0 = first := by rw [Cursor.peek, left]; rfl
    rw [left] at sorted member
    rw [here]
    rcases List.mem_cons.mp member with rfl | behind
    · exact le_rfl
    · exact List.rel_of_pairwise_cons sorted behind
  · rw [finalLine_eq numbered]
    exact (numbered.bounds (mem_of_later later member)).2

/-- Tokens of a source are refused at one of them. -/
theorem Refusal.inSight {e : Stop} (refusal : Refusal c e) (fuel : e ≠ .outOfFuel) :
    ∃ t complaint, e = Token.illegal t complaint ∧ Cursor.InSight c t := by
  cases refusal with
  | illegal complaint seen => exact ⟨_, complaint, rfl, seen⟩
  | misplaced seen bad =>
    obtain ⟨placed, -⟩ := seen.wellPlaced fun u member =>
      lex_wellPlaced lexed u (mem_of_later later member)
    exact absurd placed bad
  | outOfFuel => exact absurd rfl fuel

/-- The lines of what is in sight: between the next token and the end of the input, or in a segment
of a string that stands there. Without a token, the end of a segment is on the first line. -/
theorem line_of_inSight (some : c.tokens ≠ []) (seen : Cursor.InSight c t) :
    Cursor.Ahead c t ∧ (Cursor.peek c 0).line ≤ t.line ∧ t.line ≤ Token.finalLine tokens ∨
      ∃ string ∈ c.tokens, ∃ part ∈ string.parts, Cursor.Ahead (start 0 part.2) t ∧
        (part.2 = [] ∧ t.line = 1 ∨
          string.line ≤ t.line ∧ t.line ≤ string.line + Lexer.breaks part.2) := by
  cases seen with
  | ahead ahead =>
    refine .inl ⟨ahead, ?_⟩
    rcases ahead with member | rfl
    · exact line_of_mem later lexed member
    · obtain ⟨first, rest, left⟩ := List.exists_cons_of_ne_nil some
      have here : Cursor.peek c 0 = first := by rw [Cursor.peek, left]; rfl
      have bounds := line_of_mem later lexed (left ▸ List.mem_cons_self : first ∈ c.tokens)
      rw [here]
      exact ⟨endLine_of_later later lexed ▸ bounds.2, (endLine_of_later later lexed).le⟩
  | @segment _ string _ part site member own inside =>
    obtain ⟨numbered, flat⟩ := lex_parts lexed (mem_of_later later member) own
    refine .inr ⟨string, member, part, own, ?_⟩
    cases inside with
    | segment _ inner nested =>
      rw [flat _ (List.mem_filter.mp inner).1] at nested
      cases nested
    | ahead ahead =>
      refine ⟨ahead, ?_⟩
      rcases ahead with inner | rfl
      · exact .inr (numbered.bounds (List.mem_filter.mp inner).1)
      · by_cases none : part.2 = []
        · exact .inl ⟨none, by rw [none]; rfl⟩
        · have least : 1 ≤ string.line :=
            (Lexer.Numbered.of_tokensFrom lexed).bounds (mem_of_later later member) |>.1
          have ending : endLine part.2 = _ := numbered.endLine_eq least none
          right
          change string.line ≤ endLine part.2 ∧ endLine part.2 ≤ _
          omega

end Lines

end Parser

/-- **Where syntax errors point.** Let a source have tokens, but be no program. Whole statements
lead from its start to the statement that is not read, or to a closing brace that belongs to no
block. What is refused is a token ahead there, or the end of the input, and then the line of the
fault is between the line of the first token of that statement and the line of the end of the input;
or it is a token in a segment of a string that stands between these lines, or the end of such a
segment. In a segment with tokens, the line of the fault is the line of the string or one of those
that the newlines in the segment add to it. In a segment without tokens it is `1`. -/
theorem syntax_error_line {source : Text} {tokens : List Token} (lexed : lex source = .ok tokens)
    {site : Nat} {e : Stop} (refused : Parser.parseFrom site tokens = .error e) :
    ∃ (c : Cursor) (t : Token) (f : Fault),
      Parser.Statements (Parser.grammar (Parser.tokensWeight tokens)) (Parser.start site tokens) c ∧
      Parser.RefusedAt (Parser.grammar (Parser.tokensWeight tokens)) c e ∧
      e = .fault f ∧ f.cause.faultClass = .syntactic ∧ f.line = t.line ∧
      let first := (Parser.Cursor.peek c 0).line
      let last := Token.finalLine tokens
      (Parser.Cursor.Ahead c t ∧ first ≤ f.line ∧ f.line ≤ last ∨
        ∃ string ∈ c.tokens, first ≤ string.line ∧ string.line ≤ last ∧
          ∃ part ∈ string.parts, Parser.Cursor.Ahead (Parser.start 0 part.2) t ∧
            (part.2 = [] ∧ f.line = 1 ∨
              string.line ≤ f.line ∧ f.line ≤ string.line + Lexer.breaks part.2)) := by
  obtain ⟨fuel, stopped⟩ := Parser.parseFrom_refused refused
  obtain ⟨c, statements, there⟩ := (Parser.program_refused stopped).resolve_left fuel
  have walks := Parser.grammar_itself True (Parser.tokensWeight tokens)
  have later := statements.later walks
  obtain ⟨t, complaint, rfl, seen⟩ := Parser.Refusal.inSight later lexed (there.refusal walks) fuel
  refine ⟨c, t, _, statements, there, rfl, rfl, rfl, ?_⟩
  refine (Parser.line_of_inSight later lexed there.tokens_ne_nil seen).imp_right ?_
  rintro ⟨string, member, segment⟩
  obtain ⟨least, most⟩ := Parser.line_of_mem later lexed member
  exact ⟨string, member, least, most, segment⟩

/-- A group that is not closed, on the second line of three: the statement before it is read, and
the fault is at the end of the input. -/
theorem syntax_error_line_open_group :
    let tokens : List Token := [{ kind := .keyword, line := 1, text := "break" },
      { kind := .newline, line := 1 }, { kind := .openParen, line := 2 },
      { kind := .identifier, line := 2, text := "a" }, { kind := .newline, line := 2 }]
    let e : Stop := .fault ⟨3, .illegalToken .endOfInput [] (.expected .closeParen)⟩
    lex "break\n(a\n" = .ok tokens ∧ Parser.parseFrom 0 tokens = .error e ∧
    ∃ c, Parser.Statements (Parser.grammar (Parser.tokensWeight tokens)) (Parser.start 0 tokens) c ∧
      Parser.RefusedAt (Parser.grammar (Parser.tokensWeight tokens)) c e ∧
      (Parser.Cursor.peek c 0).line ≤ 3 ∧ 3 ≤ Token.finalLine tokens := by
  intro tokens e
  have lexed : lex "break\n(a\n" = .ok tokens := by cbv
  have refused : Parser.parseFrom 0 tokens = .error e := rfl
  obtain ⟨c, t, f, statements, there, same, -, -, outside | ⟨string, member, -, -, part, own, -⟩⟩ :=
    syntax_error_line lexed refused
  · have three : f.line = 3 := congrArg Fault.line (Stop.fault.inj same).symm
    rw [three] at outside
    exact ⟨lexed, refused, c, statements, there, outside.2⟩
  · have here := Parser.mem_of_later (statements.later (Parser.grammar_itself True _)) member
    have flat : ∀ t ∈ tokens, t.parts = [] := by simp [tokens]
    rw [flat string here] at own
    cases own

/-- A segment without tokens in a string on the second line is refused on the first. -/
theorem syntax_error_line_empty_segment :
    ∃ tokens c f, lex "\n\"\x7b\x7d\"" = .ok tokens ∧
      Parser.parseFrom 0 tokens = .error (.fault f) ∧
      Parser.Statements (Parser.grammar (Parser.tokensWeight tokens)) (Parser.start 0 tokens) c ∧
      Parser.RefusedAt (Parser.grammar (Parser.tokensWeight tokens)) c (.fault f) ∧
      f.line = 1 ∧ (Parser.Cursor.peek c 0).line = 2 := by
  let newline : Token := { kind := .newline, line := 1 }
  let string : Token := { kind := .interpolated, line := 2, parts := [(0, [])] }
  have empty : Lexer.segmentTokens 2 [] = .ok [] := by cbv
  have body : Lexer.string Lexer.segmentTokens 2 none
      [Text.byte '{', Text.byte '}', Text.byte '"'] = .ok ⟨[], [(0, [])], []⟩ := by
    rw [Lexer.string_open, Lexer.string_close empty, Lexer.string_quote]
    rfl
  have quoted : Lexer.tokensFrom Lexer.segmentTokens 2 "\"\x7b\x7d\"" = .ok [string] := by
    refine (Lexer.tokensFrom_cons (Lexer.step_string body)).trans ?_
    rw [Lexer.tokensFrom]
    rfl
  have lexed : lex "\n\"\x7b\x7d\"" = .ok [newline, string] := by
    refine (Lexer.tokensFrom_cons (s := ⟨[newline], 2, "\"\x7b\x7d\""⟩) rfl).trans ?_
    rw [quoted]
    rfl
  refine ⟨[newline, string], Parser.start 0 [newline, string],
    ⟨1, .illegalToken .endOfInput [] .literalAtEnd⟩, lexed, ?_, .none, .inl ⟨by decide, ?_⟩, rfl,
    rfl⟩
  · rfl
  · rfl

end EplLang
