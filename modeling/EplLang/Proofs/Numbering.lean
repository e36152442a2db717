import EplLang.Proofs.Identifier
import EplLang.Proofs.LineByLine

/-!
# Lines of tokens

The lexer numbers tokens by line: every token stands on the current line, and a newline token ends
it (`Lexer.Numbered`). So lines never go down, and the line of the end of the input is found by
counting newline tokens. It is one more than the line of the last of them, or the line of the last
token if that is larger (`endLine_eq_finalLine`).

A segment of a string is a text of its own. Its tokens are numbered from the line of the string on,
and as there is no brace in it, none of them has segments again (`lex_parts`).
-/

set_option autoImplicit false

namespace EplLang

namespace Lexer

open Text (byte)

/-! ## Lines of tokens -/

/-- The number of newline tokens. -/
def breaks (tokens : List Token) : Nat := tokens.countP (·.kind = .newline)

theorem breaks_cons (line : Int) (t : Token) (rest : List Token) :
    line + breaks (t :: rest) = nextLine line t + breaks rest := by
  unfold breaks nextLine
  by_cases newline : t.kind = .newline
  · simp only [List.countP_cons, newline, decide_true, if_true]
    omega
  · simp [newline]

theorem le_nextLine (line : Int) (t : Token) : line ≤ nextLine line t := by
  unfold nextLine
  split_ifs <;> omega

/-- Every token stands on the current line, which only a newline token ends. -/
def Numbered : Int → List Token → Prop
  | _, [] => True
  | line, t :: rest => t.line = line ∧ Numbered (nextLine line t) rest

namespace Numbered

variable {line : Int} {tokens : List Token}

theorem of_spread {segment : Int → Text → Except Stop (List Token)} {line' : Int} {t rest : Text}
    {places : List Placed} (spread : Spread segment line t places line' rest) :
    Numbered line (places.map Placed.token) := by
  induction spread with
  | done => trivial
  | skip _ _ _ ih => exact ih
  | token stands _ ih => exact ⟨stands.onLine, ih⟩

theorem of_tokensFrom {segment : Int → Text → Except Stop (List Token)} {t : Text}
    (read : tokensFrom segment line t = .ok tokens) : Numbered line tokens := by
  obtain ⟨places, line', -, rfl, spread⟩ := spread_places read
  exact of_spread spread

theorem bounds (numbered : Numbered line tokens) {t : Token} (member : t ∈ tokens) :
    line ≤ t.line ∧ t.line ≤ line + breaks tokens := by
  induction tokens generalizing line with
  | nil => cases member
  | cons first rest ih =>
    obtain ⟨here, others⟩ := numbered
    have next := le_nextLine line first
    rw [breaks_cons]
    rcases List.mem_cons.mp member with rfl | later
    · omega
    · have := ih others later
      omega

theorem sorted (numbered : Numbered line tokens) :
    tokens.Pairwise fun t u => t.line ≤ u.line := by
  induction tokens generalizing line with
  | nil => exact .nil
  | cons first rest ih =>
    obtain ⟨here, others⟩ := numbered
    refine .cons (fun t member => ?_) (ih others)
    exact here.trans_le ((le_nextLine line first).trans (others.bounds member).1)

theorem append_singleton {t : Token} (numbered : Numbered line (tokens ++ [t])) :
    Numbered line tokens ∧ t.line = line + breaks tokens := by
  induction tokens generalizing line with
  | nil => exact ⟨trivial, numbered.1.trans (Int.add_zero line).symm⟩
  | cons first rest ih =>
    obtain ⟨here, others⟩ := numbered
    obtain ⟨before, last⟩ := ih others
    exact ⟨⟨here, before⟩, by rw [last, breaks_cons]⟩

theorem lt_of_newline (numbered : Numbered line tokens) {t : Token} (member : t ∈ tokens)
    (newline : t.kind = .newline) : t.line < line + breaks tokens := by
  induction tokens generalizing line with
  | nil => cases member
  | cons first rest ih =>
    obtain ⟨here, others⟩ := numbered
    rw [breaks_cons]
    rcases List.mem_cons.mp member with rfl | later
    · rw [nextLine, if_pos newline]
      omega
    · exact ih others later

/-- The line after the last newline, or a later one that a token stands on, is found by counting. -/
theorem endLine_eq (numbered : Numbered line tokens) (least : 1 ≤ line) (some : tokens ≠ []) :
    Parser.endLine tokens = line + breaks tokens := by
  -- Once a token is counted, the line found so far is the current one.
  have rest_eq {line : Int} {tokens : List Token} (numbered : Numbered line tokens) :
      tokens.foldl (fun line t => if t.kind = .newline then t.line + 1 else max line t.line) line =
        line + breaks tokens := by
    induction tokens generalizing line with
    | nil => simp [breaks]
    | cons t rest ih =>
      obtain ⟨here, others⟩ := numbered
      have step :
          (if t.kind = .newline then t.line + 1 else max line t.line) = nextLine line t := by
        rw [here, max_self]
        rfl
      rw [List.foldl_cons, step, ih others, breaks_cons]
  cases tokens with
  | nil => exact absurd rfl some
  | cons t rest =>
    obtain ⟨here, others⟩ := numbered
    have step : (if t.kind = .newline then t.line + 1 else max 1 t.line) = nextLine line t := by
      rw [here, max_eq_right least]
      rfl
    rw [Parser.endLine, List.foldl_cons, step, rest_eq others, breaks_cons]

end Numbered

/-! ## Segments of strings -/

section Segments

variable {segment : Int → Text → Except Stop (List Token)} {line : Int}

/-- A segment of a string is read from bytes between an opening brace and the next one. -/
theorem string_parts {inside : Option Text} {t : Text} {body : StringBody}
    (read : string segment line inside t = .ok body) (plain : ∀ u ∈ inside, byte '{' ∉ u)
    {part : Nat × List Token} (member : part ∈ body.parts) :
    (inside = none → byte '{' ∈ t) ∧ ∃ u, byte '{' ∉ u ∧ segment line u = .ok part.2 := by
  fun_induction string segment line inside t generalizing body part with
  | case1 | case2 | case3 | case4 | case8 | case9 => cases read
  | case5 inside t tokens segment brace ih =>
    obtain ⟨inner, eq, rfl⟩ := map_eq_ok read
    refine ⟨by simp, ?_⟩
    rcases List.mem_cons.mp member with rfl | later
    · exact ⟨inside.reverse, by simpa using plain inside rfl, segment⟩
    · exact (ih eq (by simp) later).2
  | case6 inside b t brace close ih =>
    refine ⟨by simp, (ih read ?_ member).2⟩
    rintro u ⟨⟩
    simpa [Ne.symm brace] using plain inside rfl
  | case7 t =>
    cases read
    cases member
  | case10 c u _ _ ih =>
    obtain ⟨inner, eq, rfl⟩ := map_eq_ok read
    obtain ⟨part, earlier, rfl⟩ := List.mem_map.mp member
    obtain ⟨found, own⟩ := ih eq (by simp) earlier
    exact ⟨fun _ => .tail _ (.tail _ (found rfl)), own⟩
  | case11 t _ _ _ ih =>
    have none : ∀ u ∈ some ([] : Text), byte '{' ∉ u := by
      rintro u ⟨⟩
      exact List.not_mem_nil
    exact ⟨fun _ => .head _, (ih read none member).2⟩
  | case12 b t quote newline escape brace ih =>
    obtain ⟨inner, eq, rfl⟩ := map_eq_ok read
    obtain ⟨part, earlier, rfl⟩ := List.mem_map.mp member
    obtain ⟨found, own⟩ := ih eq (by simp) earlier
    exact ⟨fun _ => .tail _ (found rfl), own⟩

/-- What starts with no quote has no segments. -/
theorem step_parts_of_ne {b : UInt8} {t : Text} {s : Step} (noQuote : b ≠ byte '"')
    (ran : step segment line b t = .ok s) {token : Token} (member : token ∈ s.tokens) :
    token.parts = [] := by
  rcases mem_tokens_step ran member with ⟨_, name, rfl⟩ | ⟨quote, _⟩ | ⟨kind, line', rfl, _⟩
  · exact Token.parts_ofWord line name
  · exact absurd quote noQuote
  · rfl

/-- The segments of a token that stands on a line are read on that line, from bytes without an
opening brace, and there is an opening brace before each. -/
theorem Stands.parts {p : Placed} (stands : Stands segment line p) {part : Nat × List Token}
    (member : part ∈ p.token.parts) :
    byte '{' ∈ p.own ∧ ∃ u, byte '{' ∉ u ∧ segment line u = .ok part.2 := by
  obtain ⟨b, t, bytes, ran⟩ := stands.reads
  by_cases quote : b = byte '"'
  · subst quote
    obtain ⟨body, read, same⟩ := map_eq_ok ran
    have token : body.token line = p.token := (List.cons.inj (congrArg Step.tokens same)).1
    rw [← token] at member
    obtain ⟨found, own⟩ := string_parts read (by simp) member
    exact ⟨bytes ▸ .tail _ (found rfl), own⟩
  · rw [step_parts_of_ne quote ran (.head _)] at member
    cases member

/-- The segments of the tokens of a text. -/
theorem tokensFrom_parts {t : Text} {tokens : List Token}
    (read : tokensFrom segment line t = .ok tokens) {token : Token} (member : token ∈ tokens)
    {part : Nat × List Token} (own : part ∈ token.parts) :
    byte '{' ∈ t ∧ ∃ u, byte '{' ∉ u ∧ segment token.line u = .ok part.2 := by
  obtain ⟨places, line', -, rfl, spread⟩ := spread_places read
  obtain ⟨p, placed, rfl⟩ := List.mem_map.mp member
  obtain ⟨earlier, later, split⟩ := List.append_of_mem placed
  obtain ⟨before, bytes, stands, -⟩ := spread.line_eq split
  obtain ⟨found, inside⟩ := stands.parts own
  refine ⟨?_, inside⟩
  rw [bytes]
  exact List.mem_append_left _ (List.mem_append_right _ found)

end Segments

end Lexer

/-- The lines in the segments of strings go on from the line of the string, and no string in a
segment has segments. -/
theorem lex_parts {source : Text} {tokens : List Token} (accepted : lex source = .ok tokens)
    {string : Token} (member : string ∈ tokens) {part : Nat × List Token}
    (own : part ∈ string.parts) :
    Lexer.Numbered string.line part.2 ∧ ∀ t ∈ part.2, t.parts = [] := by
  obtain ⟨-, u, plain, read⟩ := Lexer.tokensFrom_parts accepted member own
  refine ⟨.of_tokensFrom read, fun t inner => ?_⟩
  by_contra some
  obtain ⟨part, nested⟩ := List.exists_mem_of_ne_nil _ some
  exact plain (Lexer.tokensFrom_parts read inner nested).1

/-- One more than the line of the last newline token, or the line of the last token if that is
larger; the first line if there are none. -/
def Token.finalLine (tokens : List Token) : Int :=
  max ((tokens.filter (·.kind = .newline)).getLast?.elim 1 (·.line + 1))
    (tokens.getLast?.elim 1 (·.line))

theorem finalLine_eq {tokens : List Token} (numbered : Lexer.Numbered 1 tokens) :
    Token.finalLine tokens = 1 + Lexer.breaks tokens := by
  rcases List.eq_nil_or_concat tokens with rfl | ⟨init, t, rfl⟩
  · rfl
  rw [List.concat_eq_append] at numbered ⊢
  obtain ⟨before, last⟩ := numbered.append_singleton
  have final : Token.finalLine (init ++ [t]) =
      max (((init ++ [t]).filter (·.kind = .newline)).getLast?.elim 1 (·.line + 1)) t.line := by
    rw [Token.finalLine, List.getLast?_concat]
    rfl
  have count : Lexer.breaks (init ++ [t]) = Lexer.breaks init + Lexer.breaks [t] :=
    List.countP_append
  by_cases newline : t.kind = .newline
  · have filtered : (init ++ [t]).filter (·.kind = .newline) =
        init.filter (·.kind = .newline) ++ [t] := by
      simp [newline]
    have one : Lexer.breaks [t] = 1 := by simp [Lexer.breaks, newline]
    rw [final, filtered, List.getLast?_concat, count, one]
    change max (t.line + 1) t.line = _
    omega
  · have filtered : (init ++ [t]).filter (·.kind = .newline) =
        init.filter (·.kind = .newline) := by
      simp [newline]
    have none : Lexer.breaks [t] = 0 := by simp [Lexer.breaks, newline]
    rw [final, filtered, count, none]
    cases found : (init.filter (·.kind = .newline)).getLast? with
    | none =>
      change max 1 t.line = _
      omega
    | some nl =>
      obtain ⟨member, kind⟩ := List.mem_filter.mp (List.mem_of_getLast? found)
      have earlier := before.lt_of_newline member (of_decide_eq_true kind)
      change max (nl.line + 1) t.line = _
      omega

theorem Parser.endLine_eq_finalLine {tokens : List Token} (numbered : Lexer.Numbered 1 tokens) :
    Parser.endLine tokens = Token.finalLine tokens := by
  rw [finalLine_eq numbered]
  by_cases none : tokens = []
  · subst none
    rfl
  · exact numbered.endLine_eq le_rfl none

end EplLang
