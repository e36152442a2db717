import EplLang.Proofs.Place
import EplLang.Proofs.Soundness

/-!
# Sources line by line

A source can be read in two parts, cut at a newline. Where a newline byte comes, every reader
does what it does at the end of the source: no word, number or mark goes on with one, and a
comment up to the end of the line stops before it. Only a block comment that is not closed goes on
behind the newline (`endsInComment`), and a string that is not closed is refused with or without
it. So what comes after the newline is read as if it came alone, but further down: the tokens, also
those of segments, and the line of a fault move by the lines before them (`Token.lowered`).
-/

set_option autoImplicit false

namespace EplLang

/-! ## Further down -/

namespace Token

mutual

/-- A token some lines further down, together with the tokens of its segments. -/
def lowered (down : Int) : Token → Token
  | ⟨kind, line, text, parts⟩ => ⟨kind, line + down, text, loweredParts down parts⟩

/-- The segments of a string some lines further down. -/
def loweredParts (down : Int) : List (Nat × List Token) → List (Nat × List Token)
  | [] => []
  | (offset, tokens) :: rest => (offset, loweredAll down tokens) :: loweredParts down rest

/-- Tokens some lines further down. -/
def loweredAll (down : Int) : List Token → List Token
  | [] => []
  | t :: rest => t.lowered down :: loweredAll down rest

end

theorem loweredAll_eq_map (down : Int) (tokens : List Token) :
    loweredAll down tokens = tokens.map (lowered down) := by
  induction tokens with
  | nil => rfl
  | cons t rest ih => rw [loweredAll, List.map_cons, ih]

theorem loweredParts_eq_map (down : Int) (parts : List (Nat × List Token)) :
    loweredParts down parts = parts.map fun part => (part.1, loweredAll down part.2) := by
  induction parts with
  | nil => rfl
  | cons part rest ih => rw [loweredParts, List.map_cons, ih]

theorem lowered_ofWord (down line : Int) (word : Text) :
    (ofWord line word).lowered down = ofWord (line + down) word := by
  unfold ofWord
  split_ifs <;> rfl

end Token

/-- The same way to stop some lines further down. -/
def Stop.lowered (down : Int) : Stop → Stop
  | .fault f => .fault { f with line := f.line + down }
  | stop => stop

namespace Lexer

open Text (byte isDigit opensName insideName)

/-- What a reader gives some lines further down, or the fault with which it stops there. -/
def lowered {α : Type} (move : Int → α → α) (down : Int) : Except Stop α → Except Stop α
  | .ok a => .ok (move down a)
  | .error stop => .error (stop.lowered down)

theorem lowered_map {α β : Type} {move : Int → α → α} {move' : Int → β → β} {f g : α → β}
    {down : Int} (moves : ∀ a, g (move down a) = move' down (f a)) (x : Except Stop α) :
    (lowered move down x).map g = lowered move' down (x.map f) := by
  cases x with
  | error stop => rfl
  | ok a => exact congrArg Except.ok (moves a)

/-- A step some lines further down. -/
def Step.lowered (down : Int) (s : Step) : Step :=
  ⟨Token.loweredAll down s.tokens, s.line + down, s.rest⟩

/-- The inside of a string some lines further down. -/
def StringBody.lowered (down : Int) (body : StringBody) : StringBody :=
  { body with parts := Token.loweredParts down body.parts }

theorem blockComment_lowered (down line : Int) (t : Text) :
    blockComment (line + down) t = (blockComment line t).lowered down := by
  fun_induction blockComment line t with
  | case1 => rfl
  | case2 line b t closes =>
      rw [blockComment, if_pos closes]
      rfl
  | case3 line t closes ih =>
      rw [blockComment, if_neg closes, if_pos rfl, Int.add_right_comm, ih]
      rfl
  | case4 line b t closes newline ih => rw [blockComment, if_neg closes, if_neg newline, ih]

theorem number_lowered (down line : Int) (t : Text) :
    number (line + down) t = lowered Step.lowered down (number line t) := by
  unfold number
  split
  · rfl
  · split <;> rfl

theorem punctuation_lowered (down line : Int) (b : UInt8) (t : Text) :
    punctuation (line + down) b t = lowered Step.lowered down (punctuation line b t) := by
  unfold punctuation
  split
  · rfl
  split
  · split <;> rfl
  · rfl

/-- A reader of segments that does further down what it does. -/
def Sinks (segment : Int → Text → Except Stop (List Token)) (down : Int) : Prop :=
  ∀ line t, segment (line + down) t = lowered Token.loweredAll down (segment line t)

theorem tokensFrom_of_error {segment : Int → Text → Except Stop (List Token)} {line : Int}
    {b : UInt8} {t : Text} {stop : Stop} (failed : step segment line b t = .error stop) :
    tokensFrom segment line (b :: t) = .error stop := by
  rw [tokensFrom]
  split
  · rename_i stop' failed'
    rw [failed] at failed'
    cases failed'
    rfl
  · rename_i s ran
    rw [failed] at ran
    cases ran

section Lowering

variable {segment : Int → Text → Except Stop (List Token)} {down : Int}
  (sinks : Sinks segment down)
include sinks

theorem string_lowered (line : Int) (inside : Option Text) (t : Text) :
    string segment (line + down) inside t =
      lowered StringBody.lowered down (string segment line inside t) := by
  have push (b : UInt8) (body : StringBody) :
      (body.lowered down).push b = (body.push b).lowered down := by
    simp [StringBody.push, StringBody.lowered, Token.loweredParts_eq_map]
  have pushPart (tokens : List Token) (body : StringBody) :
      (body.lowered down).pushPart (Token.loweredAll down tokens) =
        (body.pushPart tokens).lowered down := by
    simp [StringBody.pushPart, StringBody.lowered, Token.loweredParts]
  fun_induction string segment line inside t with
  | case1 | case2 | case3 => rw [string.eq_def]; rfl
  | case4 inside t stop failed =>
      have failed' : segment (line + down) inside.reverse = .error (stop.lowered down) := by
        rw [sinks, failed]
        rfl
      rw [string.eq_def]
      dsimp only
      rw [if_neg (by decide), if_pos rfl, failed']
      rfl
  | case5 inside t tokens read _ ih =>
      have read' : segment (line + down) inside.reverse = .ok (Token.loweredAll down tokens) := by
        rw [sinks, read]
        rfl
      rw [string_close read', ih, lowered_map (pushPart tokens)]
  | case6 inside b t brace close ih => rw [string_inside brace close, ih]
  | case7 t => exact string_quote
  | case8 | case9 => rw [string.eq_def]; rfl
  | case10 c u _ _ ih => rw [string_escape, ih, lowered_map (push _)]
  | case11 t _ _ _ ih => rw [string_open, ih]
  | case12 b t quote newline escape brace ih =>
      rw [string_plain quote newline escape brace, ih, lowered_map (push b)]

theorem step_lowered (line : Int) (b : UInt8) (t : Text) :
    step segment (line + down) b t = lowered Step.lowered down (step segment line b t) := by
  cases b using step_cases with
  | blank b blank =>
      rw [step_blank blank, step_blank blank]
      rfl
  | newline => exact congrArg (fun line => Except.ok (Step.mk _ line _)) (Int.add_right_comm ..)
  | slash =>
      rw [step_slash, step_slash]
      split
      · rfl
      split
      · exact congrArg Except.ok (blockComment_lowered ..)
      · rfl
  | quote =>
      rw [step_quote, step_quote, string_lowered sinks]
      refine lowered_map (fun body => ?_) _
      simp only [Step.lowered, Token.loweredAll, StringBody.lowered, StringBody.token,
        Token.lowered, Token.loweredParts_eq_map, List.isEmpty_map]
  | digit b digit =>
      rw [step_digit digit, step_digit digit]
      exact number_lowered ..
  | word b opens =>
      rw [step_word opens, step_word opens]
      simp only [word, lowered, Step.lowered, Token.loweredAll, Token.lowered_ofWord]
  | mark b newline reads =>
      rw [reads, reads]
      exact punctuation_lowered ..

theorem tokensFrom_lowered (line : Int) (t : Text) :
    tokensFrom segment (line + down) t =
      lowered Token.loweredAll down (tokensFrom segment line t) := by
  fun_induction tokensFrom segment line t with
  | case1 => rw [tokensFrom]; rfl
  | case2 line b t stop failed =>
      have failed' : step segment (line + down) b t = .error (stop.lowered down) := by
        rw [step_lowered sinks, failed]
        rfl
      exact tokensFrom_of_error failed'
  | case3 line b t s ran ih =>
      have ran' : step segment (line + down) b t = .ok (s.lowered down) := by
        rw [step_lowered sinks, ran]
        rfl
      rw [tokensFrom_cons ran']
      dsimp only [Step.lowered]
      rw [ih]
      refine lowered_map (fun tokens => ?_) _
      simp only [Token.loweredAll_eq_map, List.map_append]

end Lowering

theorem segmentTokens_sinks (down : Int) : Sinks segmentTokens down := fun line t =>
  tokensFrom_lowered (fun _ _ => rfl) line t

/-! ## Before a newline -/

/-- Whether a block comment is closed in a text. -/
def closesComment (t : Text) : Bool := Text.occursIn [byte '*', byte '/'] t

/-- Whether a text ends inside a block comment. -/
def endsInComment (segment : Int → Text → Except Stop (List Token)) (line : Int) : Text → Bool
  | [] => false
  | b :: t =>
    match _h : step segment line b t with
    | .error _ => false
    | .ok s =>
      (b == byte '/' && t.head? == some (byte '*') && !closesComment t.tail) ||
        endsInComment segment s.line s.rest
termination_by t => t.length
decreasing_by exact Nat.lt_succ_of_le (length_step _ _ _ _ _ _h)

theorem endsInComment_cons {segment : Int → Text → Except Stop (List Token)} {line : Int}
    {b : UInt8} {t : Text} {s : Step} (ran : step segment line b t = .ok s) :
    endsInComment segment line (b :: t) =
      (b == byte '/' && t.head? == some (byte '*') && !closesComment t.tail ||
        endsInComment segment s.line s.rest) := by
  rw [endsInComment]
  split
  · rename_i stop failed
    rw [ran] at failed
    cases failed
  · rename_i s' done
    rw [ran] at done
    cases done
    rfl

theorem closesComment_cons (b : UInt8) (t : Text) :
    closesComment (b :: t) = true ↔
      b = byte '*' ∧ t.head? = some (byte '/') ∨ closesComment t = true := by
  have opening : [byte '*', byte '/'].isPrefixOf (b :: t) = true ↔
      b = byte '*' ∧ t.head? = some (byte '/') := by
    cases t <;> simp [List.isPrefixOf, @eq_comm _ (byte '*'), @eq_comm _ (byte '/')]
  rw [closesComment, Text.occursIn, Bool.or_eq_true, opening, closesComment]

theorem blockComment_append (line : Int) {t : Text} (closes : closesComment t = true)
    (more : Text) :
    blockComment line (t ++ more) =
      { blockComment line t with rest := (blockComment line t).rest ++ more } := by
  fun_induction blockComment line t with
  | case1 => cases closes
  | case2 line b t ends =>
      obtain ⟨rfl, slash⟩ := ends
      obtain ⟨u, rfl⟩ := List.head?_eq_some_iff.mp slash
      rfl
  | case3 line t goesOn ih =>
      have inside := ((closesComment_cons _ t).mp closes).resolve_left goesOn
      rw [List.cons_append, blockComment, if_neg (by simp [byte]), if_pos rfl, ih inside]
      rfl
  | case4 line b t goesOn newline ih =>
      have inside := ((closesComment_cons b t).mp closes).resolve_left goesOn
      have goesOn' : ¬(b = byte '*' ∧ (t ++ more).head? = some (byte '/')) := by
        cases t with
        | nil => cases inside
        | cons c t => exact goesOn
      rw [List.cons_append, blockComment, if_neg goesOn', if_neg newline, ih inside]

section Stopping

variable {p : UInt8 → Bool} {b : UInt8} (stops : p b = false) (t more : Text)
include stops

theorem takeWhile_append_stop : (t ++ b :: more).takeWhile p = t.takeWhile p := by
  rw [List.takeWhile_append]
  split
  · rename_i whole
    rw [List.takeWhile_cons_of_neg (by simp [stops]), List.append_nil]
    exact ((List.takeWhile_prefix p).eq_of_length whole).symm
  · rfl

theorem dropWhile_append_stop : (t ++ b :: more).dropWhile p = t.dropWhile p ++ b :: more := by
  rw [List.dropWhile_append]
  split
  · rename_i none
    rw [List.dropWhile_cons_of_neg (by simp [stops]), List.isEmpty_iff.mp none, List.nil_append]
  · rfl

end Stopping

theorem numeral_append {seen : Bool} {t word rest more : Text}
    (read : numeral seen t = some (word, rest)) (ends : EndsNumber more) :
    numeral seen (t ++ more) = some (word, rest ++ more) := by
  fun_induction numeral seen t generalizing word rest with
  | case1 =>
      cases read
      exact numeral_ends ends
  | case2 => cases read
  | case3 seen t unseen ih =>
      obtain ⟨⟨word, rest⟩, inner, same⟩ := Option.map_eq_some_iff.mp read
      cases same
      rw [List.cons_append, numeral, if_pos rfl, if_neg unseen, ih inner]
      rfl
  | case4 seen b t point digit ih =>
      obtain ⟨⟨word, rest⟩, inner, same⟩ := Option.map_eq_some_iff.mp read
      cases same
      rw [List.cons_append, numeral, if_neg point, if_pos digit, ih inner]
      rfl
  | case5 seen b t point digit =>
      cases read
      rw [List.cons_append, numeral, if_neg point, if_neg digit]

section Reading

variable {segment : Int → Text → Except Stop (List Token)} {line : Int}

theorem blockComment_line (line : Int) (t : Text) :
    (blockComment line t).line =
      line + (blockComment line t).tokens.countP (·.kind = .newline) := by
  fun_induction blockComment line t with
  | case1 | case2 => simp
  | case3 line t goesOn ih =>
      simp only [Step.push, ih, List.countP_cons, decide_true, if_true]
      omega
  | case4 line b t goesOn newline ih => exact ih

theorem step_line {b : UInt8} {t : Text} {s : Step} (ran : step segment line b t = .ok s) :
    s.line = line + s.tokens.countP (·.kind = .newline) := by
  by_cases comment : b = byte '/' ∧ t.head? = some (byte '*')
  · obtain ⟨rfl, star⟩ := comment
    obtain ⟨u, rfl⟩ := List.head?_eq_some_iff.mp star
    cases ran
    exact blockComment_line line u
  · cases move_step ran comment with
    | skip => simp
    | token =>
        simp only [nextLine, List.countP_singleton]
        split <;> simp_all

/-- A slash before a newline. -/
theorem step_append_slash {t : Text} {s : Step} (ran : step segment line (byte '/') t = .ok s)
    (closed : t.head? = some (byte '*') → closesComment t.tail = true) (more : Text) :
    step segment line (byte '/') (t ++ byte '\n' :: more) =
      .ok { s with rest := s.rest ++ byte '\n' :: more } := by
  cases t with
  | nil =>
      cases ran
      rfl
  | cons c t =>
      rw [step_slash, List.head?_cons] at ran
      rw [step_slash, List.cons_append, List.head?_cons]
      by_cases slash : some c = some (byte '/')
      · rw [if_pos slash] at ran ⊢
        cases ran
        exact congrArg (fun rest => Except.ok (Step.mk [] line rest))
          (dropWhile_append_stop (by simp) (c :: t) more)
      rw [if_neg slash] at ran ⊢
      by_cases star : some c = some (byte '*')
      · rw [if_pos star] at ran ⊢
        cases ran
        exact congrArg Except.ok (blockComment_append line (closed star) _)
      rw [if_neg star] at ran ⊢
      cases ran
      rfl

theorem number_append {t more : Text} {s : Step} (ran : number line t = .ok s)
    (ends : EndsNumber more) : number line (t ++ more) = .ok { s with rest := s.rest ++ more } := by
  unfold number at ran ⊢
  split at ran
  case h_1 => cases ran
  case h_2 word rest read =>
    rw [numeral_append read ends]
    dsimp only
    split at ran
    case h_1 => cases ran
    case h_2 x value =>
      cases ran
      rfl

theorem punctuation_append {b : UInt8} {t : Text} {s : Step} (ran : punctuation line b t = .ok s)
    (more : Text) :
    punctuation line b (t ++ byte '\n' :: more) =
      .ok { s with rest := s.rest ++ byte '\n' :: more } := by
  unfold punctuation at ran ⊢
  split at ran
  case h_1 kind mark =>
    cases ran
    rfl
  case h_2 noMark =>
    split at ran
    case h_2 => cases ran
    case h_1 single double pair =>
      cases t with
      | nil =>
          cases ran
          rfl
      | cons c t =>
          rw [List.head?_cons] at ran
          rw [List.cons_append, List.head?_cons]
          by_cases equals : some c = some (byte '=')
          · rw [if_pos equals] at ran ⊢
            cases ran
            rfl
          · rw [if_neg equals] at ran ⊢
            cases ran
            rfl

/-- What is read in one step is also read before a newline, unless it is a block comment that is not
closed. -/
theorem step_append {b : UInt8} {t : Text} {s : Step} (ran : step segment line b t = .ok s)
    (closed : b = byte '/' → t.head? = some (byte '*') → closesComment t.tail = true)
    (more : Text) :
    step segment line b (t ++ byte '\n' :: more) =
      .ok { s with rest := s.rest ++ byte '\n' :: more } := by
  cases b using step_cases with
  | blank b blank =>
      rw [step_blank blank] at ran ⊢
      cases ran
      rfl
  | newline =>
      cases ran
      rfl
  | slash => exact step_append_slash ran (closed rfl) more
  | quote =>
      obtain ⟨body, read, rfl⟩ := map_eq_ok ran
      obtain ⟨own, split, again⟩ := string_own read
      rw [split, List.append_assoc, step_string (again _)]
      rfl
  | digit b digit =>
      rw [step_digit digit] at ran ⊢
      exact number_append ran (by simp [EndsNumber, isDigit, byte])
  | word b opens =>
      rw [step_word opens] at ran ⊢
      cases ran
      have outside : insideName (byte '\n') = false := by decide
      rw [word, ← List.cons_append, takeWhile_append_stop outside, dropWhile_append_stop outside]
      rfl
  | mark b newline reads =>
      rw [reads] at ran ⊢
      exact punctuation_append ran more

/-- What comes after a newline is read as if nothing came before it but lines. -/
theorem tokensFrom_append {t : Text} {tokens : List Token}
    (read : tokensFrom segment line t = .ok tokens) (closed : endsInComment segment line t = false)
    (more : Text) :
    tokensFrom segment line (t ++ byte '\n' :: more) =
      (tokensFrom segment (line + tokens.countP (·.kind = .newline)) (byte '\n' :: more)).map
        (tokens ++ ·) := by
  fun_induction tokensFrom segment line t generalizing tokens with
  | case1 line =>
      cases read
      simp only [List.nil_append, List.countP_nil, Int.natCast_zero, Int.add_zero]
      cases tokensFrom segment line (byte '\n' :: more) <;> rfl
  | case2 => cases read
  | case3 line b t s ran ih =>
      obtain ⟨others, inner, rfl⟩ := map_eq_ok read
      obtain ⟨ends, closed⟩ := Bool.or_eq_false_iff.mp (endsInComment_cons ran ▸ closed)
      have ran' := step_append ran (fun slash star => by simpa [slash, star] using ends) more
      rw [List.cons_append, tokensFrom_cons ran', ih inner closed, step_line ran,
        List.countP_append, Int.natCast_add, Int.add_assoc]
      cases tokensFrom segment _ (byte '\n' :: more) with
      | error stop => rfl
      | ok rest => simp [Except.map]

end Reading

end Lexer

/-- **Sources are read line by line.** Let a source be accepted that does not end inside a block
comment, and let `n` be the number of its newline tokens. If a newline byte and another text come
after it, then the whole is accepted exactly if the other text is. Its tokens are those of the
source, a newline token on line `n + 1`, and those of the other text `n + 1` lines further down,
with the tokens in segments of strings. If the other text is refused, the whole is refused for the
same cause, `n + 1` lines further down. -/
theorem lex_append_newline {source : Text} {tokens : List Token}
    (accepted : lex source = .ok tokens)
    (closed : Lexer.endsInComment Lexer.segmentTokens 1 source = false) (more : Text) :
    let n : Int := tokens.countP (·.kind = .newline)
    let whole := source ++ Text.byte '\n' :: more
    ((∃ all, lex whole = .ok all) ↔ ∃ others, lex more = .ok others) ∧
    (∀ others, lex more = .ok others →
      lex whole = .ok (tokens ++ { kind := .newline, line := n + 1 } ::
        others.map (Token.lowered (n + 1)))) ∧
    ∀ stop, lex more = .error stop → ∃ fault : Fault, stop = .fault fault ∧
      lex whole = .error (.fault ⟨fault.line + (n + 1), fault.cause⟩) := by
  intro n whole
  have split : lex whole = (Lexer.lowered Token.loweredAll (n + 1) (lex more)).map fun others =>
      tokens ++ { kind := .newline, line := n + 1 } :: others := by
    have newline : Lexer.step Lexer.segmentTokens (1 + n) (Text.byte '\n') more =
        .ok ⟨[{ kind := .newline, line := 1 + n }], 1 + n + 1, more⟩ := rfl
    have lower : (1 : Int) + n + 1 = 1 + (n + 1) := Int.add_assoc ..
    unfold lex
    rw [Lexer.tokensFrom_append accepted closed, Lexer.tokensFrom_cons newline]
    dsimp only
    rw [lower, Lexer.tokensFrom_lowered (Lexer.segmentTokens_sinks (n + 1)), Int.add_comm 1 n]
    cases Lexer.lowered Token.loweredAll (n + 1)
      (Lexer.tokensFrom Lexer.segmentTokens 1 more) <;> rfl
  refine ⟨?_, fun others read => ?_, fun stop failed => ?_⟩
  · rw [split]
    cases lex more with
    | ok others => exact ⟨fun _ => ⟨_, rfl⟩, fun _ => ⟨_, rfl⟩⟩
    | error stop => exact ⟨nofun, nofun⟩
  · rw [split, read, ← Token.loweredAll_eq_map]
    rfl
  · obtain ⟨line, shown, rfl⟩ := lex_error failed
    refine ⟨_, rfl, ?_⟩
    rw [split, failed]
    rfl

/-- An equals sign before the newline and one after it make no mark of two bytes, and the name in
the segment stands on the third line. -/
theorem lex_append_newline_between_marks :
    let mark (kind : Kind) (line : Int) : Token := { kind, line }
    let string (line : Int) : Token :=
      { kind := .interpolated, line, parts := [(0, [{ kind := .identifier, line, text := "x" }])] }
    lex "/*\n*/ =" = .ok [mark .newline 1, mark .assign 2] ∧
    Lexer.endsInComment Lexer.segmentTokens 1 "/*\n*/ =" = false ∧
    lex "= \"\x7bx\x7d\"" = .ok [mark .assign 1, string 1] ∧
    lex "/*\n*/ =\n= \"\x7bx\x7d\"" =
      .ok [mark .newline 1, mark .assign 2, mark .newline 2, mark .assign 3, string 3] := by
  intro mark string
  have accepted : lex "/*\n*/ =" = .ok [mark .newline 1, mark .assign 2] := by cbv
  have closed : Lexer.endsInComment Lexer.segmentTokens 1 "/*\n*/ =" = false := by cbv
  have name : Lexer.segmentTokens 1 [Text.byte 'x'] =
      .ok [{ kind := .identifier, line := 1, text := "x" }] := by cbv
  have body : Lexer.string Lexer.segmentTokens 1 none
      [Text.byte '{', Text.byte 'x', Text.byte '}', Text.byte '"'] =
      .ok ⟨[], [(0, [{ kind := .identifier, line := 1, text := "x" }])], []⟩ := by
    rw [Lexer.string_open, Lexer.string_inside (by decide) (by decide), Lexer.string_close name,
      Lexer.string_quote]
    rfl
  have quoted : Lexer.Spells Lexer.segmentTokens 1 "\"\x7bx\x7d\"" [string 1] [] :=
    .of_step (Lexer.step_string body)
  have read : lex "= \"\x7bx\x7d\"" = .ok [mark .assign 1, string 1] :=
    lex_of_spells (.append (.append (.assign (by decide)) .blank) quoted)
  obtain ⟨_, whole, _⟩ := lex_append_newline accepted closed "= \"\x7bx\x7d\""
  exact ⟨accepted, closed, read, whole _ read⟩

end EplLang
