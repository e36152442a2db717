import EplLang.Proofs.Place

/-!
# Identifiers and words

Which texts are identifiers is said twice: by a test on bytes, which decides how the keys of an
object are shown, and by the lexer, which reads a word wherever one starts. The two agree
(`isIdentifier_iff_lex`). A text is an identifier exactly if the lexer makes a single token of it,
the token is that of a word, and it is spelled as the text.

**Words.** The token of a word is a name, a keyword or a value, and no other reader makes such a
token. So its bytes are an identifier wherever it stands (`Stands.word`), and they are its spelling.
Blanks and comments around it are no part of the spelling, which is why a longer text with one word
in it is told apart.
-/

set_option autoImplicit false

namespace EplLang

open Text (byte isDigit opensName insideName)

/-- The classes of words: names, keywords and words for values. -/
def Kind.isWord : Kind → Bool
  | .identifier | .keyword | .boolean _ | .null => true
  | _ => false

namespace Token

theorem isWord_ofWord (line : Int) (word : Text) : (ofWord line word).kind.isWord = true := by
  unfold ofWord
  grind [Kind.isWord]

theorem parts_ofWord (line : Int) (word : Text) : (ofWord line word).parts = [] := by
  unfold ofWord
  grind

/-- A word is spelled as it was written. -/
theorem spelling_ofWord (line : Int) (word : Text) : (ofWord line word).spelling = word := by
  unfold ofWord spelling
  grind

end Token

namespace Lexer

variable {segment : Int → Text → Except Stop (List Token)} {line : Int}

/-! ## Tokens that are no words -/

theorem mark_not_word {b : UInt8} {kind : Kind} (mark : mark? b = some kind) :
    kind.isWord = false := by
  unfold mark? at mark
  iterate 13 refine of_ite_some (P := fun kind => kind.isWord = false) mark rfl fun mark => ?_
  cases mark

theorem pair_not_word {b : UInt8} {single double : Kind} (pair : pair? b = some (single, double)) :
    single.isWord = false ∧ double.isWord = false := by
  unfold pair? at pair
  grind [Kind.isWord]

theorem string_not_word (body : StringBody) : (body.token line).kind.isWord = false := by
  unfold StringBody.token
  split <;> rfl

/-- The token of a word, the token of a string, or a token of another class. -/
theorem mem_tokens_step {b : UInt8} {t : Text} {s : Step} (ran : step segment line b t = .ok s)
    {token : Token} (member : token ∈ s.tokens) :
    (opensName b = true ∧ ∃ name, token = Token.ofWord line name) ∨
    (b = byte '"' ∧ ∃ body, string segment line none t = .ok body ∧ token = body.token line) ∨
    ∃ kind line', token = { kind, line := line' } ∧ kind.isWord = false := by
  cases b using step_cases with
  | blank b blank =>
    rw [step_blank blank] at ran
    cases ran
    cases member
  | newline =>
    cases ran
    exact .inr (.inr ⟨.newline, line, List.mem_singleton.mp member, rfl⟩)
  | slash =>
    rw [step_slash] at ran
    split_ifs at ran
    · cases ran
      cases member
    · cases ran
      obtain ⟨line', rfl⟩ := mem_tokens_blockComment member
      exact .inr (.inr ⟨.newline, line', rfl, rfl⟩)
    · cases ran
      exact .inr (.inr ⟨.divide, line, List.mem_singleton.mp member, rfl⟩)
  | quote =>
    obtain ⟨body, read, rfl⟩ := map_eq_ok ran
    exact .inr (.inl ⟨rfl, body, read, List.mem_singleton.mp member⟩)
  | digit b digit =>
    rw [step_digit digit] at ran
    obtain ⟨x, tokens⟩ := tokens_number ran
    rw [tokens] at member
    exact .inr (.inr ⟨.number x, line, List.mem_singleton.mp member, rfl⟩)
  | word b opens =>
    rw [step_word opens] at ran
    cases ran
    exact .inl ⟨opens, _, List.mem_singleton.mp member⟩
  | mark b newline reads =>
    rw [reads] at ran
    obtain ⟨kind, tokens, source⟩ := tokens_punctuation ran
    rw [tokens] at member
    refine .inr (.inr ⟨kind, line, List.mem_singleton.mp member, ?_⟩)
    rcases source with mark | ⟨other, first | second⟩
    · exact mark_not_word mark
    · exact (pair_not_word first).1
    · exact (pair_not_word second).2

/-- Only what opens like a name is read as a word. -/
theorem step_not_word {b : UInt8} {t : Text} {s : Step} (closed : ¬opensName b = true)
    (ran : step segment line b t = .ok s) {token : Token} (member : token ∈ s.tokens) :
    token.kind.isWord = false := by
  rcases mem_tokens_step ran member with ⟨opens, _⟩ | ⟨_, body, _, rfl⟩ |
    ⟨kind, line', rfl, noWord⟩
  · exact absurd opens closed
  · exact string_not_word body
  · exact noWord

/-! ## Words -/

/-- The token of a word stands for its own bytes, which are an identifier. -/
theorem Stands.word {p : Placed} (stands : Stands segment line p)
    (isWord : p.token.kind.isWord = true) :
    Text.isIdentifier p.own = true ∧ p.token = Token.ofWord line p.own := by
  obtain ⟨b, t, bytes, ran⟩ := stands.reads
  by_cases opens : opensName b = true
  · rw [step_word opens] at ran
    have whole : Lexer.word line (b :: t) = ⟨[p.token], nextLine line p.token, []⟩ :=
      Except.ok.inj ran
    have nothing : (b :: t).dropWhile insideName = [] := congrArg Step.rest whole
    have inside := List.dropWhile_eq_nil_iff.mp nothing
    have token : [Token.ofWord line ((b :: t).takeWhile insideName)] = [p.token] :=
      congrArg Step.tokens whole
    rw [List.takeWhile_eq_self_iff.mpr inside, List.singleton_inj] at token
    have rest : t.all insideName = true :=
      List.all_eq_true.mpr fun c member => inside c (List.mem_cons_of_mem _ member)
    rw [bytes]
    exact ⟨by simp only [Text.isIdentifier, opens, rest, Bool.and_self], token.symm⟩
  · rw [step_not_word opens ran List.mem_cons_self] at isWord
    cases isWord

theorem word_of_tokensFrom {t : Text} {tokens : List Token}
    (read : tokensFrom segment line t = .ok tokens) {token : Token} (member : token ∈ tokens)
    (isWord : token.kind.isWord = true) : Text.isIdentifier token.spelling = true := by
  obtain ⟨places, line', -, rfl, spread⟩ := spread_places read
  obtain ⟨p, placed, rfl⟩ := List.mem_map.mp member
  obtain ⟨earlier, later, split⟩ := List.append_of_mem placed
  obtain ⟨before, -, stands, -⟩ := spread.line_eq split
  obtain ⟨identifier, token⟩ := stands.word isWord
  rw [token, Token.spelling_ofWord]
  exact identifier

end Lexer

/-- **The test for identifiers agrees with the lexer.** A text is an identifier exactly if the lexer
makes one token of it, and this is the token of a word, spelled as the text. -/
theorem isIdentifier_iff_lex (s : Text) :
    Text.isIdentifier s = true ↔
      ∃ t, lex s = .ok [t] ∧ t.kind.isWord = true ∧ t.spelling = s := by
  constructor
  · intro identifier
    have spelt : lex s = .ok [Token.ofWord 1 s] := lex_of_spells (.word identifier (by simp))
    exact ⟨_, spelt, Token.isWord_ofWord 1 s, Token.spelling_ofWord 1 s⟩
  · rintro ⟨t, read, isWord, same⟩
    rw [← same]
    exact Lexer.word_of_tokensFrom read List.mem_cons_self isWord

-- One word is not enough: there may be blanks and comments around it.
example : Text.isIdentifier " for /* each */" = false ∧
    lex " for /* each */" = .ok [{ kind := .keyword, line := 1, text := "for" }] :=
  ⟨by decide, by cbv⟩

end EplLang
